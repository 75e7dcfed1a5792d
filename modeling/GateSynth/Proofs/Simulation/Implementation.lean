import GateSynth.Proofs.Netlist.Rewriting
import GateSynth.Proofs.Simulation.Exhaustion
import GateSynth.Proofs.Simulation.Reproduction

/-!
# Netlists that implement others

A netlist implements another if it is in order, has the same ports, and every solution of the other
gives a solution of it with the same outputs (`Implements`). This holds of a netlist and itself and
carries over from step to step, so it holds of what a flow makes of a netlist if it holds of each
stage.

The comparison of a netlist with one that implements it never finds a difference
(`Implements.checkEquivalence_cases`): it finds that they agree, it has too many assignments to try,
or it meets a node without a function.
-/

namespace GateSynth

open Netlist

/-! ## Errors of evaluation -/

namespace Evaluator

variable {n : Netlist} {cells : CellFunctions} {e : Evaluator} {given values : Values}

/-- A node without a value is one without a function. -/
theorem unevaluable_of_nodeValue {node : Node} {error : EvalError}
    (h : nodeValue n cells values node = .error error) :
    ∃ id kind, error = .unevaluable id kind := by
  rw [nodeValue] at h
  split at h
  · cases h
  · cases h
  · split at h
    · split at h
      · cases h
      · cases h
        exact ⟨_, _, rfl⟩
    · cases h
      exact ⟨_, _, rfl⟩

theorem unevaluable_of_run {order : List NodeId} {error : EvalError}
    (h : run n cells order values = .error error) : ∃ id kind, error = .unevaluable id kind := by
  induction order generalizing values with
  | nil => cases h
  | cons id rest ih =>
    rw [run] at h
    split at h
    · split at h
      · exact ih h
      · next hvalue =>
        cases h
        exact unevaluable_of_nodeValue hvalue
    · exact ih h

/-- Where all inputs are given, evaluation only fails at a node without a function. -/
theorem unevaluable_of_evaluate (hgiven : ∀ i ∈ e.netlist.inputs, (given.find? i).isSome)
    {error : EvalError} (h : e.evaluate given = .error error) :
    ∃ id kind, error = .unevaluable id kind := by
  obtain ⟨start, hstart⟩ := inputValues_isOk e.netlist Table.empty hgiven
  rw [evaluate, simulate, hstart] at h
  cases hrun : run e.netlist e.cells e.order start with
  | error error' =>
    simp only [bind, Except.bind, hrun] at h
    cases h
    exact unevaluable_of_run hrun
  | ok final => simp only [bind, Except.bind, hrun] at h; cases h

end Evaluator

/-! ## Implementations -/

namespace Netlist

variable {n n' n'' : Netlist} {cells : CellFunctions}

/-- The second netlist is in order, has the ports of the first and puts out what the first does. -/
structure Implements (cells : CellFunctions) (n n' : Netlist) : Prop where
  coherent : n'.Coherent
  legal : n'.Legal
  inputs : n'.inputs = n.inputs
  outputs : n'.outputs = n.outputs
  width : ∀ port, port ∈ n.inputs ∨ port ∈ n.outputs → n'.width port = n.width port
  solves : ∀ given v, n.Solution cells given v →
    ∃ v', n'.Solution cells given v' ∧ ∀ o ∈ n.outputs, v' o = v o

namespace Implements

theorem refl (hc : n.Coherent) (hl : n.Legal) : Implements cells n n :=
  ⟨hc, hl, rfl, rfl, fun _ _ => rfl, fun _ v hv => ⟨v, hv, fun _ _ => rfl⟩⟩

theorem trans (h : Implements cells n n') (h' : Implements cells n' n'') :
    Implements cells n n'' := by
  refine ⟨h'.coherent, h'.legal, h'.inputs.trans h.inputs, h'.outputs.trans h.outputs,
    fun port hport => ?_, fun given v hv => ?_⟩
  · rw [h'.width port (by rwa [h.inputs, h.outputs]), h.width port hport]
  · obtain ⟨v', hv', hsame⟩ := h.solves given v hv
    obtain ⟨v'', hv'', hsame'⟩ := h'.solves given v' hv'
    exact ⟨v'', hv'', fun o ho => (hsame' o (h.outputs ▸ ho)).trans (hsame o ho)⟩

/-- The stored wires do not matter. -/
theorem rebuildWires (h : Implements cells n n') : Implements cells n n'.rebuildWires := by
  refine ⟨h.coherent.rebuildWires, h.legal.rebuildWires, h.inputs, h.outputs, h.width,
    fun given v hv => ?_⟩
  obtain ⟨v', hv', hsame⟩ := h.solves given v hv
  exact ⟨v', ⟨hv'.input, hv'.node⟩, hsame⟩

end Implements

/-- A rewritten netlist implements the old one if solutions carry over. -/
theorem Preserved.implements (h : Preserved n n')
    (hsolves : ∀ given v, n.Solution cells given v →
      ∃ v', n'.Solution cells given v' ∧ ∀ o ∈ n.outputs, v' o = v o) :
    Implements cells n n' :=
  ⟨h.coherent, h.legal, h.inputs, h.outputs, h.width, hsolves⟩

theorem Entails.implements (h : Entails n n') (hp : Preserved n n') : Implements cells n n' :=
  hp.implements fun _ v hv => ⟨v, h hv, fun _ _ => rfl⟩

/-! ## The comparison -/

namespace Implements

variable {reference candidate : Evaluator} {limit : Nat}

theorem portFault?_eq_none (h : Implements cells n n')
    (hreference : Evaluator.ofNetlist n cells = .ok reference)
    (hcandidate : Evaluator.ofNetlist n' cells = .ok candidate) :
    Equivalence.portFault? reference.netlist candidate.netlist = none := by
  obtain ⟨order, -, rfl⟩ := ofNetlist_eq_ok hreference
  obtain ⟨order', -, rfl⟩ := ofNetlist_eq_ok hcandidate
  exact Equivalence.portFault?_of_same h.inputs h.outputs fun i hi => h.width i (.inl hi)

/-- Wherever a netlist can be evaluated, one that implements it puts out the same. -/
theorem evaluate (h : Implements cells n n') (hc : n.Coherent) (hl : n.Legal)
    (hreference : Evaluator.ofNetlist n cells = .ok reference)
    (hcandidate : Evaluator.ofNetlist n' cells = .ok candidate) {given : Values}
    {outputs : List (String × Word)} (heval : reference.evaluate given = .ok outputs) :
    candidate.evaluate given = .ok outputs := by
  obtain ⟨v, hv, rfl⟩ := hl.solution_of_evaluate hc hreference heval
  obtain ⟨v', hv', hsame⟩ := h.solves given v hv
  obtain ⟨e, he, heval'⟩ := h.legal.evaluate_of_solution h.coherent hv'
  rw [hcandidate] at he
  cases he
  rw [heval', h.outputs]
  exact congrArg Except.ok (List.map_congr_left fun o ho => by rw [hsame o ho])

/-- On one assignment there is no difference, unless a node has no function. -/
theorem compareAt_cases (h : Implements cells n n') (hc : n.Coherent) (hl : n.Legal)
    (hreference : Evaluator.ofNetlist n cells = .ok reference)
    (hcandidate : Evaluator.ofNetlist n' cells = .ok candidate) (index : Nat) :
    Equivalence.compareAt reference candidate index = .ok none ∨
      ∃ id kind,
        reference.evaluate (reference.assignment (UInt64.ofNat index)) =
          .error (.unevaluable id kind) ∧
        Equivalence.compareAt reference candidate index = .error (.unevaluable id kind) := by
  have hports := h.portFault?_eq_none hreference hcandidate
  cases heval : reference.evaluate (reference.assignment (UInt64.ofNat index)) with
  | ok outputs =>
    obtain ⟨v, rfl⟩ := Evaluator.evaluate_eq_ok heval
    refine .inl ((Equivalence.compareAt_eq_none_iff hports index).2 ?_)
    exact ⟨_, _, heval, h.evaluate hc hl hreference hcandidate heval, fun o ho =>
      ⟨v o, Equivalence.findEntry_map v ho, Equivalence.findEntry_map v ho⟩⟩
  | error error =>
    obtain ⟨id, kind, rfl⟩ := Evaluator.unevaluable_of_evaluate
      (fun i hi => (reference.assignment_isSome _ i).2 hi) heval
    refine .inr ⟨id, kind, rfl, ?_⟩
    rw [Equivalence.compareAt, heval]
    rfl

/-- The comparison finds no difference: the netlists agree, there are too many assignments, or a
node of the reference has no function. -/
theorem checkEquivalence_cases (h : Implements cells n n') (hc : n.Coherent) (hl : n.Legal)
    (hreference : Evaluator.ofNetlist n cells = .ok reference)
    (hcandidate : Evaluator.ofNetlist n' cells = .ok candidate) (limit : Nat) :
    checkEquivalence reference candidate limit = .ok none ∨
    (limit < reference.inputBits ∨ 64 ≤ reference.inputBits) ∧
      checkEquivalence reference candidate limit =
        .error (.tooWide reference.inputBits limit) ∨
    ∃ index id kind,
      reference.evaluate (reference.assignment index) = .error (.unevaluable id kind) ∧
      checkEquivalence reference candidate limit = .error (.unevaluable id kind) := by
  have hports := h.portFault?_eq_none hreference hcandidate
  by_cases hwide : limit < reference.inputBits ∨ 64 ≤ reference.inputBits
  · have hcount : reference.assignmentCount limit = .error (.tooWide reference.inputBits limit) :=
      if_pos hwide
    refine .inr (.inl ⟨hwide, ?_⟩)
    rw [checkEquivalence, hports]
    dsimp only
    rw [hcount]
    rfl
  · rw [Equivalence.checkEquivalence_eq hports (by omega) (by omega)]
    rcases Equivalence.searchFrom_cases reference candidate (Nat.pow 2 reference.inputBits) 0 with
      ⟨hnone, -⟩ | ⟨k, -, hfound, hsome⟩
    · exact .inl hnone
    · rcases h.compareAt_cases hc hl hreference hcandidate (0 + k) with
        hnone | ⟨id, kind, heval, herror⟩
      · exact absurd hnone hsome
      · exact .inr (.inr ⟨_, id, kind, heval, hfound.trans herror⟩)

end Implements

end Netlist

end GateSynth
