import GateSynth.Optimize.Rounds
import GateSynth.Proofs.Optimize.Balancing
import GateSynth.Proofs.Optimize.Folding
import GateSynth.Proofs.Optimize.Liveness
import GateSynth.Proofs.Optimize.Merging

/-!
# Integrity of optimized netlists

Every pass keeps a netlist in order (`applyPass_preserved`), so the validation after a pass never
finds a fault and no pass is taken back for one. What is left to end a round is a division by zero
in strict mode. `Intact` says so of a result, and it is carried from a pass over a round to all
rounds: whatever the settings, optimizing a valid netlist leaves a valid one with the same ports.
-/

namespace GateSynth

namespace Netlist

variable {n n' : Netlist} {α : Type}

/-- The netlist is valid, with the ports it had and no more nodes than before, and if there is an
error it is a division by zero in strict mode. -/
structure Intact (strict : Bool) (n : Netlist) (r : Netlist × Except OptError α) : Prop where
  preserved : Preserved n r.1
  valid : r.1.validate = .ok ()
  error : ∀ e, r.2 = .error e → strict = true ∧ ∃ division, e = .fold division

/-! ## One pass -/

/-- Every pass keeps the netlist in order and only fails at divisions by zero. -/
theorem Legal.applyPass_preserved (hl : n.Legal) (hc : n.Coherent) (pass : Pass) (strict : Bool) :
    Preserved n (n.applyPass pass strict).1 ∧
      ∀ e, (n.applyPass pass strict).2 = .error e →
        strict = true ∧ ∃ division, e = .fold division := by
  cases pass with
  | strash =>
    obtain ⟨n', merged, hmerge, hswept⟩ := hl.mergeEqual_swept hc
    rw [applyPass]
    dsimp only
    rw [hmerge]
    exact ⟨hswept.preserved, fun e he => by cases he⟩
  | constprop => exact ⟨hl.foldConstants_preserved hc, fun e he => hl.foldConstants_error hc he⟩
  | dce => exact ⟨hl.dropDead_preserved hc, fun e he => by cases he⟩
  | balance =>
    obtain ⟨n', rebuilt, hbalance, hbalanced⟩ := hl.balanceTrees_balanced hc
    rw [applyPass]
    dsimp only
    rw [hbalance]
    exact ⟨hbalanced.preserved, fun e he => by cases he⟩

/-- A pass on a valid netlist is not taken back, unless it fails itself. -/
theorem Legal.runPass_eq (hl : n.Legal) (hc : n.Coherent) (hv : n.validate = .ok ()) (pass : Pass)
    (strict : Bool) :
    n.runPass pass strict =
      match (n.applyPass pass strict).2 with
      | .error e => (n, .error e)
      | .ok outcome => ((n.applyPass pass strict).1.rebuildWires, .ok outcome) := by
  have hp := (hl.applyPass_preserved hc pass strict).1
  rw [runPass, hv]
  generalize n.applyPass pass strict = applied at hp ⊢
  obtain ⟨n', result⟩ := applied
  cases result with
  | error e => rfl
  | ok outcome =>
    dsimp only
    rw [hp.coherent.validate_rebuildWires hp.legal]

theorem Coherent.runPass_intact (hc : n.Coherent) (hv : n.validate = .ok ()) (pass : Pass)
    (strict : Bool) : Intact strict n (n.runPass pass strict) := by
  have hl := hc.legal_of_validate hv
  obtain ⟨hp, herror⟩ := hl.applyPass_preserved hc pass strict
  rw [hl.runPass_eq hc hv]
  split
  · next e he =>
    refine ⟨.refl hc hl, hv, fun e' he' => ?_⟩
    cases he'
    exact herror e he
  · exact ⟨hp.rebuildWires, hp.coherent.validate_rebuildWires hp.legal, fun e he => by cases he⟩

/-! ## Rounds -/

variable {β : Type} {strict : Bool}

/-- What starts from the netlist of an intact result leaves an intact result. -/
theorem Intact.trans {r : Netlist × Except OptError α} {r' : Netlist × Except OptError β}
    (h : Intact strict n r) (h' : Intact strict r.1 r') : Intact strict n r' :=
  ⟨h.preserved.trans h'.preserved, h'.valid, h'.error⟩

/-- An error is passed on with the netlist as it is. -/
theorem Intact.of_error {e : OptError} (h : Intact strict n (n', (.error e : Except OptError α))) :
    Intact strict n (n', (.error e : Except OptError β)) := by
  refine ⟨h.preserved, h.valid, fun e' he' => h.error e' ?_⟩
  cases he'
  rfl

theorem Intact.of_ok {a : α} (h : Intact strict n (n', .ok a)) (b : β) :
    Intact strict n (n', .ok b) :=
  ⟨h.preserved, h.valid, fun e he => by cases he⟩

theorem Coherent.runRound_intact (hc : n.Coherent) (hv : n.validate = .ok ()) {round : Nat}
    {passes : List Pass} {reports : List PassReport}
    {r : Netlist × Except OptError (List PassReport)}
    (hr : runRound strict round passes n reports = r) : Intact strict n r := by
  subst hr
  induction passes generalizing n reports with
  | nil => exact ⟨.refl hc (hc.legal_of_validate hv), hv, fun e he => by cases he⟩
  | cons pass rest ih =>
    have hpass := hc.runPass_intact hv pass strict
    rw [runRound]
    split
    · next after e heq =>
      rw [heq] at hpass
      exact hpass.of_error
    · next after outcome heq =>
      rw [heq] at hpass
      exact hpass.trans (ih hpass.preserved.coherent hpass.valid)

theorem Coherent.runRounds_intact (hc : n.Coherent) (hv : n.validate = .ok ())
    (settings : OptSettings) (left round : Nat) (reports : List PassReport) :
    Intact settings.strict n (runRounds settings left round n reports) := by
  fun_induction runRounds settings left round n reports with
  | case1 left round n reports after e heq => exact (hc.runRound_intact hv heq).of_error
  | case2 left round n reports after new heq all hzero => exact (hc.runRound_intact hv heq).of_ok _
  | case3 round n reports after new heq all hchanged => exact (hc.runRound_intact hv heq).of_ok _
  | case4 round n reports after new heq all hchanged left ih =>
    have hround := hc.runRound_intact hv heq
    exact hround.trans (ih hround.preserved.coherent hround.valid)

theorem Coherent.optimize_intact (hc : n.Coherent) (hv : n.validate = .ok ())
    (settings : OptSettings) : Intact settings.strict n (n.optimize settings) :=
  hc.runRounds_intact hv settings _ _ _

/-- Whatever the passes, their order and the rounds, optimizing a valid netlist succeeds or ends
with a division by zero in strict mode, and either way it leaves a valid netlist with the same
ports. -/
theorem optimize_leaves_valid (hc : n.Coherent) (hv : n.validate = .ok ())
    (settings : OptSettings) :
    ((∃ report, (n.optimize settings).2 = .ok report) ∨
      settings.strict = true ∧ ∃ division, (n.optimize settings).2 = .error (.fold division)) ∧
    (n.optimize settings).1.validate = .ok () ∧
    (n.optimize settings).1.inputs = n.inputs ∧
    (n.optimize settings).1.outputs = n.outputs ∧
    (∀ port, port ∈ n.inputs ∨ port ∈ n.outputs →
      (n.optimize settings).1.width port = n.width port) ∧
    (n.optimize settings).1.nodeCount ≤ n.nodeCount := by
  have h := hc.optimize_intact hv settings
  refine ⟨?_, h.valid, h.preserved.inputs, h.preserved.outputs, h.preserved.width,
    h.preserved.nodeCount⟩
  cases hresult : (n.optimize settings).2 with
  | ok report => exact .inl ⟨report, rfl⟩
  | error e =>
    obtain ⟨hstrict, division, rfl⟩ := h.error e hresult
    exact .inr ⟨hstrict, division, rfl⟩

end Netlist

namespace ZeroDivisor

/-- `a / 0` and two equal gates. -/
def netlist : Netlist where
  name := "division"
  inputs := ["a", "b"]
  outputs := ["y", "q"]
  widths := ⟨["a", "b", "y", "q", "zero", "s", "t"].map (·, (Width.ofNat? 2).getD .one)⟩
  arena := [some ⟨⟨0⟩, .op .and, [.plain "a", .plain "b"], "s"⟩,
    some ⟨⟨1⟩, .op .and, [.plain "b", .plain "a"], "t"⟩,
    some ⟨⟨2⟩, .op .xor, [.plain "s", ⟨"t", true⟩], "y"⟩,
    some ⟨⟨3⟩, .const 0, [], "zero"⟩,
    some ⟨⟨4⟩, .op .div, [.plain "a", .plain "zero"], "q"⟩]
  wires := [⟨"a", ⟨0⟩, 0⟩, ⟨"b", ⟨0⟩, 1⟩, ⟨"b", ⟨1⟩, 0⟩, ⟨"a", ⟨1⟩, 1⟩, ⟨"s", ⟨2⟩, 0⟩, ⟨"t", ⟨2⟩, 1⟩,
    ⟨"a", ⟨4⟩, 0⟩, ⟨"zero", ⟨4⟩, 1⟩]
  nextFresh := 0

theorem coherent : netlist.Coherent := by
  refine ⟨fun {i node} h => ?_, by decide, by decide, by decide⟩
  match i, h with
  | 0, h | 1, h | 2, h | 3, h | 4, h =>
    cases h
    rfl

theorem valid : netlist.validate = .ok () := by
  rw [Netlist.validate_of_derived (by decide)]
  decide

/-- Merging comes before the pass that fails. -/
def settings : OptSettings := ⟨[.balance, .strash, .constprop, .dce], 3, true⟩

end ZeroDivisor

/-- The division ends the first round, and the merged netlist is left. -/
theorem optimize_leaves_valid_zeroDivisor :
    ZeroDivisor.netlist.Coherent ∧ ZeroDivisor.netlist.validate = .ok () ∧
      (ZeroDivisor.netlist.optimize ZeroDivisor.settings).2 =
        .error (.fold ⟨⟨4⟩, "DIV", [none, some 0]⟩) ∧
      (ZeroDivisor.netlist.optimize ZeroDivisor.settings).1.nodeCount = 4 ∧
      (ZeroDivisor.netlist.optimize ZeroDivisor.settings).1.validate = .ok () := by
  have hrun : ((ZeroDivisor.netlist.optimize ZeroDivisor.settings).2,
      (ZeroDivisor.netlist.optimize ZeroDivisor.settings).1.nodeCount) =
        (.error (.fold ⟨⟨4⟩, "DIV", [none, some 0]⟩), 4) := by cbv
  obtain ⟨herror, hcount⟩ := Prod.mk.inj hrun
  refine ⟨ZeroDivisor.coherent, ZeroDivisor.valid, herror, hcount, ?_⟩
  exact (Netlist.optimize_leaves_valid ZeroDivisor.coherent ZeroDivisor.valid
    ZeroDivisor.settings).2.1

end GateSynth
