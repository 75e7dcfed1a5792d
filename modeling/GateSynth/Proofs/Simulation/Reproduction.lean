import GateSynth.Proofs.Netlist.Rewriting
import GateSynth.Proofs.Simulation.Solutions

/-!
# Rewritten netlists that compute the same

A rewritten netlist reproduces another if it puts out whatever the other puts out
(`Reproduces`). As evaluation finds the solutions of a netlist, this is a matter of solutions: each
one of the old netlist gives one of the new with the same outputs (`Preserved.reproduces`). Passes
that change nodes in place or merge them keep the solution as it is (`Entails`).
-/

namespace GateSynth.Netlist

variable {n n' n'' : Netlist}

/-- The netlist puts out whatever the other one does, on every assignment of the inputs and for
every meaning of the library cells. -/
def Reproduces (n' n : Netlist) : Prop :=
  ∀ cells e given outputs, Evaluator.ofNetlist n cells = .ok e → e.evaluate given = .ok outputs →
    ∃ e', Evaluator.ofNetlist n' cells = .ok e' ∧ e'.evaluate given = .ok outputs

/-- Every solution of the first netlist solves the second. -/
def Entails (n n' : Netlist) : Prop :=
  ∀ ⦃cells given v⦄, n.Solution cells given v → n'.Solution cells given v

theorem Entails.refl (n : Netlist) : Entails n n := fun _ _ _ hv => hv

theorem Entails.trans (h : Entails n n') (h' : Entails n' n'') : Entails n n'' :=
  fun _ _ _ hv => h' (h hv)

/-- A netlist with the same ports reproduces another if its solutions put out the same. -/
theorem Preserved.reproduces (h : Preserved n n') (hl : n.Legal) (hc : n.Coherent)
    (hsolves : ∀ cells given v, n.Solution cells given v →
      ∃ v', n'.Solution cells given v' ∧ ∀ o ∈ n.outputs, v' o = v o) :
    n'.Reproduces n := by
  intro cells e given outputs he houtputs
  obtain ⟨v, hv, rfl⟩ := hl.solution_of_evaluate hc he houtputs
  obtain ⟨v', hv', hsame⟩ := hsolves cells given v hv
  obtain ⟨e', he', heval⟩ := h.legal.evaluate_of_solution h.coherent hv'
  refine ⟨e', he', heval.trans ?_⟩
  rw [h.outputs]
  refine congrArg Except.ok (List.map_congr_left fun o ho => ?_)
  rw [hsame o ho]

theorem Entails.reproduces (h : Entails n n') (hp : Preserved n n') (hl : n.Legal)
    (hc : n.Coherent) : n'.Reproduces n :=
  hp.reproduces hl hc fun _ _ v hv => ⟨v, h hv, fun _ _ => rfl⟩

end GateSynth.Netlist
