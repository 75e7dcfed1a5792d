import GateSynth.Proofs.Simulation.Solutions
import Mathlib.Data.Finset.Dedup
import Mathlib.Data.Finset.Order

/-!
# Solving part of the equations

In a legal netlist some signals may be held at given values and the nodes that drive them ignored.
The equations of the other nodes then still have a solution (`Legal.exists_extension`), and it is
the only one (`Legal.eq_of_extensions`).
-/

namespace GateSynth.Netlist

variable {n : Netlist} {cells : CellFunctions} {v v' : Valuation} {held : String → Prop}

/-- Every node obeys its equation, unless its signal is held. -/
def Obeys (n : Netlist) (cells : CellFunctions) (held : String → Prop) (v : Valuation) : Prop :=
  ∀ node ∈ n.nodes, ¬ held node.output → v.result n cells node = some (v node.output)

/-- Two solutions that agree on the inputs and what is held agree on all defined signals. -/
theorem Legal.eq_of_extensions (hl : n.Legal) (hv : n.Obeys cells held v)
    (hv' : n.Obeys cells held v') (hinputs : ∀ i ∈ n.inputs, v i = v' i)
    (hheld : ∀ s, held s → v s = v' s) {signal : String} (hs : n.isDefined signal = true) :
    v signal = v' signal := by
  obtain ⟨rank, hrank⟩ := hl.acyclic
  induction hk : rank signal using Nat.strong_induction_on generalizing signal with
  | _ k ih =>
    rcases isDefined_iff.1 hs with ⟨node, hnode, rfl⟩ | hin
    · by_cases hkept : held node.output
      · exact hheld _ hkept
      have hreads : ∀ f ∈ node.fanins, v f.signal = v' f.signal := by
        intro f hf
        have hdefined := hl.reads node hnode f hf
        rcases hl.source hdefined with ⟨d, -, -, hd⟩ | ⟨hin, -⟩
        · have hlt := hrank node hnode f hf (by rw [hd]; rfl)
          exact ih _ (hk ▸ hlt) hdefined rfl
        · exact hinputs _ hin
      have hresult := hv node hnode hkept
      rw [Valuation.result_congr_values hreads, hv' node hnode hkept] at hresult
      exact (Option.some.inj hresult).symm
    · exact hinputs _ hin

/-! ## Evaluating some of the nodes -/

open Classical in
/-- The values after some of the nodes have been evaluated, all at once. -/
noncomputable def evaluated (n : Netlist) (cells : CellFunctions) (due : Node → Prop)
    (v : Valuation) : Valuation := fun s =>
  match n.driverNode? s with
  | some node => if due node then (v.result n cells node).getD 0 else v s
  | none => v s

section
variable {due : Node → Prop} {node : Node}

theorem evaluated_of_driver (hl : n.Legal) (hnode : node ∈ n.nodes) (hdue : due node)
    (hresult : (v.result n cells node).isSome = true) :
    v.result n cells node = some (n.evaluated cells due v node.output) := by
  obtain ⟨x, hx⟩ := Option.isSome_iff_exists.1 hresult
  rw [evaluated, driverNode?_of_mem hl.single hnode]
  dsimp only
  rw [if_pos hdue, hx]
  rfl

/-- A signal whose driver is not among the nodes keeps its value. -/
theorem evaluated_of_not_due {s : String} (h : ∀ node ∈ n.nodes, node.output = s → ¬ due node) :
    n.evaluated cells due v s = v s := by
  rw [evaluated]
  split
  · next node hnode =>
    obtain ⟨hmem, ho⟩ := driverNode?_eq_some hnode
    exact if_neg (h node hmem ho)
  · rfl

end

/-- Once the nodes of lower ranks obey, those of a rank can be made to. -/
theorem Legal.obeys_evaluated (hl : n.Legal) {rank : String → Nat} {k : Nat}
    (hrank : ∀ node ∈ n.nodes, ∀ f ∈ node.fanins,
      (n.driver? f.signal).isSome → rank f.signal < rank node.output)
    (hresult : ∀ node ∈ n.nodes, ¬ held node.output →
      ∀ v : Valuation, (v.result n cells node).isSome = true)
    (hv : n.Obeys cells (fun s => held s ∨ k ≤ rank s) v) {due : Node → Prop}
    (hdue : ∀ node, due node ↔ rank node.output = k ∧ ¬ held node.output) :
    n.Obeys cells (fun s => held s ∨ k + 1 ≤ rank s) (n.evaluated cells due v) := by
  intro node hnode hnot
  rw [not_or, Nat.not_le] at hnot
  -- what the node reads has a lower rank, so it is settled
  have hreads : ∀ f ∈ node.fanins, n.evaluated cells due v f.signal = v f.signal := by
    refine fun f hf => evaluated_of_not_due fun driver hdriver ho hd => ?_
    have hlt := hrank node hnode f hf (ho ▸ (driver?_isSome_iff.2 ⟨driver, hdriver, rfl⟩))
    have hk := ((hdue driver).1 hd).1
    rw [ho] at hk
    omega
  rw [Valuation.result_congr_values hreads]
  by_cases hk : rank node.output = k
  · exact evaluated_of_driver hl hnode ((hdue node).2 ⟨hk, hnot.1⟩) (hresult node hnode hnot.1 v)
  · have hsame : n.evaluated cells due v node.output = v node.output := by
      refine evaluated_of_not_due fun driver _ ho hd => hk ?_
      rw [← ho]
      exact ((hdue driver).1 hd).1
    rw [hsame]
    refine hv node hnode (not_or.2 ⟨hnot.1, ?_⟩)
    omega

/-- What is held can be extended to a solution, if the other nodes have a function. -/
theorem Legal.exists_extension (hl : n.Legal)
    (hresult : ∀ node ∈ n.nodes, ¬ held node.output →
      ∀ v : Valuation, (v.result n cells node).isSome = true) (v : Valuation) :
    ∃ v', n.Obeys cells held v' ∧
      ∀ s, (∀ node ∈ n.nodes, node.output = s → held s) → v' s = v s := by
  obtain ⟨rank, hrank⟩ := hl.acyclic
  have hupTo : ∀ k, ∃ v' : Valuation, n.Obeys cells (fun s => held s ∨ k ≤ rank s) v' ∧
      ∀ s, (∀ node ∈ n.nodes, node.output = s → held s) → v' s = v s := by
    intro k
    induction k with
    | zero => exact ⟨v, fun _ _ hnot => absurd (.inr (Nat.zero_le _)) hnot, fun _ _ => rfl⟩
    | succ k ih =>
      obtain ⟨v', hv', hsame⟩ := ih
      refine ⟨_, hl.obeys_evaluated hrank hresult hv' fun _ => Iff.rfl, fun s hs => ?_⟩
      rw [evaluated_of_not_due fun node hnode ho hdue => hdue.2 (ho ▸ hs node hnode ho)]
      exact hsame s hs
  obtain ⟨top, htop⟩ := (n.nodes.map fun node => rank node.output).toFinset.exists_le
  obtain ⟨v', hv', hsame⟩ := hupTo (top + 1)
  refine ⟨v', fun node hnode hnot => hv' node hnode (not_or.2 ⟨hnot, ?_⟩), hsame⟩
  have hle := htop _ (List.mem_toFinset.2 (List.mem_map.2 ⟨node, hnode, rfl⟩))
  omega

end GateSynth.Netlist
