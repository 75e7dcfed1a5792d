import GateSynth.Proofs.Optimize.MergedValues
import Mathlib.Data.String.Basic

/-!
# Complete merging

Neither the sweeps nor the chains of merged signals that they follow need a bound. A chain has at
most two steps (`Short`), so it has an end wherever it starts (`Short.leads`), and there is a sweep
that merges nothing (`sweepsOn_of_legal`). After that sweep no two nodes that can be merged are
alike: fanins in another order have the same sorted form (`mergeSort_eq_of_perm`), and so the nodes
have one signature.
-/

namespace GateSynth

open Netlist

/-! ## Sorted fanins -/

namespace Fanin

theorem le_total (a b : Fanin) : (a.le b || b.le a) = true := by
  simp only [le]
  rcases lt_trichotomy a.signal b.signal with h | h | h
  · simp [h]
  · cases a.inverted <;> cases b.inverted <;> simp [h]
  · simp [h]

theorem le_trans (a b c : Fanin) (hab : a.le b = true) (hbc : b.le c = true) : a.le c = true := by
  simp only [le, Bool.or_eq_true, decide_eq_true_eq, Bool.and_eq_true, beq_iff_eq,
    Bool.not_eq_true'] at *
  rcases hab with hab | ⟨hab, hab'⟩ <;> rcases hbc with hbc | ⟨hbc, hbc'⟩
  · exact .inl (lt_trans hab hbc)
  · exact .inl (hbc ▸ hab)
  · exact .inl (hab ▸ hbc)
  · refine .inr ⟨hab.trans hbc, hab'.imp_right fun hb => ?_⟩
    exact hbc'.resolve_left (by simp [hb])

theorem le_antisymm {a b : Fanin} (hab : a.le b = true) (hba : b.le a = true) : a = b := by
  obtain ⟨signal, inverted⟩ := a
  obtain ⟨signal', inverted'⟩ := b
  simp only [le] at hab hba
  rcases lt_trichotomy signal signal' with h | h | h
  · simp [h.ne', lt_asymm h] at hba
  · subst h
    cases inverted <;> cases inverted' <;> simp_all
  · simp [h.ne', lt_asymm h] at hab

/-- Fanins in another order have the same sorted form. -/
theorem mergeSort_eq_of_perm {fanins fanins' : List Fanin} (h : fanins.Perm fanins') :
    fanins.mergeSort le = fanins'.mergeSort le := by
  have hperm : (fanins.mergeSort le).Perm (fanins'.mergeSort le) :=
    (List.mergeSort_perm _ _).trans (h.trans (List.mergeSort_perm _ _).symm)
  exact hperm.eq_of_pairwise (fun _ _ _ _ => le_antisymm)
    (List.pairwise_mergeSort le_trans le_total _) (List.pairwise_mergeSort le_trans le_total _)

end Fanin

namespace Merging

variable {n n' : Netlist} {sub : Substitution}

/-- The fanins are the same, up to their order where the kind does not mind. -/
theorem Signature.of_eq_of_perm {kind : Kind} {fanins fanins' : List Fanin} (w : Width)
    (h : fanins = fanins' ∨ kind.isCommutative = true ∧ fanins.Perm fanins') :
    Signature.of kind fanins w = Signature.of kind fanins' w := by
  rcases h with rfl | ⟨hkind, hperm⟩
  · rfl
  · rw [Signature.of, Signature.of, if_pos hkind, if_pos hkind, Fanin.mergeSort_eq_of_perm hperm]

/-! ## Chains -/

/-- A chain of the substitution, followed for as long as it goes on, leads from one fanin to
another. -/
inductive Leads (sub : Substitution) : Fanin → Fanin → Prop
  | stay {f : Fanin} (hend : sub.find? f.signal = none) : Leads sub f f
  | step {f next g : Fanin} (hnext : sub.find? f.signal = some next)
      (hrest : Leads sub ⟨next.signal, f.inverted ^^ next.inverted⟩ g) : Leads sub f g

end Merging

/-- Every chain of a short substitution has an end, and it is found. -/
theorem Netlist.Short.leads {ports : List String} {sub : Substitution} (h : Short ports sub)
    (f : Fanin) : Merging.Leads sub f (Merging.resolve sub f) := by
  rw [Merging.resolve, h.follow (Nat.le_refl _)]
  obtain ⟨s, i⟩ := f
  cases hs : sub.find? s with
  | none =>
    rw [retarget, target_of_none hs]
    exact .stay hs
  | some f =>
    refine .step hs ?_
    rw [h.plain hs, Bool.xor_false]
    cases hf : sub.find? f.signal with
    | none =>
      rw [retarget, target_of_some hs hf]
      exact .stay hf
    | some g =>
      refine .step hf ?_
      rw [h.plain hf, Bool.xor_false, retarget, target_of_two hs hf]
      have hend := h.find?_port (h.second hs hf)
      exact .stay hend

namespace Merging

variable {n n' : Netlist} {order before after : List NodeId}

/-- A sweep of the netlist that has visited these nodes. -/
def Sweep.along (n : Netlist) (visited : List NodeId) : Sweep :=
  (Sweep.visitAll visited (.start n)).1

theorem Sweep.sound_along (hl : n.Legal) (hc : n.Coherent) (horder : n.topoOrder = .ok order)
    (hsplit : order = before ++ after) : (Sweep.along n before).Sound n order before after := by
  have hstart : (Sweep.start n).Sound n order [] (before ++ after) :=
    hsplit ▸ .start hc hl horder
  obtain ⟨s, hvisits, hsound, -⟩ := hstart.run (P := fun _ _ => True) hl
    (hc.nodup_of_topoOrder horder) (fun _ _ _ _ _ _ _ _ _ => trivial) hsplit trivial
  rw [Sweep.along, hvisits]
  exact hsound

/-- Wherever a sweep of the netlist stands, the chains that it follows lead to what it finds. -/
def ChainsEnd (n : Netlist) : Prop :=
  ∀ ⦃order before after⦄, n.topoOrder = .ok order → order = before ++ after →
    ∀ f, Leads (Sweep.along n before).substitution f (resolve (Sweep.along n before).substitution f)

theorem chainsEnd_of_legal (hl : n.Legal) (hc : n.Coherent) : ChainsEnd n :=
  fun _ _ _ horder hsplit f => (Sweep.sound_along hl hc horder hsplit).reduced.short.leads f

/-! ## The loop -/

/-- Sweeping on for as long as something is merged, with no bound on the sweeps nor on the chains
that they follow, ends with a netlist and a number of merged nodes. -/
inductive SweepsOn : Netlist → Netlist → Nat → Prop
  | last {n n' : Netlist} (hchains : ChainsEnd n) (hsweep : sweep n = (n', .ok 0)) :
      SweepsOn n n' 0
  | more {n m n' : Netlist} {merged rest : Nat} (hchains : ChainsEnd n)
      (hsweep : sweep n = (m, .ok merged)) (hsome : merged ≠ 0) (hrest : SweepsOn m n' rest) :
      SweepsOn n n' (merged + rest)

/-- The loop ends. -/
theorem sweepsOn_of_legal (hl : n.Legal) (hc : n.Coherent) (count : Nat) :
    ∃ n' merged, SweepsOn n n' merged ∧ n.mergeSweeps count = (n', .ok (count + merged)) := by
  induction n, count, hl, hc using mergeSweeps_induct_legal with
  | last n count hl hc hlast =>
    exact ⟨n, 0, .last (chainsEnd_of_legal hl hc) hlast, mergeSweeps_of_none hlast count⟩
  | more n count m merged hl hc hmore hsome hswept ih =>
    obtain ⟨n', rest, hon, hsweeps⟩ := ih
    refine ⟨n', merged + rest, .more (chainsEnd_of_legal hl hc) hmore hsome hon, ?_⟩
    rw [mergeSweeps_of_some hmore hsome, hsweeps, Nat.add_assoc]

end Merging

namespace Netlist

variable {n : Netlist}

/-- Merging equal nodes ends and is complete: the loop that sweeps for as long as something is
merged comes to an end, with the result of `mergeEqual`. No two nodes that can be merged are left
with one kind, one output width and the same fanins (in any order where the kind does not mind);
there are no more nodes than before; and merging once more finds nothing and changes nothing. -/
theorem mergeEqual_complete (hc : n.Coherent) (hv : n.validate = .ok ()) :
    ∃ n' merged, Merging.SweepsOn n n' merged ∧ n.mergeEqual = (n', .ok merged) ∧
      (∀ a ∈ n'.nodes, ∀ b ∈ n'.nodes,
        Merging.isMergeable n' a = true → Merging.isMergeable n' b = true → a.kind = b.kind →
        (a.fanins = b.fanins ∨ a.kind.isCommutative = true ∧ a.fanins.Perm b.fanins) →
        n'.width a.output = n'.width b.output → a = b) ∧
      n'.nodeCount ≤ n.nodeCount ∧ n'.mergeEqual = (n', .ok 0) := by
  have hl := hc.legal_of_validate hv
  obtain ⟨n', merged, hon, hsweeps⟩ := Merging.sweepsOn_of_legal hl hc 0
  obtain ⟨-, hend⟩ := Merging.mergeSweeps_settled hl hc 0
  obtain ⟨_, _, hmerge, hswept⟩ := hl.mergeEqual_swept hc
  have hresult : n.mergeEqual = (n', .ok merged) := by
    rw [mergeEqual, hsweeps, Nat.zero_add]
  rw [hresult] at hmerge
  cases hmerge
  rw [hsweeps] at hend
  dsimp only at hend
  have hp := hswept.preserved
  refine ⟨n', merged, hon, hresult, ?_, hp.nodeCount, ?_⟩
  · intro a ha b hb hma hmb hkind hfanins hwidth
    obtain ⟨_, _, hsweep, hsettled⟩ := Merging.sweep_swept hp.legal hp.coherent
    rw [hend] at hsweep
    cases hsweep
    refine (hsettled.settled rfl).2 a ha b hb hma hmb ?_
    rw [← hkind, ← hwidth]
    exact Merging.Signature.of_eq_of_perm _ hfanins
  · rw [mergeEqual, Merging.mergeSweeps_of_none hend]

end Netlist

/-- Of three gates that are alike one stays a gate and one is left as a buffer between outputs. -/
theorem mergeEqual_complete_equalGates :
    EqualGates.netlist.Coherent ∧ EqualGates.netlist.validate = .ok () ∧
      ∃ n', Merging.SweepsOn EqualGates.netlist n' 2 ∧ n'.nodeCount = 4 ∧
        n'.mergeEqual = (n', .ok 0) := by
  obtain ⟨n', merged, hon, hmerge, -, -, hagain⟩ :=
    Netlist.mergeEqual_complete EqualGates.coherent EqualGates.valid
  obtain ⟨hmerged, hcount⟩ := EqualGates.merged
  rw [hmerge] at hmerged hcount
  cases hmerged
  exact ⟨EqualGates.coherent, EqualGates.valid, n', hon, hcount, hagain⟩

end GateSynth
