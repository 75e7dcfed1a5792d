import GateSynth.Optimize.Merging
import GateSynth.Proofs.Netlist.Coherence

/-!
# Merging ends

The sweeps of `mergeEqual` end on every netlist, whatever it looks like. A merge takes a node out, or
it makes a buffer between two outputs of a node that is none, and nothing makes another node of such
a buffer again, so every merge takes something off the `load` (`load_sweep`). What holds of all
sweeps can so be shown from the last one back to the first (`mergeSweeps_induct`).
-/

namespace GateSynth.Merging

open Netlist

variable {n n' : Netlist} {id : NodeId} {node : Node} {s s' : Sweep}

/-! ## Loads -/

/-- The number of nodes, where buffers between two outputs count once and all others twice. -/
def load (n : Netlist) : Nat := n.nodeCount + n.nodes.countP fun node => !isPortBuffer n node

theorem load_congr (hnodes : n'.nodes = n.nodes) (houtputs : n'.outputs = n.outputs) :
    load n' = load n := by
  simp only [load, nodeCount, hnodes, isPortBuffer, isOutput, houtputs]

theorem load_dropNode (h : n.node? id = some node) (signal : String) :
    load (dropNode n id signal) + 1 ≤ load n := by
  obtain ⟨before, after, hnodes, herase, -⟩ := exists_split h
  have hsame : load (dropNode n id signal) = load (n.eraseNode id) :=
    load_congr (nodes_retireSignal _ _) (outputs_retireSignal _ _)
  have hbuffer : isPortBuffer (n.eraseNode id) = isPortBuffer n := rfl
  rw [hsame]
  simp only [load, nodeCount, hbuffer, herase, hnodes, List.length_append,
    List.length_cons, List.countP_append, List.countP_cons]
  omega

theorem load_portBuffer (h : n.node? id = some node) (hmergeable : isMergeable n node = true)
    (hport : n.isOutput node.output = true) {kept : String} (hkept : n.isOutput kept = true) :
    load (n.updateNode id (.op .buf) [.plain kept]) + 1 ≤ load n := by
  obtain ⟨before, after, hnodes, -, hupdate⟩ := exists_split h
  have hsame : isPortBuffer (n.updateNode id (.op .buf) [.plain kept]) = isPortBuffer n := rfl
  have hold : isPortBuffer n node = false := by
    unfold isMergeable at hmergeable
    split at hmergeable
    · cases hmergeable
    · simpa using hmergeable
  have hnew : isPortBuffer n { node with kind := .op .buf, fanins := [.plain kept] } = true := by
    simp [isPortBuffer, hport, hkept, Fanin.plain]
  simp only [load, nodeCount, hsame, hupdate, hnodes, List.length_append,
    List.length_cons, List.countP_append, List.countP_cons, hold, hnew, Bool.not_false,
    Bool.not_true, if_true, Bool.false_eq_true, if_false]
  omega

/-- Fanins that are outputs are not redirected, so a buffer between two outputs stays one. -/
theorem isPortBuffer_redirect {sub : Substitution} (hinner : ∀ o ∈ n.outputs, sub.find? o = none)
    (h : isPortBuffer n node = true) :
    isPortBuffer n { node with fanins := node.fanins.map (redirectFanin sub) } = true := by
  simp only [isPortBuffer, Bool.and_eq_true] at h ⊢
  refine ⟨h.1, ?_⟩
  have hfanin := h.2
  split at hfanin
  · next f hf =>
    rw [Bool.and_eq_true] at hfanin
    have hstays : redirectFanin sub f = f := by
      rw [redirectFanin, follow,
        hinner f.signal (List.contains_iff_mem.1 hfanin.2)]
    rw [hf, List.map_singleton, hstays]
    exact Bool.and_eq_true_iff.2 hfanin
  · cases hfanin

theorem load_redirect {sub : Substitution} (hinner : ∀ o ∈ n.outputs, sub.find? o = none) :
    load (n.redirect sub).1 ≤ load n := by
  have hsame : isPortBuffer (n.redirect sub).1 = isPortBuffer n := rfl
  simp only [load, nodeCount, nodes_redirect, List.length_map, hsame,
    List.countP_map]
  refine Nat.add_le_add_left (List.countP_mono_left fun node _ hnode => ?_) _
  rw [Function.comp_apply, Bool.not_eq_true'] at hnode
  rw [Bool.not_eq_true']
  exact Bool.eq_false_iff.2 fun hold =>
    Bool.eq_false_iff.1 hnode (isPortBuffer_redirect hinner hold)

/-- A node that is there can be made a buffer. -/
theorem replaceNode_buf (h : n.node? id = some node) (f : Fanin) :
    n.replaceNode id (.op .buf) [f] = .ok (n.updateNode id (.op .buf) [f]) := by
  refine replaceNode_eq h fun k hk => ?_
  cases hk
  rfl

/-! ## Sweeps -/

/-- What holds on the way of a sweep: outputs are left alone, and every merge takes something off
the load. -/
structure Sweep.Lightens (n : Netlist) (s : Sweep) : Prop where
  outputs : s.netlist.outputs = n.outputs
  inner : ∀ o ∈ n.outputs, s.substitution.find? o = none
  load : load s.netlist + s.merged ≤ load n

theorem Sweep.Lightens.insert {s : Sweep} (h : s.Lightens n) {signal goal : String}
    (hinner : s.netlist.isOutput signal = false) :
    ∀ o ∈ n.outputs, (s.substitution.insert signal (.plain goal)).find? o = none := by
  intro o ho
  rw [Table.find?_insert]
  split
  · next heq =>
    rw [← h.outputs, heq, ← List.contains_iff_mem] at ho
    exact absurd ho (Bool.eq_false_iff.1 hinner)
  · exact h.inner o ho

theorem Sweep.Lightens.merge {s s' : Sweep} (h : s.Lightens n) {signature : Signature}
    {rep : NodeId} (hnode : s.netlist.node? id = some node)
    (hmergeable : isMergeable s.netlist node = true)
    (hmerge : s.merge signature rep id node = .ok s') : s'.Lightens n := by
  have hload := h.load
  unfold Sweep.merge at hmerge
  split at hmerge
  · cases hmerge
  · next kept hkept =>
    obtain ⟨found, hrep, rfl⟩ := Option.map_eq_some_iff.1 hkept
    split at hmerge
    · next hinner =>
      cases hmerge
      have hdrop := load_dropNode hnode node.output
      exact ⟨(outputs_retireSignal _ _).trans h.outputs, h.insert (by simpa using hinner),
        by dsimp only; omega⟩
    · next hport =>
      split at hmerge
      · next hinner =>
        cases hmerge
        have hdrop := load_dropNode hrep found.output
        exact ⟨(outputs_retireSignal _ _).trans h.outputs,
          h.insert (by simpa using hinner), by dsimp only; omega⟩
      · next hports =>
        rw [replaceNode_buf hnode] at hmerge
        cases hmerge
        have hbuffer := load_portBuffer hnode hmergeable (by simpa using hport)
          (by simpa using hports)
        exact ⟨h.outputs, h.inner, by dsimp only; omega⟩

theorem Sweep.Lightens.visit {s s' : Sweep} (h : s.Lightens n) (hvisit : s.visit id = .ok s') :
    s'.Lightens n := by
  unfold Sweep.visit at hvisit
  split at hvisit
  · cases hvisit
    exact h
  · next node hnode =>
    dsimp only at hvisit
    split at hvisit
    · next hmergeable =>
      split at hvisit
      · exact h.merge hnode hmergeable hvisit
      · cases hvisit
        exact ⟨h.outputs, h.inner, h.load⟩
    · cases hvisit
      exact h

theorem Sweep.Lightens.visitAll {s s' : Sweep} (h : s.Lightens n) {order : List NodeId}
    (hvisits : s.visitAll order = (s', none)) : s'.Lightens n := by
  induction order generalizing s with
  | nil =>
    cases hvisits
    exact h
  | cons id rest ih =>
    rw [Sweep.visitAll] at hvisits
    split at hvisits
    · next hvisit => exact ih (h.visit hvisit) hvisits
    · cases hvisits

/-- A sweep takes as much off the load as it merges. -/
theorem load_sweep {merged : Nat} (h : sweep n = (n', .ok merged)) : load n' + merged ≤ load n := by
  unfold sweep at h
  split at h
  · cases h
  · next order _ =>
    split at h
    · cases h
    · next s hvisits =>
      cases h
      have hstart : (Sweep.start n).Lightens n := ⟨rfl, fun _ _ => rfl, Nat.le_refl _⟩
      have hend := hstart.visitAll hvisits
      have hredirect := load_redirect (hend.outputs ▸ hend.inner)
      have hload := hend.load
      omega

/-! ## The loop -/

theorem mergeSweeps_of_error {e : NetlistError} (h : sweep n = (n', .error e)) (total : Nat) :
    n.mergeSweeps total = (n', .error e) := by
  rw [Netlist.mergeSweeps, h]

theorem mergeSweeps_of_none (h : sweep n = (n', .ok 0)) (total : Nat) :
    n.mergeSweeps total = (n', .ok total) := by
  rw [Netlist.mergeSweeps, h]
  rfl

theorem mergeSweeps_of_some {merged : Nat} (h : sweep n = (n', .ok merged)) (hsome : merged ≠ 0)
    (total : Nat) : n.mergeSweeps total = n'.mergeSweeps (total + merged) := by
  rw [Netlist.mergeSweeps, h]
  exact if_neg hsome

/-- The loop ends with a sweep that fails or with one that merges nothing, and there are sweeps
before it that merge something. -/
@[elab_as_elim]
theorem mergeSweeps_induct {motive : Netlist → Nat → Prop}
    (fail : ∀ n total n' e, sweep n = (n', .error e) → motive n total)
    (last : ∀ n total n', sweep n = (n', .ok 0) → motive n total)
    (more : ∀ n total n' merged, sweep n = (n', .ok merged) → merged ≠ 0 →
      motive n' (total + merged) → motive n total) (n : Netlist) (total : Nat) :
    motive n total := by
  induction hload : load n using Nat.strongRecOn generalizing n total with
  | _ size ih =>
    obtain ⟨⟨n', answer⟩, hsweep⟩ : ∃ swept, sweep n = swept := ⟨_, rfl⟩
    cases answer with
    | error e => exact fail n total n' e hsweep
    | ok merged =>
      by_cases hnone : merged = 0
      · exact last n total n' (hnone ▸ hsweep)
      · have hless := load_sweep hsweep
        exact more n total n' merged hsweep hnone (ih (load n') (by omega) n' _ rfl)

end GateSynth.Merging
