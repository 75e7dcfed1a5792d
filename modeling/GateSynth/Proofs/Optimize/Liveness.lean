import GateSynth.Optimize.Liveness
import GateSynth.Proofs.Optimize.Weights

/-!
# Live nodes stay

The walk from the outputs ends with nothing left on its worklist, so what it has reached is closed
under drivers (`reach_closed`): every step takes an entry off the worklist, and the fanins of a node
are put on it once. Dropping all other nodes therefore takes away nothing that is read
(`dropDead_preserved`), and each of them makes the netlist lighter (`dropDead_cost`).
-/

namespace GateSynth

open Netlist

namespace Liveness

variable {n n' : Netlist} {steps : Nat} {work seen : List NodeId}

/-- The drivers of what a node reads. -/
def driversOf (n : Netlist) (id : NodeId) : List NodeId :=
  match n.node? id with
  | some node => node.faninSignals.filterMap n.driver?
  | none => []

/-- The number of fanins of the nodes that are not seen. -/
def unseen (n : Netlist) (seen : List NodeId) : Nat :=
  total ((n.nodes.filter fun node => node.id ∉ seen).map fun node => node.fanins.length)

theorem reach_cons {id : NodeId} (hid : id ∉ seen) :
    reach n (steps + 1) (id :: work) seen =
      reach n steps (driversOf n id ++ work) (seen ++ [id]) := by
  rw [reach, if_neg hid]
  rfl

/-- Seeing a node frees the steps that its drivers take. -/
theorem unseen_step (hc : n.Coherent) {id : NodeId} (hid : id ∉ seen) :
    (driversOf n id).length + unseen n (seen ++ [id]) ≤ unseen n seen := by
  have hfilter : (n.nodes.filter fun node => node.id ∉ seen ++ [id]) =
      (n.nodes.filter fun node => node.id ∉ seen).filter fun node => node.id ≠ id := by
    rw [List.filter_filter]
    refine List.filter_congr fun node _ => ?_
    simp [not_or, and_comm]
  rw [driversOf, unseen, hfilter, unseen]
  cases hnode : n.node? id with
  | none =>
    rw [List.length_nil, Nat.zero_add]
    exact total_filter_le _ _ _
  | some node =>
    obtain ⟨hm, rfl⟩ := hc.node?_eq_some_iff.1 hnode
    have hunseen : node ∈ n.nodes.filter fun m => m.id ∉ seen :=
      List.mem_filter.2 ⟨hm, decide_eq_true hid⟩
    have hle := total_filter_add_le (f := fun node => node.fanins.length)
      (p := fun m => m.id ≠ node.id) (by simp) hunseen
    have hlen := List.length_filterMap_le n.driver? node.faninSignals
    rw [Node.faninSignals, List.length_map] at hlen
    simp only [Node.faninSignals]
    omega

/-- What the walk has reached holds the worklist, what was seen before, and all drivers. -/
theorem reach_closed (hc : n.Coherent) (hsteps : work.length + unseen n seen < steps)
    (hseen : ∀ id ∈ seen, ∀ d ∈ driversOf n id, d ∈ seen ∨ d ∈ work) :
    (∀ id ∈ reach n steps work seen, ∀ d ∈ driversOf n id, d ∈ reach n steps work seen) ∧
      ∀ id, id ∈ seen ∨ id ∈ work → id ∈ reach n steps work seen := by
  induction steps generalizing work seen with
  | zero => omega
  | succ steps ih =>
    cases work with
    | nil =>
      simp only [reach]
      simpa using hseen
    | cons id work =>
      by_cases hid : id ∈ seen
      · rw [reach, if_pos hid]
        simp only [List.length_cons] at hsteps
        refine (ih (by omega) fun i hi d hd => ?_).imp_right fun h i hi => h i ?_
        · rcases hseen i hi d hd with hs | hw
          · exact .inl hs
          · rcases List.mem_cons.1 hw with rfl | hw
            · exact .inl hid
            · exact .inr hw
        · rcases hi with hs | hw
          · exact .inl hs
          · rcases List.mem_cons.1 hw with rfl | hw
            · exact .inl hid
            · exact .inr hw
      · rw [reach_cons hid]
        have hstep := unseen_step hc hid
        simp only [List.length_cons] at hsteps
        refine (ih (by simp only [List.length_append]; omega) fun i hi d hd => ?_).imp_right
          fun h i hi => h i ?_
        · rcases List.mem_append.1 hi with hs | hi
          · rcases hseen i hs d hd with hs | hw
            · exact .inl (List.mem_append_left _ hs)
            · rcases List.mem_cons.1 hw with rfl | hw
              · exact .inl (List.mem_append_right _ (.head _))
              · exact .inr (List.mem_append_right _ hw)
          · rw [List.mem_singleton.1 hi] at hd
            exact .inr (List.mem_append_left _ hd)
        · rcases hi with hs | hw
          · exact .inl (List.mem_append_left _ hs)
          · rcases List.mem_cons.1 hw with rfl | hw
            · exact .inl (List.mem_append_right _ (.head _))
            · exact .inr (List.mem_append_right _ hw)

/-! ## The live nodes -/

/-- What is reached from the outputs. -/
def reached (n : Netlist) : List NodeId :=
  let roots := n.outputs.filterMap n.driver?
  reach n (roots.length + faninCount n + 1) roots []

theorem mem_liveNodes {id : NodeId} : id ∈ n.liveNodes ↔ id ∈ n.nodeIds ∧ id ∈ reached n := by
  rw [liveNodes, List.mem_filter, decide_eq_true_eq]
  rfl

theorem reached_closed (hc : n.Coherent) :
    (∀ id ∈ reached n, ∀ d ∈ driversOf n id, d ∈ reached n) ∧
      ∀ id ∈ n.outputs.filterMap n.driver?, id ∈ reached n := by
  have hunseen : unseen n [] = faninCount n := by simp [unseen, faninCount]
  obtain ⟨hdrivers, hroots⟩ := reach_closed hc (by rw [hunseen]; exact Nat.lt_succ_self _)
    (fun id (hid : id ∈ []) => nomatch hid)
  exact ⟨hdrivers, fun id hid => hroots id (.inr hid)⟩

/-- The drivers of the outputs are live. -/
theorem live_of_output (hc : n.Coherent) {o : String} (ho : o ∈ n.outputs) {d : Node}
    (hd : d ∈ n.nodes) (hdriver : n.driver? o = some d.id) : d.id ∈ n.liveNodes :=
  mem_liveNodes.2 ⟨List.mem_map_of_mem hd,
    (reached_closed hc).2 _ (List.mem_filterMap.2 ⟨o, ho, hdriver⟩)⟩

/-- The drivers of what a live node reads are live. -/
theorem live_of_fanin (hc : n.Coherent) {node : Node} (hm : node ∈ n.nodes)
    (hlive : node.id ∈ n.liveNodes) {f : Fanin} (hf : f ∈ node.fanins) {d : Node}
    (hd : d ∈ n.nodes) (hdriver : n.driver? f.signal = some d.id) : d.id ∈ n.liveNodes := by
  refine mem_liveNodes.2 ⟨List.mem_map_of_mem hd,
    (reached_closed hc).1 _ (mem_liveNodes.1 hlive).2 _ ?_⟩
  rw [driversOf, hc.node?_of_mem hm]
  exact List.mem_filterMap.2 ⟨f.signal, List.mem_map_of_mem hf, hdriver⟩

theorem dropFrom_without {live : List NodeId} {nodes : List Node} {gone : List NodeId}
    (h : Without n n' gone) (hnodes : nodes ⊆ n.nodes) :
    Without n (dropFrom live nodes n')
      (((nodes.filter fun m => m.id ∉ live).map Node.id).reverse ++ gone) := by
  induction nodes generalizing n' gone with
  | nil => exact h
  | cons m rest ih =>
    rw [dropFrom]
    obtain ⟨hm, hrest⟩ := List.cons_subset.1 hnodes
    by_cases hlive : m.id ∈ live
    · rw [if_pos hlive, List.filter_cons_of_neg (by simpa using hlive)]
      exact ih h hrest
    · rw [if_neg hlive, List.filter_cons_of_pos (by simpa using hlive)]
      simpa using ih (h.drop hm) hrest

theorem dropFrom_of_live {live : List NodeId} {nodes : List Node}
    (h : ∀ m ∈ nodes, m.id ∈ live) : dropFrom live nodes n = n := by
  induction nodes with
  | nil => rfl
  | cons m rest ih =>
    rw [dropFrom, if_pos (h m (.head _))]
    exact ih fun x hx => h x (.tail _ hx)

end Liveness

namespace Netlist

variable {n : Netlist}

/-- The pass leaves the live nodes. -/
theorem Coherent.dropDead_without (hc : n.Coherent) :
    Without n n.dropDead.1 ((n.nodes.filter fun m => m.id ∉ n.liveNodes).map Node.id).reverse := by
  have h : Without n (Liveness.dropFrom n.liveNodes n.nodes n) _ :=
    Liveness.dropFrom_without (Without.refl hc) (List.Subset.refl n.nodes)
  rw [List.append_nil] at h
  rw [dropDead]
  dsimp only
  split
  · exact h
  · exact ⟨h.coherent.rebuildWires, h.name, h.inputs, h.outputs, h.nodes, h.width⟩

theorem Coherent.mem_dropDead (hc : n.Coherent) {node : Node} :
    node ∈ n.dropDead.1.nodes ↔ node ∈ n.nodes ∧ node.id ∈ n.liveNodes := by
  rw [hc.dropDead_without.mem_nodes]
  refine and_congr_right fun hm => ?_
  constructor
  · intro hnot
    by_contra hlive
    refine hnot (List.mem_reverse.2 (List.mem_map_of_mem (List.mem_filter.2 ⟨hm, ?_⟩)))
    simpa using hlive
  · intro hlive hgone
    obtain ⟨m, hmem, hid⟩ := List.mem_map.1 (List.mem_reverse.1 hgone)
    rw [← hid] at hlive
    have hdead := (List.mem_filter.1 hmem).2
    simp only [decide_eq_true_eq] at hdead
    exact hdead hlive

theorem dropDead_count (n : Netlist) : n.dropDead.2 = n.nodeCount - n.dropDead.1.nodeCount := by
  rw [dropDead]
  dsimp only
  split <;> rfl

/-- Dropping the dead nodes takes away nothing that is read or put out. -/
theorem Legal.dropDead_preserved (hl : n.Legal) (hc : n.Coherent) : Preserved n n.dropDead.1 := by
  have h := hc.dropDead_without
  have hkept : ∀ d ∈ n.nodes, d.id ∈ n.liveNodes →
      d.id ∉ ((n.nodes.filter fun m => m.id ∉ n.liveNodes).map Node.id).reverse :=
    fun d hd hlive => (h.mem_nodes.1 (hc.mem_dropDead.2 ⟨hd, hlive⟩)).2
  have houtputs : ∀ o ∈ n.outputs, ∀ d ∈ n.nodes, d.output = o →
      d.id ∉ ((n.nodes.filter fun m => m.id ∉ n.liveNodes).map Node.id).reverse := by
    rintro o ho d hd rfl
    exact hkept d hd (Liveness.live_of_output hc ho hd (driver?_of_mem hl.single hd))
  refine ⟨h.coherent, h.legal hl ?_ houtputs, h.name, h.inputs, h.outputs, ?_, h.nodeCount_le⟩
  · intro m hm f hf d hd ho
    obtain ⟨hm, hlive⟩ := hc.mem_dropDead.1 hm
    refine hkept d hd (Liveness.live_of_fanin hc hm hlive hf hd ?_)
    rw [← ho, driver?_of_mem hl.single hd]
  · rintro port (hin | hout)
    · exact h.width port fun m hm _ ho => hl.undriven m hm (ho ▸ hin)
    · exact h.width port fun m hm hgone ho => houtputs port hout m hm ho hgone

/-- Every dead node makes the netlist lighter when it is dropped. -/
theorem Legal.dropDead_cost (hl : n.Legal) (hc : n.Coherent) :
    n.dropDead.1.cost + n.dropDead.2 ≤ n.cost := by
  rw [dropDead_count]
  exact hc.dropDead_without.cost_le hl.single

/-- Where all nodes are live nothing is dropped. -/
theorem dropDead_of_live (h : ∀ m ∈ n.nodes, m.id ∈ n.liveNodes) : n.dropDead = (n, 0) := by
  rw [dropDead, Liveness.dropFrom_of_live h, Nat.sub_self, if_pos rfl]

/-- If there is nothing to drop, nothing changes. -/
theorem Coherent.dropDead_of_count (hc : n.Coherent) (h : n.dropDead.2 = 0) :
    n.dropDead.1 = n := by
  have hwithout := hc.dropDead_without
  have hlength : n.dropDead.1.nodes.length = n.nodes.length := by
    rw [dropDead_count] at h
    have hle := hwithout.nodeCount_le
    simp only [nodeCount] at h hle
    omega
  have hall : n.dropDead.1.nodes = n.nodes := by
    rw [hwithout.nodes] at hlength ⊢
    exact List.filter_sublist.eq_of_length hlength
  have hlive : ∀ m ∈ n.nodes, m.id ∈ n.liveNodes := fun m hm =>
    (hc.mem_dropDead.1 (hall ▸ hm)).2
  rw [dropDead_of_live hlive]

theorem Legal.dropDead_locked (hl : n.Legal) (hc : n.Coherent) (h : n.Locked) :
    n.dropDead.1.Locked := by
  have hpreserved := hl.dropDead_preserved hc
  refine h.imp fun value w port hport => hport.of_nodes hpreserved.outputs
    (fun o ho => hpreserved.width o (.inr ho)) fun m hm hout _ => ?_
  exact hc.mem_dropDead.2 ⟨hm, Liveness.live_of_output hc hout hm (driver?_of_mem hl.single hm)⟩

end Netlist

end GateSynth
