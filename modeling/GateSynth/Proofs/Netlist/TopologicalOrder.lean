import GateSynth.Netlist.Order
import GateSynth.Proofs.Netlist.Coherence
import Mathlib.Data.List.Perm.Lattice
import Mathlib.Order.WellFounded

/-!
# Topological orders

`topoOrder` places every node once and every driver before its readers
(`perm_of_topoOrder`, `driversFirst_of_topoOrder`). It succeeds exactly on netlists without a loop
(`acyclic_of_topoOrder`, `topoOrder_of_acyclic`), where freedom from loops is stated by a rank that
grows from every driven signal to the outputs of its readers (`Acyclic`). Nodes that are listed with
the drivers first are left in their order (`topoOrder_of_driversFirst`).
-/

namespace GateSynth.Netlist

variable {n : Netlist} {order : List NodeId}

/-- Signals can be ranked so that a node drives a signal above those that it reads from other
nodes. -/
def Acyclic (n : Netlist) : Prop :=
  ∃ rank : String → Nat, ∀ node ∈ n.nodes, ∀ f ∈ node.fanins,
    (n.driver? f.signal).isSome → rank f.signal < rank node.output

/-- The drivers of what a node reads come before it. -/
def DriversFirst (n : Netlist) (order : List NodeId) : Prop :=
  ∀ before id after, order = before ++ id :: after → ∀ node ∈ n.nodes, node.id = id →
    ∀ f ∈ node.fanins, ∀ d, n.driver? f.signal = some d → d ∈ before

/-! ## Placing one node -/

section Placing
variable {left stuck : List Waiting} {id : NodeId} {steps : Nat}

theorem map_id_release (id : NodeId) (left : List Waiting) :
    (release id left).map Waiting.id = (left.map Waiting.id).filter (· != id) := by
  simp only [release, List.map_map, List.filter_map]
  have hp : (fun w : Waiting => decide (w.id ≠ id)) = (· != id) ∘ Waiting.id := by
    funext w
    rw [decide_not, ← beq_eq_decide]
    rfl
  rw [hp]
  rfl

theorem mem_map_id_release {other : NodeId} :
    other ∈ (release id left).map Waiting.id ↔ other ∈ left.map Waiting.id ∧ other ≠ id := by
  rw [map_id_release, List.mem_filter, bne_iff_ne]

theorem nodup_release (h : (left.map Waiting.id).Nodup) :
    ((release id left).map Waiting.id).Nodup := by
  rw [map_id_release]
  exact h.filter _

theorem mem_release {w : Waiting} (hw : w ∈ left) (hid : w.id ≠ id) :
    ⟨w.id, w.drivers.filter (· ≠ id)⟩ ∈ release id left :=
  List.mem_map.2 ⟨w, List.mem_filter.2 ⟨hw, by simpa using hid⟩, rfl⟩

theorem of_mem_release {w : Waiting} (hw : w ∈ release id left) :
    ∃ v ∈ left, v.id = w.id ∧ w.id ≠ id ∧ w.drivers = v.drivers.filter (· ≠ id) := by
  obtain ⟨v, hv, rfl⟩ := List.mem_map.1 hw
  obtain ⟨hv, hne⟩ := List.mem_filter.1 hv
  exact ⟨v, hv, rfl, by simpa using hne, rfl⟩

theorem length_release_lt {w : Waiting} (hw : w ∈ left) :
    (release w.id left).length < left.length := by
  simp only [release, List.length_map]
  exact List.length_filter_lt_length_iff_exists.2 ⟨w, hw, by simp⟩

theorem pairwise_release (h : left.Pairwise fun a b => a.id.index < b.id.index) (id : NodeId) :
    (release id left).Pairwise fun a b => a.id.index < b.id.index := by
  rw [release, List.pairwise_map]
  exact h.filter _

theorem nodup_of_pairwise (h : left.Pairwise fun a b => a.id.index < b.id.index) :
    (left.map Waiting.id).Nodup := by
  rw [List.Nodup, List.pairwise_map]
  exact h.imp fun hlt hab => Nat.ne_of_lt hlt (congrArg NodeId.index hab)

/-- Where the nodes are sorted, the first that passes a test is the lowest. -/
theorem index_le_of_find? (hsorted : left.Pairwise fun a b => a.id.index < b.id.index)
    {test : Waiting → Bool} {w v : Waiting} (hw : left.find? test = some w) (hv : v ∈ left)
    (htest : test v = true) : w.id.index ≤ v.id.index := by
  obtain ⟨-, before, after, hsplit, hbefore⟩ := List.find?_eq_some_iff_append.1 hw
  rw [hsplit] at hv hsorted
  rcases List.mem_append.1 hv with hv | hv
  · simpa [htest] using hbefore v hv
  · rcases List.mem_cons.1 hv with rfl | hv
    · exact Nat.le_refl _
    · exact Nat.le_of_lt (List.rel_of_pairwise_cons (List.pairwise_append.1 hsorted).2.1 hv)

/-- What a step of the placement does: it places a node that waits for nothing, or there is
none. -/
theorem placeReady_succ (h : placeReady (steps + 1) left = (order, stuck)) :
    (order = [] ∧ stuck = left ∧ ∀ w ∈ left, w.drivers ≠ []) ∨
      ∃ w ∈ left, w.drivers = [] ∧ ∃ rest,
        placeReady steps (release w.id left) = (rest, stuck) ∧ order = w.id :: rest := by
  rw [placeReady] at h
  split at h
  · next hnone =>
    cases h
    exact .inl ⟨rfl, rfl, fun w hw => by simpa using List.find?_eq_none.1 hnone w hw⟩
  · next w hsome =>
    cases h
    exact .inr ⟨w, List.mem_of_find?_eq_some hsome, by simpa using List.find?_some hsome, _, rfl,
      rfl⟩

/-! ## Placing all nodes -/

/-- Every node is placed once or left over. -/
theorem placeReady_perm (hnodup : (left.map Waiting.id).Nodup)
    (h : placeReady steps left = (order, stuck)) :
    (order ++ stuck.map Waiting.id).Perm (left.map Waiting.id) := by
  induction steps generalizing left order with
  | zero =>
    cases h
    exact .refl _
  | succ steps ih =>
    rcases placeReady_succ h with ⟨rfl, rfl, -⟩ | ⟨w, hw, -, rest, hrest, rfl⟩
    · exact .refl _
    · have hperm := ih (nodup_release hnodup) hrest
      rw [map_id_release, ← hnodup.erase_eq_filter] at hperm
      exact (hperm.cons w.id).trans (List.perm_cons_erase (List.mem_map_of_mem hw)).symm

/-- Whatever a node waits for is placed before it. -/
theorem placeReady_drivers (hnodup : (left.map Waiting.id).Nodup)
    (h : placeReady steps left = (order, stuck)) {before after : List NodeId}
    (horder : order = before ++ id :: after) {w : Waiting} (hw : w ∈ left) (hid : w.id = id) :
    ∀ d ∈ w.drivers, d ∈ before := by
  induction steps generalizing left order before w with
  | zero =>
    cases h
    cases before <;> cases horder
  | succ steps ih =>
    rcases placeReady_succ h with ⟨rfl, -, -⟩ | ⟨v, hv, hnone, rest, hrest, rfl⟩
    · cases before <;> cases horder
    · cases before with
      | nil =>
        injection horder with hvid hrest'
        have : w = v := List.inj_on_of_nodup_map hnodup hw hv (hid.trans hvid.symm)
        subst this
        simp [hnone]
      | cons b before =>
        injection horder with hb horder
        subst hb
        intro d hd
        by_cases hdv : d = v.id
        · exact hdv ▸ .head _
        · have hne : w.id ≠ v.id := by
            intro he
            have : w = v := List.inj_on_of_nodup_map hnodup hw hv he
            subst this
            simp [hnone] at hd
          exact .tail _ (ih (nodup_release hnodup) hrest horder (mem_release hw hne) hid d
            (List.mem_filter.2 ⟨hd, by simpa using hdv⟩))

/-- If the waiting can be ranked, no node is left over. -/
theorem placeReady_complete (rank : NodeId → Nat) (hsteps : left.length ≤ steps)
    (hrank : ∀ w ∈ left, ∀ d ∈ w.drivers, d ∈ left.map Waiting.id ∧ rank d < rank w.id)
    (h : placeReady steps left = (order, stuck)) : stuck = [] := by
  induction steps generalizing left order with
  | zero =>
    cases h
    exact List.length_eq_zero_iff.1 (Nat.le_zero.1 hsteps)
  | succ steps ih =>
    rcases placeReady_succ h with ⟨-, rfl, hall⟩ | ⟨v, hv, -, rest, hrest, -⟩
    · by_contra hne
      -- A node of least rank waits for nothing.
      obtain ⟨w, hw, hmin⟩ := (measure fun w : Waiting => rank w.id).wf.has_min
        { w | w ∈ stuck } (List.exists_mem_of_ne_nil _ hne)
      obtain ⟨d, hd⟩ := List.exists_mem_of_ne_nil _ (hall w hw)
      obtain ⟨hmem, hlt⟩ := hrank w hw d hd
      obtain ⟨v, hv, rfl⟩ := List.mem_map.1 hmem
      exact hmin v hv hlt
    · refine ih ?_ ?_ hrest
      · have hlen := length_release_lt hv
        omega
      · intro w hw d hd
        obtain ⟨u, hu, huid, -, hdrivers⟩ := of_mem_release hw
        rw [hdrivers] at hd
        obtain ⟨hd, hne⟩ := List.mem_filter.1 hd
        obtain ⟨hmem, hlt⟩ := hrank u hu d hd
        rw [map_id_release]
        exact ⟨List.mem_filter.2 ⟨hmem, by simpa using hne⟩, huid ▸ hlt⟩

/-- If the waiting are listed behind what they wait for, they are placed in this order. -/
theorem placeReady_inOrder (hnodup : (left.map Waiting.id).Nodup) (hsteps : left.length ≤ steps)
    (hfirst : ∀ before w after, left = before ++ w :: after →
      ∀ d ∈ w.drivers, d ∈ before.map Waiting.id) :
    placeReady steps left = (left.map Waiting.id, []) := by
  induction steps generalizing left with
  | zero =>
    rw [List.length_eq_zero_iff.1 (Nat.le_zero.1 hsteps)]
    rfl
  | succ steps ih =>
    cases left with
    | nil => rfl
    | cons v rest =>
      rw [List.map_cons, List.nodup_cons] at hnodup
      have hready : v.drivers = [] :=
        List.eq_nil_iff_forall_not_mem.2 fun d hd => List.not_mem_nil (hfirst [] v rest rfl d hd)
      have hrelease : release v.id (v :: rest) =
          rest.map fun w => ⟨w.id, w.drivers.filter (· ≠ v.id)⟩ := by
        rw [release, List.filter_cons_of_neg (by simp), List.filter_eq_self.2]
        intro w hw
        have hne : w.id ≠ v.id := fun hid => hnodup.1 (hid ▸ List.mem_map_of_mem hw)
        simpa using hne
      have hids : (release v.id (v :: rest)).map Waiting.id = rest.map Waiting.id := by
        rw [hrelease, List.map_map]
        rfl
      have hplace : placeReady steps (release v.id (v :: rest)) = (rest.map Waiting.id, []) := by
        rw [← hids]
        refine ih (hids ▸ hnodup.2) ?_ fun before w after hsplit d hd => ?_
        · rw [hrelease, List.length_map]
          exact Nat.le_of_succ_le_succ hsteps
        · rw [hrelease] at hsplit
          obtain ⟨front, back, rfl, rfl, hback⟩ := List.map_eq_append_iff.1 hsplit
          obtain ⟨u, tail, rfl, rfl, rfl⟩ := List.map_eq_cons_iff.1 hback
          obtain ⟨hd, hne⟩ := List.mem_filter.1 hd
          rw [List.map_map]
          refine (List.mem_cons.1 (hfirst (v :: front) u tail rfl d hd)).resolve_left ?_
          simpa using hne
      rw [placeReady, List.find?_cons_of_pos (by simp [hready])]
      simp only [hplace, List.map_cons]

end Placing

/-! ## Orders of netlists -/

theorem map_id_waiting (n : Netlist) : n.waiting.map Waiting.id = n.nodeIds := by
  simp only [waiting, nodeIds, List.map_map]
  rfl

theorem Coherent.pairwise_waiting (hc : n.Coherent) :
    n.waiting.Pairwise fun a b => a.id.index < b.id.index := by
  rw [waiting, List.pairwise_map]
  exact hc.pairwise_index

theorem Coherent.nodup_waiting (hc : n.Coherent) : (n.waiting.map Waiting.id).Nodup :=
  nodup_of_pairwise hc.pairwise_waiting

section
variable {stuck : List Waiting} (h : placeReady n.nodeCount n.waiting = (order, stuck))
include h

/-- Every node is placed once or left over. -/
theorem Coherent.perm_of_placeReady (hc : n.Coherent) :
    (order ++ stuck.map Waiting.id).Perm n.nodeIds := by
  rw [← map_id_waiting]
  exact placeReady_perm hc.nodup_waiting h

/-- Drivers come before their readers, also if nodes are left over. -/
theorem Coherent.driversFirst_of_placeReady (hc : n.Coherent) : n.DriversFirst order := by
  intro before id after horder node hnode hid f hf d hd
  have hw : ⟨node.id, node.faninSignals.filterMap n.driver?⟩ ∈ n.waiting :=
    List.mem_map.2 ⟨node, hnode, rfl⟩
  refine placeReady_drivers hc.nodup_waiting h horder hw hid d ?_
  exact List.mem_filterMap.2 ⟨f.signal, List.mem_map_of_mem hf, hd⟩

end

theorem topoOrder_eq_ok (h : n.topoOrder = .ok order) :
    placeReady n.nodeCount n.waiting = (order, []) := by
  rw [topoOrder] at h
  split at h
  · next heq =>
    cases h
    exact heq
  · cases h

/-- Every node comes exactly once. -/
theorem Coherent.perm_of_topoOrder (hc : n.Coherent) (h : n.topoOrder = .ok order) :
    order.Perm n.nodeIds := by
  have hperm := hc.perm_of_placeReady (topoOrder_eq_ok h)
  rwa [List.map_nil, List.append_nil] at hperm

theorem Coherent.nodup_of_topoOrder (hc : n.Coherent) (h : n.topoOrder = .ok order) :
    order.Nodup :=
  (hc.perm_of_topoOrder h).nodup_iff.2 hc.nodeIds_nodup

/-- Drivers come before their readers. -/
theorem Coherent.driversFirst_of_topoOrder (hc : n.Coherent) (h : n.topoOrder = .ok order) :
    n.DriversFirst order := hc.driversFirst_of_placeReady (topoOrder_eq_ok h)

/-- Nodes that are listed with the drivers first are placed in the order of the list. -/
theorem Coherent.topoOrder_of_driversFirst (hc : n.Coherent) (h : n.DriversFirst n.nodeIds) :
    n.topoOrder = .ok n.nodeIds := by
  have hplace : placeReady n.nodeCount n.waiting = (n.nodeIds, []) := by
    rw [← map_id_waiting]
    refine placeReady_inOrder hc.nodup_waiting (by simp [waiting, nodeCount])
      fun before w after hsplit d hd => ?_
    have hmem : w ∈ n.waiting := hsplit ▸ List.mem_append_right _ (.head _)
    obtain ⟨node, hnode, rfl⟩ := List.mem_map.1 hmem
    obtain ⟨signal, hsignal, hd⟩ := List.mem_filterMap.1 hd
    obtain ⟨f, hf, rfl⟩ := List.mem_map.1 hsignal
    refine h _ node.id (after.map Waiting.id) ?_ node hnode rfl f hf d hd
    rw [← map_id_waiting, hsplit, List.map_append, List.map_cons]
  rw [topoOrder, hplace]

/-- A netlist whose nodes can be ordered has no loop: the places of the drivers are ranks. -/
theorem Coherent.acyclic_of_topoOrder (hc : n.Coherent) (hout : (n.nodes.map Node.output).Nodup)
    (h : n.topoOrder = .ok order) : n.Acyclic := by
  refine ⟨fun signal => ((n.driver? signal).map fun d => order.idxOf d).getD 0, ?_⟩
  intro node hnode f hf hdriven
  obtain ⟨d, hd⟩ := Option.isSome_iff_exists.1 hdriven
  have hmem : node.id ∈ order :=
    (hc.perm_of_topoOrder h).mem_iff.2 (List.mem_map_of_mem hnode)
  obtain ⟨before, after, horder, hnot⟩ := List.eq_append_cons_of_mem hmem
  have hbefore := hc.driversFirst_of_topoOrder h _ _ _ horder node hnode rfl f hf d hd
  have hnode' : order.idxOf node.id = before.length := by
    rw [horder, List.idxOf_append_of_notMem hnot, List.idxOf_cons_self, Nat.add_zero]
  have hdriver : order.idxOf d < before.length := by
    rw [horder, List.idxOf_append_of_mem hbefore]
    exact List.idxOf_lt_length_of_mem hbefore
  simp only [hd, driver?_of_mem hout hnode, Option.map_some, Option.getD_some, hnode']
  exact hdriver

/-- A netlist without a loop can be ordered. -/
theorem Coherent.topoOrder_of_acyclic (hc : n.Coherent) (h : n.Acyclic) :
    ∃ order, n.topoOrder = .ok order := by
  obtain ⟨rank, hrank⟩ := h
  obtain ⟨order, stuck, hplace⟩ : ∃ order stuck,
      placeReady n.nodeCount n.waiting = (order, stuck) := ⟨_, _, rfl⟩
  have hdone : stuck = [] := by
    refine placeReady_complete (fun id => ((n.node? id).map fun node => rank node.output).getD 0)
      (by simp [waiting, nodeCount]) ?_ hplace
    intro w hw d hd
    obtain ⟨node, hnode, rfl⟩ := List.mem_map.1 hw
    obtain ⟨signal, hsignal, hd⟩ := List.mem_filterMap.1 hd
    obtain ⟨f, hf, rfl⟩ := List.mem_map.1 hsignal
    obtain ⟨driver, hdriver, hout, rfl⟩ := driver?_eq_some hd
    have hlt := hrank node hnode f hf (by rw [hd]; rfl)
    rw [map_id_waiting]
    refine ⟨List.mem_map_of_mem hdriver, ?_⟩
    simp only [hc.node?_of_mem hdriver, hc.node?_of_mem hnode, Option.map_some, Option.getD_some]
    rw [hout]
    exact hlt
  subst hdone
  exact ⟨order, by rw [topoOrder, hplace]⟩

end GateSynth.Netlist
