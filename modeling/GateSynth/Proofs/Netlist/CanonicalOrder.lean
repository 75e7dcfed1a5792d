import GateSynth.Proofs.Netlist.CountedOrder
import Mathlib.Data.List.Lex

/-!
# The canonical order

There are many orders of the nodes of a netlist in which the drivers come before their readers
(`Orders`). If there is one at all, then `topoOrder` gives the one that is lexicographically least by
identifiers (`topoOrder_canonical`), however the nodes are looked for: one after the other, or by
counts and a queue. The reason is that each step places the lowest of the nodes that wait for nothing,
and every other order has to begin with one of these (`placeReady_least`).
-/

namespace GateSynth

namespace Netlist

variable {n : Netlist} {order other : List NodeId}

/-- The nodes in an order: each of them once, and the drivers before their readers. -/
structure Orders (n : Netlist) (order : List NodeId) : Prop where
  nodup : order.Nodup
  mem : ∀ id, id ∈ order ↔ ∃ node ∈ n.nodes, node.id = id
  driversFirst : n.DriversFirst order

/-- One list of nodes comes before another one: at the first difference its identifier is lower, or
it ends there. -/
def Precedes (order other : List NodeId) : Prop :=
  List.Lex (fun a b => a.index < b.index) order other

/-! ## Each step takes the lowest -/

section Placing
variable {left stuck : List Waiting} {steps : Nat}

/-- The node that is placed first is the lowest of those that wait for nothing. -/
theorem placeReady_lowest (hsorted : left.Pairwise fun a b => a.id.index < b.id.index)
    (h : placeReady (steps + 1) left = (order, stuck)) {v : Waiting} (hv : v ∈ left)
    (hready : v.drivers = []) :
    ∃ w ∈ left, w.drivers = [] ∧ w.id.index ≤ v.id.index ∧ ∃ rest,
      placeReady steps (release w.id left) = (rest, stuck) ∧ order = w.id :: rest := by
  obtain ⟨w, hw⟩ : ∃ w, left.find? (fun w => w.drivers.isEmpty) = some w := by
    rw [← Option.isSome_iff_exists, List.find?_isSome]
    exact ⟨v, hv, by simp [hready]⟩
  rw [placeReady, hw] at h
  cases h
  exact ⟨w, List.mem_of_find?_eq_some hw, by simpa using List.find?_some hw,
    index_le_of_find? hsorted hw hv (by simp [hready]), _, rfl, rfl⟩

/-- If all nodes are placed, then no other order that respects what they wait for comes before. -/
theorem placeReady_least (hsorted : left.Pairwise fun a b => a.id.index < b.id.index)
    (h : placeReady steps left = (order, [])) (hperm : other.Perm (left.map Waiting.id))
    (hfirst : ∀ before id after, other = before ++ id :: after → ∀ w ∈ left, w.id = id →
      ∀ d ∈ w.drivers, d ∈ before) : order = other ∨ Precedes order other := by
  induction steps generalizing left order other with
  | zero =>
    cases h
    exact .inl hperm.symm.nil_eq
  | succ steps ih =>
    cases other with
    | nil =>
      have hleft : left = [] := List.map_eq_nil_iff.1 hperm.symm.eq_nil
      subst hleft
      cases h
      exact .inl rfl
    | cons x rest =>
      obtain ⟨v, hv, rfl⟩ := List.mem_map.1 (hperm.mem_iff.1 (List.mem_cons_self ..))
      have hready : v.drivers = [] := List.eq_nil_iff_forall_not_mem.2 fun d hd =>
        List.not_mem_nil (hfirst [] v.id rest rfl v hv rfl d hd)
      obtain ⟨w, hw, -, hle, placed, hplaced, rfl⟩ := placeReady_lowest hsorted h hv hready
      rcases Nat.lt_or_eq_of_le hle with hlt | heq
      · exact .inr (.rel hlt)
      · have hid : w.id = v.id := congrArg NodeId.mk heq
        have hnodup := nodup_of_pairwise hsorted
        rw [hid] at hplaced ⊢
        have hrest : placed = rest ∨ Precedes placed rest :=
          ih (pairwise_release hsorted v.id) hplaced ?_ ?_
        · exact hrest.imp (congrArg _) .cons
        · rw [map_id_release, ← hnodup.erase_eq_filter]
          exact List.Perm.cons_inv (hperm.trans (List.perm_cons_erase (List.mem_map_of_mem hv)))
        · rintro before id after rfl u hu hid d hd
          obtain ⟨u', hu', huid, -, hdrivers⟩ := of_mem_release hu
          rw [hdrivers] at hd
          obtain ⟨hd, hne⟩ := List.mem_filter.1 hd
          have hmem := hfirst (v.id :: before) id after rfl u' hu' (huid.trans hid) d hd
          exact (List.mem_cons.1 hmem).resolve_left (of_decide_eq_true hne)

end Placing

/-! ## The least order -/

theorem Orders.perm (h : n.Orders order) (hc : n.Coherent) : order.Perm n.nodeIds :=
  (List.perm_ext_iff_of_nodup h.nodup hc.nodeIds_nodup).2 fun id => by
    rw [h.mem, nodeIds, List.mem_map]

/-- Where the nodes can be ordered, there is no cycle. -/
theorem Orders.not_cyclic (h : n.Orders order) : ¬ n.Cyclic := by
  rintro ⟨c, hcycle⟩
  have hmem := (h.mem c).2 (List.mem_map.1 hcycle.behind.mem)
  exact h.driversFirst.not_behindCycle hmem hcycle.behind

theorem Coherent.orders_of_topoOrder (hc : n.Coherent) (h : n.topoOrder = .ok order) :
    n.Orders order where
  nodup := hc.nodup_of_topoOrder h
  mem id := by rw [(hc.perm_of_topoOrder h).mem_iff, nodeIds, List.mem_map]
  driversFirst := hc.driversFirst_of_topoOrder h

/-- No order of the nodes comes before the one that is found. -/
theorem Coherent.least_of_topoOrder (hc : n.Coherent) (h : n.topoOrder = .ok order)
    (hother : n.Orders other) : order = other ∨ Precedes order other := by
  refine placeReady_least hc.pairwise_waiting (topoOrder_eq_ok h) ?_ ?_
  · rw [map_id_waiting]
    exact hother.perm hc
  · intro before id after hsplit w hw hid d hd
    obtain ⟨node, hnode, rfl⟩ := List.mem_map.1 hw
    obtain ⟨m, hm, hmid, f, hf, hdriver⟩ := (hc.mem_drivers_iff hnode).1 hd
    exact hother.driversFirst before id after hsplit m hm (hmid.trans hid) f hf d hdriver

theorem not_precedes_both (h : Precedes order other) : ¬ Precedes other order := by
  have : Std.Asymm fun a b : NodeId => a.index < b.index := ⟨fun _ _ => Nat.lt_asymm⟩
  exact (List.Lex.asymm _).asymm _ _ h

/-- The nodes of a netlist can be ordered exactly if its graph has no directed cycle. What is found,
by a search or by counting until the queue is empty, is then the least of all orders. -/
theorem topoOrder_canonical (h : n.Built) :
    (drain n.tally.readers n.tally.pending.size
      ⟨n.tally.pending, countedAs n.tally.pending (· == 0)⟩).2.ready = [] ∧
    n.countedOrder = n.topoOrder ∧ ((∃ order, n.topoOrder = .ok order) ↔ ¬ n.Cyclic) ∧
    ∀ order, n.topoOrder = .ok order ↔
      n.Orders order ∧ ∀ other, n.Orders other → order = other ∨ Precedes order other := by
  have hc := h.consistent.toCoherent
  refine ⟨hc.ready_of_drain, hc.countedOrder_eq, hc.topoOrder_isOk_iff_not_cyclic,
    fun order => ⟨fun horder => ?_, ?_⟩⟩
  · exact ⟨hc.orders_of_topoOrder horder, fun other => hc.least_of_topoOrder horder⟩
  · rintro ⟨horders, hleast⟩
    obtain ⟨found, hfound⟩ := hc.topoOrder_isOk_iff_not_cyclic.2 horders.not_cyclic
    rcases hleast found (hc.orders_of_topoOrder hfound) with rfl | hlt
    · exact hfound
    · rcases hc.least_of_topoOrder hfound horders with rfl | hgt
      · exact hfound
      · exact absurd hgt (not_precedes_both hlt)

end Netlist

namespace LateDrivers

/-- The conjunction of two complements, which are added after it. -/
def netlist : Netlist where
  name := "late"
  inputs := ["a", "b"]
  outputs := ["y"]
  widths := ⟨[("a", .one), ("b", .one), ("y", .one)]⟩
  arena := [some ⟨⟨0⟩, .op .and, [.plain "t", .plain "u"], "y"⟩,
    some ⟨⟨1⟩, .op .not, [.plain "a"], "t"⟩, some ⟨⟨2⟩, .op .not, [.plain "b"], "u"⟩]
  wires := []
  nextFresh := 0

theorem built : netlist.Built := by
  have hhistory : (Operation.performAll Netlist.perform [.addInput "a" 1, .addInput "b" 1,
      .addOutput "y" 1, .addNode (.op .and) [.plain "t", .plain "u"] "y",
      .addNode (.op .not) [.plain "a"] "t", .addNode (.op .not) [.plain "b"] "u"]
      (.empty "late")).1 = netlist := by decide
  rw [← hhistory]
  exact (Netlist.Built.empty _).performAll _

end LateDrivers

/-- The complements come first, in the order of their identifiers. -/
theorem topoOrder_canonical_lateDrivers :
    LateDrivers.netlist.Built ∧ ¬ LateDrivers.netlist.Cyclic ∧
      LateDrivers.netlist.topoOrder = .ok [⟨1⟩, ⟨2⟩, ⟨0⟩] ∧
      LateDrivers.netlist.countedOrder = .ok [⟨1⟩, ⟨2⟩, ⟨0⟩] ∧
      LateDrivers.netlist.Orders [⟨1⟩, ⟨2⟩, ⟨0⟩] ∧
      ∀ other, LateDrivers.netlist.Orders other →
        [⟨1⟩, ⟨2⟩, ⟨0⟩] = other ∨ Netlist.Precedes [⟨1⟩, ⟨2⟩, ⟨0⟩] other := by
  have horder : LateDrivers.netlist.topoOrder = .ok [⟨1⟩, ⟨2⟩, ⟨0⟩] := by decide
  obtain ⟨-, hcounted, hcyclic, hleast⟩ := Netlist.topoOrder_canonical LateDrivers.built
  obtain ⟨horders, hbefore⟩ := (hleast _).1 horder
  exact ⟨LateDrivers.built, hcyclic.1 ⟨_, horder⟩, horder, hcounted.trans horder, horders, hbefore⟩

end GateSynth
