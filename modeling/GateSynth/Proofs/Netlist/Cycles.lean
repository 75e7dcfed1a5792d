import GateSynth.Proofs.Netlist.Provenance
import GateSynth.Proofs.Netlist.TopologicalOrder
import Mathlib.Data.Fintype.Pigeonhole
import Mathlib.Data.Set.Finite.List
import Mathlib.Logic.Relation

/-!
# Loops

The nodes of a netlist form a graph, with an edge from the driver of a signal to each of its readers
(`Feeds`). What `topoOrder` cannot place are the nodes on a cycle of this graph and all that is
downstream of one (`Coherent.mem_stuck_iff`), and it reports the first of them
(`topoOrder_eq_error_iff`). This is a node on a cycle only if no node downstream of the cycles comes
before them: see `topoOrder_behindLoop`.
-/

namespace GateSynth

namespace Netlist

open Relation

variable {n : Netlist} {node : Node} {id c d : NodeId} {order : List NodeId}

/-! ## The graph -/

/-- One node drives a signal that the other reads. -/
def Feeds (n : Netlist) (driver reader : NodeId) : Prop :=
  ∃ node ∈ n.nodes, node.id = reader ∧ ∃ f ∈ node.fanins, n.driver? f.signal = some driver

/-- The node is on a directed cycle. -/
def OnCycle (n : Netlist) (id : NodeId) : Prop := TransGen n.Feeds id id

/-- The graph has a directed cycle. -/
def Cyclic (n : Netlist) : Prop := ∃ id, n.OnCycle id

/-- The node is on a directed cycle or downstream of one. -/
def BehindCycle (n : Netlist) (id : NodeId) : Prop :=
  ∃ c, n.OnCycle c ∧ ReflTransGen n.Feeds c id

theorem Feeds.reader_mem (h : n.Feeds d id) : id ∈ n.nodeIds := by
  obtain ⟨node, hnode, rfl, -⟩ := h
  exact List.mem_map_of_mem hnode

theorem Feeds.driver_mem (h : n.Feeds d id) : d ∈ n.nodeIds := by
  obtain ⟨-, -, -, f, -, hd⟩ := h
  obtain ⟨driver, hdriver, -, rfl⟩ := driver?_eq_some hd
  exact List.mem_map_of_mem hdriver

theorem OnCycle.behind (h : n.OnCycle id) : n.BehindCycle id := ⟨id, h, .refl⟩

theorem BehindCycle.mem (h : n.BehindCycle id) : id ∈ n.nodeIds := by
  obtain ⟨c, hc, hid⟩ := h
  obtain ⟨b, -, hb⟩ := TransGen.tail'_iff.1 (hc.trans_left hid)
  exact hb.reader_mem

/-- Going back from predecessor to predecessor in a finite list ends in a cycle. -/
theorem exists_cycle_of_predecessors {α : Type} {r : α → α → Prop} {l : List α}
    (h : ∀ x ∈ l, ∃ y ∈ l, r y x) {x : α} (hx : x ∈ l) :
    ∃ c, TransGen r c c ∧ ReflTransGen r c x := by
  have := l.finite_toSet.to_subtype
  choose pred hpred using fun y : {y | y ∈ l} => h y y.2
  let back : ℕ → {y | y ∈ l} := fun k => (fun y => ⟨pred y, (hpred y).1⟩)^[k] ⟨x, hx⟩
  have hstep : ∀ k, r (back (k + 1)) (back k) := fun k => by
    simp only [back, Function.iterate_succ_apply']
    exact (hpred _).2
  have hreach : ∀ i k, ReflTransGen r (back (i + k)) (back i) := by
    intro i k
    induction k with
    | zero => exact .refl
    | succ k ih => exact .head (hstep (i + k)) ih
  have hloop : ∀ i j, i < j → back i = back j → ∃ c, TransGen r c c ∧ ReflTransGen r c x := by
    intro i j hij heq
    obtain ⟨k, rfl⟩ := Nat.exists_eq_add_of_lt hij
    have hcycle : TransGen r (back (i + k + 1)) (back i) := .head' (hstep (i + k)) (hreach i k)
    rw [← heq] at hcycle
    refine ⟨back i, hcycle, ?_⟩
    have hback := hreach 0 i
    rwa [Nat.zero_add] at hback
  obtain ⟨i, j, hne, heq⟩ := Finite.exists_ne_map_eq_of_infinite back
  rcases Nat.lt_or_gt_of_ne hne with hij | hji
  · exact hloop i j hij heq
  · exact hloop j i hji heq.symm

/-! ## What is left over -/

section Placing
variable {left stuck : List Waiting} {steps : Nat}

/-- Left over are those that are not placed, in their old order, and of what they wait for that
which is not placed. -/
theorem placeReady_stuck (h : placeReady steps left = (order, stuck)) :
    stuck = (left.filter (·.id ∉ order)).map fun w => ⟨w.id, w.drivers.filter (· ∉ order)⟩ := by
  induction steps generalizing left order with
  | zero =>
    cases h
    simp
  | succ steps ih =>
    rcases placeReady_succ h with ⟨rfl, rfl, -⟩ | ⟨w, -, -, rest, hrest, rfl⟩
    · simp
    · rw [ih hrest, release, List.filter_map, List.map_map, List.filter_filter]
      simp only [Function.comp_def, List.filter_filter, List.mem_cons, not_or, Bool.decide_and,
        Bool.and_comm]

/-- With enough steps, whatever is left over waits for something. -/
theorem placeReady_waits (hsteps : left.length ≤ steps)
    (h : placeReady steps left = (order, stuck)) : ∀ w ∈ stuck, w.drivers ≠ [] := by
  induction steps generalizing left order with
  | zero =>
    cases h
    rw [List.length_eq_zero_iff.1 (Nat.le_zero.1 hsteps)]
    exact nofun
  | succ steps ih =>
    rcases placeReady_succ h with ⟨-, rfl, hall⟩ | ⟨w, hw, -, rest, hrest, -⟩
    · exact hall
    · refine ih ?_ hrest
      have hlen := length_release_lt hw
      omega

end Placing

/-! ## What cannot be ordered -/

theorem Coherent.mem_drivers_iff (hc : n.Coherent) (hnode : node ∈ n.nodes) :
    d ∈ node.faninSignals.filterMap n.driver? ↔ n.Feeds d node.id := by
  simp only [Node.faninSignals, List.mem_filterMap, List.mem_map, exists_exists_and_eq_and]
  constructor
  · rintro ⟨f, hf, hd⟩
    exact ⟨node, hnode, rfl, f, hf, hd⟩
  · rintro ⟨m, hm, hid, f, hf, hd⟩
    rw [hc.eq_of_id hm hnode hid] at hf
    exact ⟨f, hf, hd⟩

/-- Where drivers come first, what feeds a listed node is listed before it. -/
theorem DriversFirst.idxOf_lt_of_feeds (h : n.DriversFirst order) (hd : n.Feeds d id)
    (hid : id ∈ order) : d ∈ order ∧ order.idxOf d < order.idxOf id := by
  obtain ⟨node, hnode, rfl, f, hf, hdriver⟩ := hd
  obtain ⟨before, after, hsplit, hnot⟩ := List.eq_append_cons_of_mem hid
  have hbefore : d ∈ before := h before node.id after hsplit node hnode rfl f hf d hdriver
  refine ⟨hsplit ▸ List.mem_append_left _ hbefore, ?_⟩
  rw [hsplit, List.idxOf_append_of_mem hbefore, List.idxOf_append_of_notMem hnot,
    List.idxOf_cons_self, Nat.add_zero]
  exact List.idxOf_lt_length_of_mem hbefore

theorem DriversFirst.idxOf_lt_of_upstream (h : n.DriversFirst order) (hd : TransGen n.Feeds d id)
    (hid : id ∈ order) : d ∈ order ∧ order.idxOf d < order.idxOf id := by
  induction hd with
  | single hd => exact h.idxOf_lt_of_feeds hd hid
  | tail _ hstep ih =>
    obtain ⟨hmem, hlt⟩ := h.idxOf_lt_of_feeds hstep hid
    exact ⟨(ih hmem).1, (ih hmem).2.trans hlt⟩

/-- Where drivers come first, no node behind a cycle is listed. -/
theorem DriversFirst.not_behindCycle (h : n.DriversFirst order) (hid : id ∈ order) :
    ¬ n.BehindCycle id := by
  rintro ⟨c, hcycle, hpath⟩
  have hmem : c ∈ order := by
    rcases reflTransGen_iff_eq_or_transGen.1 hpath with rfl | hpath
    · exact hid
    · exact (h.idxOf_lt_of_upstream hpath hid).1
  exact Nat.lt_irrefl _ (h.idxOf_lt_of_upstream hcycle hmem).2

section Stuck
variable {stuck : List Waiting} (hplace : placeReady n.nodeCount n.waiting = (order, stuck))
include hplace

theorem Coherent.mem_order_or_stuck (hc : n.Coherent) :
    id ∈ n.nodeIds ↔ id ∈ order ∨ id ∈ stuck.map Waiting.id := by
  rw [← (hc.perm_of_placeReady hplace).mem_iff, List.mem_append]

/-- A node that is left over waits for another one that is. -/
theorem Coherent.exists_stuck_feeds (hc : n.Coherent) (hid : id ∈ stuck.map Waiting.id) :
    ∃ d ∈ stuck.map Waiting.id, n.Feeds d id := by
  obtain ⟨w, hw, rfl⟩ := List.mem_map.1 hid
  obtain ⟨d, hd⟩ := List.exists_mem_of_ne_nil _
    (placeReady_waits (by simp [waiting, nodeCount]) hplace w hw)
  rw [placeReady_stuck hplace] at hw
  obtain ⟨v, hv, rfl⟩ := List.mem_map.1 hw
  obtain ⟨node, hnode, rfl⟩ := List.mem_map.1 (List.mem_filter.1 hv).1
  obtain ⟨hd, hnot⟩ := List.mem_filter.1 hd
  have hfeeds := (hc.mem_drivers_iff hnode).1 hd
  refine ⟨d, ?_, hfeeds⟩
  exact ((hc.mem_order_or_stuck hplace).1 hfeeds.driver_mem).resolve_left (of_decide_eq_true hnot)

/-- Left over are the nodes on cycles and those downstream of one. -/
theorem Coherent.mem_stuck_iff (hc : n.Coherent) :
    id ∈ stuck.map Waiting.id ↔ n.BehindCycle id := by
  constructor
  · exact exists_cycle_of_predecessors fun x hx => hc.exists_stuck_feeds hplace hx
  · intro hbehind
    refine ((hc.mem_order_or_stuck hplace).1 hbehind.mem).resolve_left fun hid => ?_
    exact (hc.driversFirst_of_placeReady hplace).not_behindCycle hid hbehind

/-- What is left over comes in the order of the identifiers. -/
theorem Coherent.pairwise_stuck (hc : n.Coherent) :
    stuck.Pairwise fun a b => a.id.index < b.id.index := by
  rw [placeReady_stuck hplace, List.pairwise_map]
  exact hc.pairwise_waiting.filter _

end Stuck

/-- A netlist without a directed cycle can be ordered, and no other. -/
theorem Coherent.topoOrder_isOk_iff_not_cyclic (hc : n.Coherent) :
    (∃ order, n.topoOrder = .ok order) ↔ ¬ n.Cyclic := by
  obtain ⟨order, stuck, hplace⟩ : ∃ order stuck,
      placeReady n.nodeCount n.waiting = (order, stuck) := ⟨_, _, rfl⟩
  have hiff : stuck = [] ↔ ¬ n.Cyclic := by
    constructor
    · rintro rfl ⟨id, hid⟩
      exact absurd ((hc.mem_stuck_iff hplace).2 hid.behind) List.not_mem_nil
    · intro hacyclic
      refine List.eq_nil_iff_forall_not_mem.2 fun w hw => ?_
      obtain ⟨c, hcycle, -⟩ := (hc.mem_stuck_iff hplace).1 (List.mem_map_of_mem hw)
      exact hacyclic ⟨c, hcycle⟩
  rw [← hiff, topoOrder, hplace]
  cases stuck with
  | nil => simp
  | cons w rest => simp

/-- Where there is a cycle, the first node that is on one or downstream of one is reported. -/
theorem Coherent.topoOrder_of_cyclic (hc : n.Coherent) (h : n.Cyclic) :
    ∃ node ∈ n.nodes, n.topoOrder = .error (.cycle node.id node.output) ∧
      n.BehindCycle node.id ∧
      ∀ other ∈ n.nodes, n.BehindCycle other.id → node.id.index ≤ other.id.index := by
  obtain ⟨order, stuck, hplace⟩ : ∃ order stuck,
      placeReady n.nodeCount n.waiting = (order, stuck) := ⟨_, _, rfl⟩
  obtain ⟨c, hcycle⟩ := h
  cases stuck with
  | nil => exact absurd ((hc.mem_stuck_iff hplace).2 hcycle.behind) List.not_mem_nil
  | cons w rest =>
    have hbehind : n.BehindCycle w.id := (hc.mem_stuck_iff hplace).1 (.head _)
    obtain ⟨node, hnode, hid⟩ := List.mem_map.1 hbehind.mem
    refine ⟨node, hnode, ?_, hid ▸ hbehind, fun other _ hother => ?_⟩
    · rw [topoOrder, hplace]
      simp only [← hid, hc.node?_of_mem hnode, Option.map_some, Option.getD_some]
    · rw [hid]
      obtain ⟨v, hv, hvid⟩ := List.mem_map.1 ((hc.mem_stuck_iff hplace).2 hother)
      rw [← hvid]
      rcases List.mem_cons.1 hv with rfl | hv
      · exact Nat.le_refl _
      · exact Nat.le_of_lt (List.rel_of_pairwise_cons (hc.pairwise_stuck hplace) hv)

/-- The nodes are refused an order when some of them are on a cycle or downstream of one. It is
the first of these that is reported, with the signal that it drives. -/
theorem topoOrder_eq_error_iff (h : n.Built) {e : NetlistError} :
    n.topoOrder = .error e ↔ ∃ node ∈ n.nodes, e = .cycle node.id node.output ∧
      n.BehindCycle node.id ∧
      ∀ other ∈ n.nodes, n.BehindCycle other.id → node.id.index ≤ other.id.index := by
  have hc := h.consistent.toCoherent
  constructor
  · intro herror
    have hcyclic : n.Cyclic := by
      rw [← not_not (a := n.Cyclic), ← hc.topoOrder_isOk_iff_not_cyclic]
      rintro ⟨order, horder⟩
      rw [herror] at horder
      cases horder
    obtain ⟨node, hnode, hreport, hfirst⟩ := hc.topoOrder_of_cyclic hcyclic
    rw [herror] at hreport
    exact ⟨node, hnode, Except.error.inj hreport, hfirst⟩
  · rintro ⟨node, hnode, rfl, hbehind, hmin⟩
    have ⟨c, hcycle, _⟩ := hbehind
    obtain ⟨first, hfirst, hreport, hfirstBehind, hfirstMin⟩ := hc.topoOrder_of_cyclic ⟨c, hcycle⟩
    have hindex : first.id.index = node.id.index :=
      Nat.le_antisymm (hfirstMin node hnode hbehind) (hmin first hfirst hfirstBehind)
    have hid : first.id = node.id := congrArg NodeId.mk hindex
    rw [hreport, hc.eq_of_id hfirst hnode hid]

end Netlist

namespace BehindLoop

/-- A buffer that reads its own signal, and a buffer before it that reads it too. -/
def netlist : Netlist where
  name := "behind"
  inputs := []
  outputs := ["y"]
  widths := ⟨[("y", .one)]⟩
  arena := [some ⟨⟨0⟩, .op .buf, [.plain "t"], "y"⟩, some ⟨⟨1⟩, .op .buf, [.plain "t"], "t"⟩]
  wires := []
  nextFresh := 0

theorem built : netlist.Built := by
  have hhistory : (Operation.performAll Netlist.perform [.addOutput "y" 1,
      .addNode (.op .buf) [.plain "t"] "y", .addNode (.op .buf) [.plain "t"] "t"]
      (.empty "behind")).1 = netlist := by decide
  rw [← hhistory]
  exact (Netlist.Built.empty _).performAll _

end BehindLoop

/-- The buffer behind the loop comes first, so it is reported. -/
theorem topoOrder_eq_error_iff_behindLoop :
    BehindLoop.netlist.Built ∧ BehindLoop.netlist.topoOrder = .error (.cycle ⟨0⟩ "y") ∧
      ∃ node ∈ BehindLoop.netlist.nodes, NetlistError.cycle ⟨0⟩ "y" = .cycle node.id node.output ∧
        BehindLoop.netlist.BehindCycle node.id :=
  have herror : BehindLoop.netlist.topoOrder = .error (.cycle ⟨0⟩ "y") := by decide
  have ⟨node, hnode, hreport, hbehind, _⟩ := (Netlist.topoOrder_eq_error_iff BehindLoop.built).1 herror
  ⟨BehindLoop.built, herror, node, hnode, hreport, hbehind⟩

/-- The node that is reported need not be on a cycle: nothing reads what it drives. -/
theorem topoOrder_behindLoop :
    BehindLoop.netlist.Built ∧ BehindLoop.netlist.topoOrder = .error (.cycle ⟨0⟩ "y") ∧
      ¬ BehindLoop.netlist.OnCycle ⟨0⟩ := by
  refine ⟨BehindLoop.built, by decide, fun hcycle => ?_⟩
  obtain ⟨reader, hfeeds, -⟩ := Relation.TransGen.head'_iff.1 hcycle
  obtain ⟨node, hnode, -, f, hf, hd⟩ := hfeeds
  have hread : ∀ node ∈ BehindLoop.netlist.nodes, ∀ f ∈ node.fanins,
      BehindLoop.netlist.driver? f.signal ≠ some ⟨0⟩ := by decide
  exact hread node hnode f hf hd

end GateSynth
