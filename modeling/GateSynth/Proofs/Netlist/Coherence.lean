import GateSynth.Netlist.Basic
import GateSynth.Proofs.Results
import GateSynth.Proofs.Tables
import Mathlib.Data.List.Nodup

/-!
# Coherent netlists

The operations on netlists keep four facts about the container that `validate` does not look at:
a node stands at the place that its identifier names, and no width, input or output is listed
twice. `Coherent` holds them. Under it the arena can be forgotten: looking up an identifier is
finding the node in `nodes` (`Coherent.node?_eq_some_iff`), and every operation is a plain list
operation on `nodes` (`Coherent.nodes_eraseNode`, `Coherent.nodes_updateNode`, `nodes_of_addNode`,
`nodes_redirect`).
-/

namespace GateSynth

namespace Netlist

/-- What the operations on netlists keep and `validate` does not look at. -/
structure Coherent (n : Netlist) : Prop where
  /-- A node stands at the place of its identifier. -/
  place : ∀ {i : Nat} {node : Node}, n.arena[i]? = some (some node) → node.id = ⟨i⟩
  /-- No signal has two entries in the width table. -/
  widths_nodup : n.widths.keys.Nodup
  /-- No primary input is listed twice. -/
  inputs_nodup : n.inputs.Nodup
  /-- No primary output is listed twice. -/
  outputs_nodup : n.outputs.Nodup

variable {n n' : Netlist} {id : NodeId} {node : Node} {signal : String}

/-! ## Looking up nodes -/

theorem mem_nodes_iff : node ∈ n.nodes ↔ ∃ i : Nat, n.arena[i]? = some (some node) := by
  simp only [nodes, List.mem_filterMap, id_eq, exists_eq_right]
  exact List.mem_iff_getElem?

theorem node?_eq_arena : n.node? id = some node ↔ n.arena[id.index]? = some (some node) := by
  simp [node?, Option.getD_eq_iff]

/-- The node under an identifier is the node of the list that has it. -/
theorem Coherent.node?_eq_some_iff (h : n.Coherent) :
    n.node? id = some node ↔ node ∈ n.nodes ∧ node.id = id := by
  rw [node?_eq_arena, mem_nodes_iff]
  constructor
  · intro hi
    exact ⟨⟨_, hi⟩, h.place hi⟩
  · rintro ⟨⟨i, hi⟩, rfl⟩
    rw [h.place hi]
    exact hi

theorem Coherent.node?_of_mem (h : n.Coherent) (hm : node ∈ n.nodes) :
    n.node? node.id = some node :=
  h.node?_eq_some_iff.2 ⟨hm, rfl⟩

theorem Coherent.index_lt (h : n.Coherent) (hm : node ∈ n.nodes) :
    node.id.index < n.arena.length :=
  (List.getElem?_eq_some_iff.1 (node?_eq_arena.1 (h.node?_of_mem hm))).1

/-- Nodes are listed in the order of their identifiers. -/
theorem Coherent.pairwise_index (h : n.Coherent) :
    n.nodes.Pairwise fun a b => a.id.index < b.id.index := by
  rw [nodes, List.pairwise_filterMap, List.pairwise_iff_getElem]
  intro i j hi hj hij a ha b hb
  have ha' := h.place (List.getElem?_eq_some_iff.2 ⟨hi, ha⟩)
  have hb' := h.place (List.getElem?_eq_some_iff.2 ⟨hj, hb⟩)
  rw [ha', hb']
  exact hij

theorem Coherent.nodeIds_nodup (h : n.Coherent) : n.nodeIds.Nodup := by
  rw [nodeIds, List.Nodup, List.pairwise_map]
  refine h.pairwise_index.imp fun hlt heq => ?_
  rw [heq] at hlt
  exact Nat.lt_irrefl _ hlt

theorem Coherent.nodes_nodup (h : n.Coherent) : n.nodes.Nodup :=
  .of_map Node.id h.nodeIds_nodup

/-- Two nodes with one identifier are one node. -/
theorem Coherent.eq_of_id (h : n.Coherent) {a b : Node} (ha : a ∈ n.nodes) (hb : b ∈ n.nodes)
    (hid : a.id = b.id) : a = b := by
  have hab := h.node?_of_mem ha
  rw [hid, h.node?_of_mem hb] at hab
  exact (Option.some.inj hab).symm

/-! ## Looking up drivers -/

theorem driverNode?_eq_some (h : n.driverNode? signal = some node) :
    node ∈ n.nodes ∧ node.output = signal :=
  ⟨List.mem_of_find?_eq_some h, by simpa using List.find?_some h⟩

theorem driverNode?_eq_none_iff :
    n.driverNode? signal = none ↔ ∀ node ∈ n.nodes, node.output ≠ signal := by
  simp [driverNode?, List.find?_eq_none]

theorem driverNode?_isSome_iff :
    (n.driverNode? signal).isSome ↔ ∃ node ∈ n.nodes, node.output = signal := by
  simp [driverNode?, List.find?_isSome]

/-- Where no two nodes drive one signal, the driver of a signal is any node that drives it. -/
theorem driverNode?_of_mem (h : (n.nodes.map Node.output).Nodup) (hm : node ∈ n.nodes) :
    n.driverNode? node.output = some node := by
  obtain ⟨d, hd⟩ := Option.isSome_iff_exists.1 (driverNode?_isSome_iff.2 ⟨node, hm, rfl⟩)
  obtain ⟨hdm, hdo⟩ := driverNode?_eq_some hd
  rw [hd, List.inj_on_of_nodup_map h hdm hm hdo]

theorem driver?_eq_some (h : n.driver? signal = some id) :
    ∃ node ∈ n.nodes, node.output = signal ∧ node.id = id := by
  obtain ⟨node, hnode, rfl⟩ := Option.map_eq_some_iff.1 h
  obtain ⟨hm, ho⟩ := driverNode?_eq_some hnode
  exact ⟨node, hm, ho, rfl⟩

theorem driver?_of_mem (h : (n.nodes.map Node.output).Nodup) (hm : node ∈ n.nodes) :
    n.driver? node.output = some node.id := by
  rw [driver?, driverNode?_of_mem h hm, Option.map_some]

theorem driver?_eq_none_iff :
    n.driver? signal = none ↔ ∀ node ∈ n.nodes, node.output ≠ signal := by
  rw [driver?, Option.map_eq_none_iff, driverNode?_eq_none_iff]

theorem driver?_isSome_iff :
    (n.driver? signal).isSome ↔ ∃ node ∈ n.nodes, node.output = signal := by
  rw [driver?, Option.isSome_map, driverNode?_isSome_iff]

theorem isInput_iff : n.isInput signal = true ↔ signal ∈ n.inputs := by
  simp [isInput]

theorem isOutput_iff : n.isOutput signal = true ↔ signal ∈ n.outputs := by
  simp [isOutput]

/-- A signal is defined if a node drives it or it is a primary input. -/
theorem isDefined_iff :
    n.isDefined signal = true ↔
      (∃ node ∈ n.nodes, node.output = signal) ∨ signal ∈ n.inputs := by
  rw [isDefined, Bool.or_eq_true, driver?_isSome_iff, isInput_iff]

theorem isDefined_of_node (h : node ∈ n.nodes) : n.isDefined node.output = true :=
  isDefined_iff.2 (.inl ⟨node, h, rfl⟩)

theorem isDefined_of_input (h : signal ∈ n.inputs) : n.isDefined signal = true :=
  isDefined_iff.2 (.inr h)

/-- Which signals are defined is a matter of what the nodes drive and of the inputs. -/
theorem isDefined_congr (hnodes : n'.nodes.map Node.output = n.nodes.map Node.output)
    (hinputs : n'.inputs = n.inputs) (signal : String) :
    n'.isDefined signal = n.isDefined signal := by
  rw [Bool.eq_iff_iff, isDefined_iff, isDefined_iff, ← List.mem_map, ← List.mem_map, hnodes,
    hinputs]

/-! ## Widths -/

theorem width_setWidth (n : Netlist) (signal other : String) (w : Width) :
    (n.setWidth signal w).width other = if other = signal then w else n.width other := by
  simp only [width, setWidth, Table.find?_insert]
  split <;> rfl

@[simp] theorem nodes_setWidth (n : Netlist) (signal : String) (w : Width) :
    (n.setWidth signal w).nodes = n.nodes := rfl

theorem Coherent.setWidth (h : n.Coherent) (signal : String) (w : Width) :
    (n.setWidth signal w).Coherent :=
  ⟨h.place, Table.nodup_keys_insert h.widths_nodup, h.inputs_nodup, h.outputs_nodup⟩

/-- A declared width is a width, and declaring it records it. -/
theorem eq_of_declareWidth {bits : Nat} (h : n.declareWidth signal bits = .ok n') :
    ∃ w, w.bits = bits ∧ n' = n.setWidth signal w := by
  simp only [declareWidth, Width.ofNat?] at h
  split at h
  · next w hw =>
    split at hw
    · cases hw
      cases h
      exact ⟨_, rfl, rfl⟩
    · cases hw
  · cases h

/-! ## Ports -/

/-- Declaring an input records its width and lists it. -/
theorem addInput_eq_ok {name : String} {bits : Nat} (h : n.addInput name bits = .ok n') :
    n.isDefined name = false ∧
      ∃ w, w.bits = bits ∧ n' = { n.setWidth name w with inputs := n.inputs ++ [name] } := by
  rw [addInput] at h
  split at h
  · cases h
  · next hinput =>
    split at h
    · cases h
    · next hdriver =>
      obtain ⟨m, hm, h⟩ := ok_of_bind h
      cases h
      obtain ⟨w, hw, rfl⟩ := eq_of_declareWidth hm
      refine ⟨?_, w, hw, rfl⟩
      rw [isDefined, hdriver]
      simpa using hinput

/-- Declaring an output records its width and lists it. -/
theorem addOutput_eq_ok {name : String} {bits : Nat} (h : n.addOutput name bits = .ok n') :
    name ∉ n.outputs ∧
      ∃ w, w.bits = bits ∧ n' = { n.setWidth name w with outputs := n.outputs ++ [name] } := by
  rw [addOutput] at h
  split at h
  · cases h
  · next houtput =>
    obtain ⟨m, hm, h⟩ := ok_of_bind h
    cases h
    obtain ⟨w, hw, rfl⟩ := eq_of_declareWidth hm
    exact ⟨fun hmem => houtput (isOutput_iff.2 hmem), w, hw, rfl⟩

theorem Coherent.empty (name : String) : (Netlist.empty name).Coherent :=
  ⟨fun h => by simp [Netlist.empty] at h, .nil, .nil, .nil⟩

theorem Coherent.addInput (hc : n.Coherent) {name : String} {bits : Nat}
    (h : n.addInput name bits = .ok n') : n'.Coherent := by
  obtain ⟨hfree, w, -, rfl⟩ := addInput_eq_ok h
  refine ⟨hc.place, (hc.setWidth name w).widths_nodup, ?_, hc.outputs_nodup⟩
  refine List.nodup_append.2 ⟨hc.inputs_nodup, List.nodup_singleton _, fun a ha b hb => ?_⟩
  rintro rfl
  rw [List.mem_singleton.1 hb] at ha
  rw [isDefined_of_input ha] at hfree
  cases hfree

theorem Coherent.addOutput (hc : n.Coherent) {name : String} {bits : Nat}
    (h : n.addOutput name bits = .ok n') : n'.Coherent := by
  obtain ⟨hfree, w, -, rfl⟩ := addOutput_eq_ok h
  refine ⟨hc.place, (hc.setWidth name w).widths_nodup, hc.inputs_nodup, ?_⟩
  refine List.nodup_append.2 ⟨hc.outputs_nodup, List.nodup_singleton _, fun a ha b hb => ?_⟩
  rintro rfl
  exact hfree (List.mem_singleton.1 hb ▸ ha)

/-! ## Retiring signals -/

/-- Only the width of the signal itself is dropped when it is retired. -/
theorem Coherent.width_retireSignal (h : n.Coherent) {other : String} (hne : other ≠ signal) :
    (n.retireSignal signal).width other = n.width other := by
  simp only [retireSignal]
  split
  · rfl
  · simp only [width, Table.find?_swapErase h.widths_nodup, if_neg hne]

@[simp] theorem nodes_retireSignal (n : Netlist) (signal : String) :
    (n.retireSignal signal).nodes = n.nodes := by
  simp only [retireSignal]
  split <;> rfl

@[simp] theorem inputs_retireSignal (n : Netlist) (signal : String) :
    (n.retireSignal signal).inputs = n.inputs := by
  simp only [retireSignal]
  split <;> rfl

@[simp] theorem outputs_retireSignal (n : Netlist) (signal : String) :
    (n.retireSignal signal).outputs = n.outputs := by
  simp only [retireSignal]
  split <;> rfl

theorem Coherent.retireSignal (h : n.Coherent) (signal : String) :
    (n.retireSignal signal).Coherent := by
  simp only [Netlist.retireSignal]
  split
  · exact h
  · exact ⟨h.place, Table.nodup_keys_swapErase h.widths_nodup, h.inputs_nodup, h.outputs_nodup⟩

/-! ## Changing the arena -/

theorem Coherent.of_arena (h : n.Coherent) {arena : List (Option Node)}
    (place : ∀ {i : Nat} {node : Node}, arena[i]? = some (some node) → node.id = ⟨i⟩) :
    { n with arena }.Coherent :=
  ⟨place, h.widths_nodup, h.inputs_nodup, h.outputs_nodup⟩

/-- Changing nodes in place. -/
theorem Coherent.map_arena (h : n.Coherent) {f : Node → Node} (hid : ∀ node, (f node).id = node.id) :
    { n with arena := n.arena.map (Option.map f) }.Coherent := by
  refine h.of_arena fun {i node} hi => ?_
  rw [List.getElem?_map] at hi
  obtain ⟨slot, hslot, hi⟩ := Option.map_eq_some_iff.1 hi
  obtain ⟨old, rfl, rfl⟩ := Option.map_eq_some_iff.1 hi
  rw [hid]
  exact h.place hslot

theorem nodes_arena_append (n : Netlist) (node : Node) :
    { n with arena := n.arena ++ [some node] }.nodes = n.nodes ++ [node] := by
  simp [nodes, List.filterMap_append]

theorem checkArity_ok {kind : Kind} {fanins : List Fanin} (h : checkArity id kind fanins = .ok ()) :
    ∀ k, kind.arity? = some k → k = fanins.length := by
  intro k hk
  simp only [checkArity, hk] at h
  split at h
  · assumption
  · cases h

theorem checkArity_eq_ok_iff {kind : Kind} {fanins : List Fanin} :
    checkArity id kind fanins = .ok () ↔ ∀ k, kind.arity? = some k → k = fanins.length := by
  refine ⟨checkArity_ok, fun h => ?_⟩
  rw [checkArity]
  split
  · next expected hexpected => rw [if_pos (h expected hexpected)]
  · rfl

/-- What it takes to add a node, and what comes of it: the node is the last one of the arena. -/
theorem addNode_eq_ok {kind : Kind} {fanins : List Fanin} {output : String}
    (h : n.addNode kind fanins output = .ok (n', id)) :
    (∀ k, kind.arity? = some k → k = fanins.length) ∧ n.isDefined output = false ∧
      id = ⟨n.arena.length⟩ ∧
      n' = { n with arena := n.arena ++ [some ⟨⟨n.arena.length⟩, kind, fanins, output⟩] } := by
  obtain ⟨m, hm, hret⟩ := ok_of_bind h
  cases hret
  obtain ⟨u, harity, hm⟩ := ok_of_bind hm
  cases hd : n.driver? output with
  | some existing => simp [hd, throw, throwThe, MonadExceptOf.throw, bind, Except.bind] at hm
  | none =>
    cases hi : n.isInput output with
    | true => simp [hd, hi, throw, throwThe, MonadExceptOf.throw, bind, Except.bind] at hm
    | false =>
      have hfree : n.node? ⟨n.arena.length⟩ = none := by simp [node?]
      simp [hd, hi, hfree, placeNode, pure, Except.pure] at hm
      refine ⟨checkArity_ok harity, ?_, rfl, hm.symm⟩
      simp [isDefined, hd, hi]

/-- A node with the right number of fanins can be added on a signal that is not defined. -/
theorem addNode_isOk {kind : Kind} {fanins : List Fanin} {output : String}
    (harity : ∀ k, kind.arity? = some k → k = fanins.length) (hfree : n.isDefined output = false) :
    ∃ n' id, n.addNode kind fanins output = .ok (n', id) := by
  have hcheck : checkArity ⟨n.arena.length⟩ kind fanins = .ok () := checkArity_eq_ok_iff.2 harity
  rw [isDefined, Bool.or_eq_false_iff, Option.isSome_eq_false_iff, Option.isNone_iff_eq_none] at hfree
  have hplace : n.node? ⟨n.arena.length⟩ = none := by simp [node?]
  let node : Node := ⟨⟨n.arena.length⟩, kind, fanins, output⟩
  refine ⟨{ n with arena := placeNode n.arena n.arena.length node }, ⟨n.arena.length⟩, ?_⟩
  simp [addNode, insertNode, hcheck, hfree.1, hfree.2, hplace, node, bind, Except.bind, pure, Except.pure]

/-- The nodes behind an added one are those before it and itself. -/
theorem nodes_of_addNode {kind : Kind} {fanins : List Fanin} {output : String}
    (h : n.addNode kind fanins output = .ok (n', id)) :
    n'.nodes = n.nodes ++ [⟨id, kind, fanins, output⟩] := by
  obtain ⟨-, -, rfl, rfl⟩ := addNode_eq_ok h
  exact nodes_arena_append n _

theorem Coherent.addNode (hc : n.Coherent) {kind : Kind} {fanins : List Fanin} {output : String}
    (h : n.addNode kind fanins output = .ok (n', id)) : n'.Coherent := by
  obtain ⟨-, -, rfl, rfl⟩ := addNode_eq_ok h
  refine hc.of_arena fun {i node} hi => ?_
  rcases Nat.lt_trichotomy i n.arena.length with hlt | rfl | hgt
  · rw [List.getElem?_append_left hlt] at hi
    exact hc.place hi
  · simp at hi
    rw [← hi]
  · rw [List.getElem?_eq_none (by simp; omega)] at hi
    cases hi

/-- The nodes around a node are the same when it is changed or dropped. -/
theorem exists_split (h : n.node? id = some node) :
    ∃ before after, n.nodes = before ++ node :: after ∧
      (n.eraseNode id).nodes = before ++ after ∧
      ∀ kind fanins, (n.updateNode id kind fanins).nodes =
        before ++ { node with kind, fanins } :: after := by
  obtain ⟨hlt, hslot⟩ := List.getElem?_eq_some_iff.1 (node?_eq_arena.1 h)
  refine ⟨(n.arena.take id.index).filterMap fun slot => slot,
    (n.arena.drop (id.index + 1)).filterMap fun slot => slot, ?_, ?_, fun kind fanins => ?_⟩
  · have harena : n.arena.take id.index ++ some node :: n.arena.drop (id.index + 1) = n.arena := by
      rw [← hslot, List.getElem_cons_drop, List.take_append_drop]
    have hnodes := congrArg (List.filterMap fun slot => slot) harena
    simpa [nodes] using hnodes.symm
  · rw [nodes, eraseNode, List.set_eq_take_append_cons_drop, if_pos hlt]
    simp
  · rw [nodes, updateNode, List.modify_eq_take_cons_drop hlt, hslot]
    simp

/-- Emptying a place takes out the node with that identifier. -/
theorem Coherent.arena_eraseNode (h : n.Coherent) (id : NodeId) :
    (n.eraseNode id).arena = n.arena.map (Option.filter fun node => node.id ≠ id) := by
  refine List.ext_getElem? fun i => ?_
  rw [eraseNode, List.getElem?_set, List.getElem?_map]
  cases hs : n.arena[i]? with
  | none =>
    rw [List.getElem?_eq_none_iff] at hs
    split
    · rw [if_neg (by omega)]
      rfl
    · rfl
  | some slot =>
    have hi := (List.getElem?_eq_some_iff.1 hs).1
    cases slot with
    | none => split <;> simp_all
    | some node =>
      have hid := h.place hs
      by_cases hk : id.index = i
      · have : node.id = id := by rw [hid, ← hk]
        simp [hk, hi, Option.filter, this]
      · have : node.id ≠ id := fun he => hk (by rw [← he, hid])
        simp [hk, Option.filter, this]

theorem Coherent.nodes_eraseNode (h : n.Coherent) (id : NodeId) :
    (n.eraseNode id).nodes = n.nodes.filter fun node => node.id ≠ id := by
  simp only [nodes, h.arena_eraseNode, List.filterMap_map, List.filter_filterMap]
  rfl

theorem Coherent.eraseNode (h : n.Coherent) (id : NodeId) : (n.eraseNode id).Coherent := by
  refine h.of_arena fun {i node} hi => ?_
  rw [List.getElem?_set] at hi
  split at hi
  · split at hi <;> simp at hi
  · exact h.place hi

/-- Changing the node at a place changes the node with that identifier. -/
theorem Coherent.arena_updateNode (h : n.Coherent) (id : NodeId) (kind : Kind)
    (fanins : List Fanin) :
    (n.updateNode id kind fanins).arena = n.arena.map (Option.map fun node =>
      if node.id = id then { node with kind, fanins } else node) := by
  refine List.ext_getElem? fun i => ?_
  rw [updateNode, List.getElem?_modify, List.getElem?_map]
  cases hs : n.arena[i]? with
  | none => rfl
  | some slot =>
    cases slot with
    | none => split <;> rfl
    | some node =>
      have hid := h.place hs
      by_cases hk : id.index = i
      · have : node.id = id := by rw [hid, ← hk]
        simp [hk, this]
      · have : node.id ≠ id := fun he => hk (by rw [← he, hid])
        simp [hk, this]

theorem Coherent.nodes_updateNode (h : n.Coherent) (id : NodeId) (kind : Kind)
    (fanins : List Fanin) :
    (n.updateNode id kind fanins).nodes =
      n.nodes.map fun node => if node.id = id then { node with kind, fanins } else node := by
  simp only [nodes, h.arena_updateNode, List.filterMap_map, List.map_filterMap]
  rfl

theorem Coherent.updateNode (h : n.Coherent) (id : NodeId) (kind : Kind) (fanins : List Fanin) :
    (n.updateNode id kind fanins).Coherent := by
  have hupdate : n.updateNode id kind fanins = { n with arena := _ } :=
    congrArg (fun arena => { n with arena }) (h.arena_updateNode id kind fanins)
  rw [hupdate]
  refine h.map_arena fun node => ?_
  split <;> rfl

theorem isSome_node?_updateNode {kind : Kind} {fanins : List Fanin} {other : NodeId} :
    ((n.updateNode id kind fanins).node? other).isSome = (n.node? other).isSome := by
  rw [node?, node?, updateNode, List.getElem?_modify]
  cases n.arena[other.index]? with
  | none => rfl
  | some slot => cases slot <;> split <;> rfl

/-- A node of an updated netlist is the updated one or was there before. -/
theorem Coherent.mem_nodes_updateNode (h : n.Coherent) (hm : node ∈ n.nodes) {kind : Kind}
    {fanins : List Fanin} {m : Node} :
    m ∈ (n.updateNode node.id kind fanins).nodes ↔
      m = { node with kind, fanins } ∨ m ∈ n.nodes ∧ m.id ≠ node.id := by
  rw [h.nodes_updateNode, List.mem_map]
  constructor
  · rintro ⟨old, hold, rfl⟩
    by_cases hid : old.id = node.id
    · rw [if_pos hid, h.eq_of_id hold hm hid]
      exact .inl rfl
    · rw [if_neg hid]
      exact .inr ⟨hold, hid⟩
  · rintro (rfl | ⟨hold, hid⟩)
    · exact ⟨node, hm, if_pos rfl⟩
    · exact ⟨m, hold, if_neg hid⟩

/-- Giving a node the kind and the fanins that it has changes nothing. -/
theorem Coherent.updateNode_self (h : n.Coherent) (hm : node ∈ n.nodes) :
    n.updateNode node.id node.kind node.fanins = n := by
  have harena : (n.updateNode node.id node.kind node.fanins).arena = n.arena := by
    rw [h.arena_updateNode]
    refine List.ext_getElem? fun i => ?_
    rw [List.getElem?_map]
    cases hi : n.arena[i]? with
    | none => rfl
    | some slot =>
      cases slot with
      | none => rfl
      | some m =>
        rw [Option.map_some, Option.map_some]
        split
        · next hid => rw [h.eq_of_id (mem_nodes_iff.2 ⟨i, hi⟩) hm hid]
        · rfl
  exact congrArg (fun arena => { n with arena }) harena

theorem Coherent.map_output_updateNode (h : n.Coherent) (id : NodeId) (kind : Kind)
    (fanins : List Fanin) :
    (n.updateNode id kind fanins).nodes.map Node.output = n.nodes.map Node.output := by
  rw [h.nodes_updateNode, List.map_map]
  refine List.map_congr_left fun node _ => ?_
  simp only [Function.comp_apply]
  split <;> rfl

/-- Updating a node leaves the same signals defined. -/
theorem Coherent.isDefined_updateNode (h : n.Coherent) (id : NodeId) (kind : Kind)
    (fanins : List Fanin) (signal : String) :
    (n.updateNode id kind fanins).isDefined signal = n.isDefined signal :=
  isDefined_congr (h.map_output_updateNode id kind fanins) rfl signal

/-- What it takes to replace a node, and what comes of it. -/
theorem replaceNode_eq_ok {kind : Kind} {fanins : List Fanin}
    (h : n.replaceNode id kind fanins = .ok n') :
    (∀ k, kind.arity? = some k → k = fanins.length) ∧ (n.node? id).isSome ∧
      n' = n.updateNode id kind fanins := by
  obtain ⟨u, harity, h⟩ := ok_of_bind h
  split at h
  · next hsome =>
    cases h
    exact ⟨checkArity_ok harity, hsome, rfl⟩
  · cases h

/-- A node may be replaced by anything with the right number of fanins. -/
theorem replaceNode_eq {kind : Kind} {fanins : List Fanin} (h : n.node? id = some node)
    (harity : ∀ k, kind.arity? = some k → k = fanins.length) :
    n.replaceNode id kind fanins = .ok (n.updateNode id kind fanins) := by
  rw [replaceNode, checkArity_eq_ok_iff.2 harity, h]
  rfl

@[simp] theorem nodes_redirect (n : Netlist) (sub : Substitution) :
    (n.redirect sub).1.nodes = n.nodes.map fun node =>
      { node with fanins := node.fanins.map (redirectFanin sub) } := by
  simp only [nodes, redirect, List.filterMap_map, List.map_filterMap]
  rfl

theorem Coherent.redirect (h : n.Coherent) (sub : Substitution) :
    (n.redirect sub).1.Coherent :=
  h.map_arena fun _ => rfl

theorem Coherent.rebuildWires (h : n.Coherent) : n.rebuildWires.Coherent :=
  ⟨h.place, h.widths_nodup, h.inputs_nodup, h.outputs_nodup⟩

end Netlist

end GateSynth
