import GateSynth.Proofs.Exchange.Decoding
import GateSynth.Proofs.Exchange.Importing

/-!
# Storing netlists and reading them again

The record of a netlist that was built by its operations can be read again, if no library cell has
a name that means something else in a record (`NamedCells`). What comes back is the same netlist
under the new identifiers (`Record.toNetlist_ofNetlist`): the same ports and widths, the nodes in
the same order, and the wires of its fanins. As nodes are listed by identifier, the new identifier
of a node is its rank (`renumber_eq_rank`), and once the nodes have their ranks they keep them. A
text that is decoded as the record that it encodes (`Codec.Faithful`), as a JSON text is, does the
same (`Netlist.read_write`).
-/

namespace GateSynth

namespace Netlist

variable {n : Netlist}

/-- No library cell has an empty name or the tag of another kind as its name. -/
def NamedCells (n : Netlist) : Prop :=
  ∀ node ∈ n.nodes, ∀ name init, node.kind = .cell name init →
    name ≠ "" ∧ Kind.isReservedTag name = false

/-- The identifiers have 32 bits and the ports of a node 64. -/
def Fits (n : Netlist) : Prop :=
  ∀ node ∈ n.nodes, node.id.index < UInt32.size ∧ node.fanins.length ≤ UInt64.size

/-- The identifier that counts the nodes before a node. -/
def rank (n : Netlist) (id : NodeId) : NodeId :=
  ⟨n.nodeIds.countP fun other => other.index < id.index⟩

/-- In a list that grows, as many elements are less than one of them as stand before it. -/
theorem countP_lt_of_pairwise {ids : List NodeId} (h : ids.Pairwise fun a b => a.index < b.index)
    {i : Nat} {id : NodeId} (hi : ids[i]? = some id) :
    ids.countP (fun other => other.index < id.index) = i := by
  induction ids generalizing i with
  | nil => simp at hi
  | cons first rest ih =>
    rw [List.pairwise_cons] at h
    cases i with
    | zero =>
      rw [List.getElem?_cons_zero, Option.some.injEq] at hi
      subst hi
      rw [List.countP_eq_zero]
      intro other hother
      rcases List.mem_cons.1 hother with rfl | hother
      · simp
      · simpa using Nat.le_of_lt (h.1 other hother)
    | succ i =>
      rw [List.getElem?_cons_succ] at hi
      have hlt := h.1 id (List.mem_of_getElem? hi)
      rw [List.countP_cons_of_pos (by simpa using hlt), ih h.2 hi]

/-- No more than `id.index` identifiers are less than `id`. -/
theorem Coherent.rank_le (h : n.Coherent) (id : NodeId) : (n.rank id).index ≤ id.index := by
  have hsub : ((n.nodeIds.filter fun other => other.index < id.index).map NodeId.index) ⊆
      List.range id.index := by
    intro i hi
    obtain ⟨other, hother, rfl⟩ := List.mem_map.1 hi
    exact List.mem_range.2 (by simpa using (List.mem_filter.1 hother).2)
  have hnodup : ((n.nodeIds.filter fun other => other.index < id.index).map NodeId.index).Nodup :=
    (h.nodeIds_nodup.filter _).map fun a b hab => by
      cases a
      cases b
      exact congrArg NodeId.mk hab
  simpa [rank, List.countP_eq_length_filter] using (hnodup.subperm hsub).length_le

theorem Coherent.pairwise_nodeIds (h : n.Coherent) :
    n.nodeIds.Pairwise fun a b => a.index < b.index := by
  rw [nodeIds, List.pairwise_map]
  exact h.pairwise_index

/-- The netlist without its nodes. -/
def shell (n : Netlist) : Netlist :=
  { Netlist.empty n.name with inputs := n.inputs, outputs := n.outputs, widths := n.widths }

theorem Consistent.shell (hn : n.Consistent) : n.shell.Consistent where
  place := fun h => by simp [Netlist.shell, Netlist.empty] at h
  widths_nodup := hn.widths_nodup
  inputs_nodup := hn.inputs_nodup
  outputs_nodup := hn.outputs_nodup
  arity := fun _ h => absurd h List.not_mem_nil
  single := .nil
  undriven := fun _ h => absurd h List.not_mem_nil
  inputs_declared := hn.inputs_declared
  outputs_declared := hn.outputs_declared

end Netlist

namespace Exchange

variable {n m : Netlist}

/-! ## Identifiers -/

theorem Record.keys_ofNetlist (n : Netlist) : (Record.ofNetlist n).nodes.keys = n.nodeIds := by
  rw [Record.ofNetlist, Table.keys, List.map_map]
  rfl

theorem Record.isSparse_ofNetlist_iff :
    (Record.ofNetlist n).IsSparse ↔ ∃ id ∈ n.nodeIds, n.nodeCount + sparseSlack ≤ id.index := by
  have hsize : (Record.ofNetlist n).nodes.size = n.nodeCount := by
    rw [Record.ofNetlist, Table.size, List.length_map]
    rfl
  rw [Record.IsSparse, Record.keys_ofNetlist, hsize]

/-- In the record of a netlist the nodes are renumbered by their rank. -/
theorem renumber_eq_rank (hc : n.Coherent) (h : (Record.ofNetlist n).IsSparse) {id : NodeId}
    (hid : id ∈ n.nodeIds) : renumber (Record.ofNetlist n).renumbering id = n.rank id := by
  obtain ⟨i, hi⟩ := List.mem_iff_getElem?.1 hid
  have hkeys : (Record.ofNetlist n).renumbering.keys = n.nodeIds := by
    rw [Record.keys_renumbering_of_sparse h, Record.keys_ofNetlist]
  have hfind : (Record.ofNetlist n).renumbering.find? id = some ⟨i⟩ := by
    rw [Table.find?_eq_some_iff (hkeys ▸ hc.nodeIds_nodup), Record.renumbering_of_sparse h,
      Record.keys_ofNetlist, List.mem_iff_getElem?]
    exact ⟨i, by simp [hi]⟩
  rw [renumber, hfind, Option.getD_some, Netlist.rank,
    Netlist.countP_lt_of_pairwise hc.pairwise_nodeIds hi]

theorem map_renumber_of_sparse (hc : n.Coherent) (h : (Record.ofNetlist n).IsSparse) :
    n.nodeIds.map (renumber (Record.ofNetlist n).renumbering) =
      (List.range n.nodeCount).map NodeId.mk := by
  have hrank : n.nodeIds.map (renumber (Record.ofNetlist n).renumbering) = n.nodeIds.map n.rank :=
    List.map_congr_left fun _ hid => renumber_eq_rank hc h hid
  rw [hrank]
  refine List.ext_getElem? fun i => ?_
  rw [List.getElem?_map, List.getElem?_map]
  cases hi : n.nodeIds[i]? with
  | none =>
    rw [List.getElem?_eq_none_iff, Netlist.nodeIds, List.length_map] at hi
    rw [List.getElem?_eq_none (by rw [List.length_range]; exact hi)]
    rfl
  | some id =>
    have hlt : i < n.nodeCount := by
      simpa [Netlist.nodeIds, Netlist.nodeCount] using (List.getElem?_eq_some_iff.1 hi).1
    rw [List.getElem?_range hlt, Option.map_some, Option.map_some, Netlist.rank,
      Netlist.countP_lt_of_pairwise hc.pairwise_nodeIds hi]

/-- The new identifiers come in the order of the old ones. -/
theorem pairwise_renumber (hc : n.Coherent) :
    (n.nodeIds.map (renumber (Record.ofNetlist n).renumbering)).Pairwise
      fun a b => a.index < b.index := by
  by_cases h : (Record.ofNetlist n).IsSparse
  · rw [map_renumber_of_sparse hc h, List.pairwise_map]
    exact List.pairwise_lt_range
  · rw [List.map_congr_left fun id _ => Record.renumber_of_not_sparse h id, List.map_id']
    exact hc.pairwise_nodeIds

/-! ## Ports and widths -/

/-- Declaring widths one after the other lists them. -/
theorem declareWidths_eq (widths : List (String × Width))
    (h : (m.widths.keys ++ widths.map Prod.fst).Nodup) :
    declareWidths (widths.map fun e => (e.1, e.2.bits)) m =
      .ok { m with widths := ⟨m.widths.entries ++ widths⟩ } := by
  induction widths generalizing m with
  | nil =>
    rw [List.append_nil]
    rfl
  | cons entry rest ih =>
    obtain ⟨signal, w⟩ := entry
    have hnew : signal ∉ m.widths.keys := fun hmem =>
      (List.nodup_append.1 h).2.2 signal hmem signal (.head _) rfl
    have hdeclare : m.declareWidth signal w.bits =
        .ok { m with widths := ⟨m.widths.entries ++ [(signal, w)]⟩ } := by
      rw [Netlist.declareWidth, Width.ofNat?_bits]
      simp only [Netlist.setWidth, Table.insert_of_not_mem hnew]
    rw [List.map_cons, declareWidths, hdeclare]
    refine (ih ?_).trans ?_
    · simpa [Table.keys] using h
    · simp

theorem setWidth_width {signal : String} (h : signal ∈ m.widths.keys) :
    m.setWidth signal (m.width signal) = m := by
  obtain ⟨w, hw⟩ := Option.isSome_iff_exists.1 (Table.find?_isSome_iff.2 h)
  have hwidth : m.width signal = w := by rw [Netlist.width, hw, Option.getD_some]
  rw [Netlist.setWidth, hwidth, Table.insert_of_find? hw]

theorem declareWidth_width {signal : String} (h : signal ∈ m.widths.keys) :
    m.declareWidth signal (m.width signal).bits = .ok m := by
  rw [Netlist.declareWidth, Width.ofNat?_bits]
  exact congrArg _ (setWidth_width h)

/-- Inputs whose widths are declared are only listed. -/
theorem declareInputs_eq {inputs : List String} (hnodes : m.nodes = [])
    (hnodup : (m.inputs ++ inputs).Nodup) (hdeclared : ∀ i ∈ inputs, i ∈ m.widths.keys) :
    declareInputs inputs m = .ok { m with inputs := m.inputs ++ inputs } := by
  induction inputs generalizing m with
  | nil =>
    rw [List.append_nil]
    rfl
  | cons input rest ih =>
    have hnew : input ∉ m.inputs := fun hmem =>
      (List.nodup_append.1 hnodup).2.2 input hmem input (.head _) rfl
    have hadd : m.addInput input (m.width input).bits =
        .ok { m with inputs := m.inputs ++ [input] } := by
      have hinput : m.isInput input = false := by simpa [Netlist.isInput] using hnew
      have hdriver : m.driver? input = none := by
        rw [Netlist.driver?_eq_none_iff, hnodes]
        exact fun _ h => absurd h List.not_mem_nil
      rw [Netlist.addInput, hinput, hdriver, declareWidth_width (hdeclared input (.head _))]
      rfl
    rw [declareInputs, hadd]
    refine (ih (m := { m with inputs := m.inputs ++ [input] }) hnodes ?_
      fun i hi => hdeclared i (.tail _ hi)).trans ?_
    · simpa using hnodup
    · simp

/-- Outputs whose widths are declared are only listed. -/
theorem declareOutputs_eq {outputs : List String} (hnodup : (m.outputs ++ outputs).Nodup)
    (hdeclared : ∀ o ∈ outputs, o ∈ m.widths.keys) :
    declareOutputs outputs m = .ok { m with outputs := m.outputs ++ outputs } := by
  induction outputs generalizing m with
  | nil =>
    rw [List.append_nil]
    rfl
  | cons output rest ih =>
    have hnew : output ∉ m.outputs := fun hmem =>
      (List.nodup_append.1 hnodup).2.2 output hmem output (.head _) rfl
    have hadd : m.addOutput output (m.width output).bits =
        .ok { m with outputs := m.outputs ++ [output] } := by
      have houtput : m.isOutput output = false := by simpa [Netlist.isOutput] using hnew
      rw [Netlist.addOutput, houtput, declareWidth_width (hdeclared output (.head _))]
      rfl
    rw [declareOutputs, hadd]
    refine (ih (m := { m with outputs := m.outputs ++ [output] }) ?_
      fun o ho => hdeclared o (.tail _ ho)).trans ?_
    · simpa using hnodup
    · simp

/-! ## Nodes -/

/-- The kind of a stored node is read back. -/
theorem NodeRecord.kind_ofNode {node : Node} (id : NodeId)
    (h : ∀ name init, node.kind = .cell name init →
      name ≠ "" ∧ Kind.isReservedTag name = false) :
    (NodeRecord.ofNode node).kind id = .ok node.kind := by
  obtain ⟨nid, kind, fanins, output⟩ := node
  cases kind with
  | op operator => simp [NodeRecord.kind, NodeRecord.ofNode, Kind.tag]
  | const value =>
    have htag : Operator.ofTag? Kind.constTag = none := by decide
    simp [NodeRecord.kind, NodeRecord.ofNode, Kind.tag, htag]
  | module name =>
    have htag : Operator.ofTag? Kind.moduleTag = none := by decide
    have hne : Kind.moduleTag ≠ Kind.constTag := by decide
    simp [NodeRecord.kind, NodeRecord.ofNode, Kind.tag, htag, hne]
  | cell name init =>
    obtain ⟨hempty, hreserved⟩ := h name init rfl
    simp only [Kind.isReservedTag, Bool.or_eq_false_iff, beq_eq_false_iff_ne,
      Option.isSome_eq_false_iff, Option.isNone_iff_eq_none] at hreserved
    obtain ⟨⟨hconst, hmodule⟩, htag⟩ := hreserved
    simp [NodeRecord.kind, NodeRecord.ofNode, Kind.tag, htag, hconst, hmodule, hempty]

theorem NodeRecord.fanins_ofNode (node : Node) : (NodeRecord.ofNode node).fanins = node.fanins := by
  obtain ⟨id, kind, fanins, output⟩ := node
  cases kind <;> rfl

theorem NodeRecord.output_ofNode (node : Node) : (NodeRecord.ofNode node).output = node.output := by
  obtain ⟨id, kind, fanins, output⟩ := node
  cases kind <;> rfl

/-- A node can be placed behind all others under a greater identifier. -/
theorem exists_placed (hm : m.Consistent) {ρ : NodeId → NodeId} {node : Node}
    (harity : ∀ k, node.kind.arity? = some k → k = node.fanins.length)
    (hlast : ∀ old ∈ m.nodes, old.id.index < (ρ node.id).index)
    (hsingle : node.output ∉ m.nodes.map Node.output) (hundriven : node.output ∉ m.inputs) :
    ∃ m', m.insertNode (ρ node.id) node.kind node.fanins node.output = .ok m' ∧
      m' = { m with arena := m'.arena } ∧ m'.nodes = m.nodes ++ [node.rename ρ] ∧
      m'.Consistent := by
  have hfree : m.isDefined node.output = false := by
    rw [← Bool.not_eq_true, Netlist.isDefined_iff, not_or]
    refine ⟨?_, hundriven⟩
    rintro ⟨old, hold, ho⟩
    exact hsingle (ho ▸ List.mem_map_of_mem hold)
  have hplace : m.node? (ρ node.id) = none := by
    rw [Option.eq_none_iff_forall_not_mem]
    intro old hold
    obtain ⟨hmem, hid⟩ := hm.node?_eq_some_iff.1 hold
    have hlt := hlast old hmem
    rw [hid] at hlt
    exact Nat.lt_irrefl _ hlt
  obtain ⟨m', hinsert⟩ : ∃ m',
      m.insertNode (ρ node.id) node.kind node.fanins node.output = .ok m' :=
    ⟨_, Netlist.insertNode_eq_ok_iff.2 ⟨harity, hfree, hplace, rfl⟩⟩
  obtain ⟨-, -, -, hframe⟩ := Netlist.insertNode_eq_ok_iff.1 hinsert
  exact ⟨m', hinsert, by rw [hframe], hm.nodes_insertNode_last hinsert hlast, hm.insertNode hinsert⟩

/-- Stored nodes can be placed one behind the other if their new identifiers grow. -/
theorem placeNodes_ofNode (table : Table NodeId NodeId) (nodes : List Node) (hm : m.Consistent)
    (hkind : ∀ node ∈ nodes, (NodeRecord.ofNode node).kind node.id = .ok node.kind)
    (harity : ∀ node ∈ nodes, ∀ k, node.kind.arity? = some k → k = node.fanins.length)
    (hids : (m.nodeIds ++ nodes.map fun node => renumber table node.id).Pairwise
      fun a b => a.index < b.index)
    (hsingle : ((m.nodes ++ nodes).map Node.output).Nodup)
    (hundriven : ∀ node ∈ nodes, node.output ∉ m.inputs) :
    ∃ m', placeNodes table (nodes.map fun node => (node.id, NodeRecord.ofNode node)) m = .ok m' ∧
      m' = { m with arena := m'.arena } ∧
      m'.nodes = m.nodes ++ nodes.map (Node.rename (renumber table)) ∧ m'.Consistent := by
  induction nodes generalizing m with
  | nil => exact ⟨m, rfl, rfl, by simp, hm⟩
  | cons node rest ih =>
    rw [List.forall_mem_cons] at hkind harity hundriven
    have hlast : ∀ old ∈ m.nodes, old.id.index < (renumber table node.id).index := fun old hold =>
      (List.pairwise_append.1 hids).2.2 _ (List.mem_map_of_mem hold) _ (.head _)
    have hnew : node.output ∉ m.nodes.map Node.output := by
      rw [List.map_append, List.nodup_append] at hsingle
      exact fun hmem => hsingle.2.2 _ hmem _ (.head _) rfl
    obtain ⟨m₁, hinsert, hframe, hnodes, hm₁⟩ :=
      exists_placed hm harity.1 hlast hnew hundriven.1
    obtain ⟨m', hrest, hframe', hnodes', hm'⟩ := ih hm₁ hkind.2 harity.2
      (by rw [Netlist.nodeIds, hnodes]; simpa [Netlist.nodeIds, Node.rename] using hids)
      (by rw [hnodes]; simpa [Node.rename] using hsingle)
      (by rw [hframe]; exact hundriven.2)
    refine ⟨m', ?_, ?_, ?_, hm'⟩
    · rw [List.map_cons, placeNodes, hkind.1, NodeRecord.fanins_ofNode, NodeRecord.output_ofNode]
      exact (congrArg (· >>= _) hinsert).trans hrest
    · rw [hframe', hframe]
    · rw [hnodes', hnodes, List.append_assoc]
      rfl

/-! ## The whole record -/

/-- The record with other names for the nodes. -/
def Record.rename (ρ : NodeId → NodeId) (r : Record) : Record :=
  { r with
    nodes := ⟨r.nodes.entries.map fun e => (ρ e.1, e.2)⟩
    wires := r.wires.map fun wires => wires.map (Wire.rename ρ) }

theorem Record.rename_id (r : Record) : r.rename id = r := by
  have hentry : (fun e : NodeId × NodeRecord => (id e.1, e.2)) = id := rfl
  have hwire : Wire.rename id = id := rfl
  have hwires : (fun wires : List Wire => wires.map id) = id := funext List.map_id
  rw [Record.rename, hentry, hwire, hwires, List.map_id, Option.map_id]
  rfl

/-- The record of a renamed netlist is the renamed record. -/
theorem Record.ofNetlist_renamed {ρ : NodeId → NodeId} (h : Netlist.Renamed ρ n m)
    (hname : m.name = n.name) : Record.ofNetlist m = (Record.ofNetlist n).rename ρ := by
  rw [Record.ofNetlist, hname, h.inputs, h.outputs, h.widths, h.derivedWires, h.nodes, List.map_map]
  simp only [Record.ofNetlist, Record.rename, List.map_map]
  rfl

theorem Record.shell_ofNetlist (hn : n.Consistent) :
    (Record.ofNetlist n).shell = .ok n.shell := by
  have hwidths : declareWidths (Record.ofNetlist n).widths.entries (Netlist.empty n.name) =
      .ok { Netlist.empty n.name with widths := n.widths } :=
    declareWidths_eq (m := Netlist.empty n.name) n.widths.entries hn.widths_nodup
  have hinputs : declareInputs n.inputs { Netlist.empty n.name with widths := n.widths } =
      .ok { Netlist.empty n.name with inputs := n.inputs, widths := n.widths } :=
    declareInputs_eq (m := { Netlist.empty n.name with widths := n.widths }) rfl hn.inputs_nodup
      hn.inputs_declared
  have houtputs : declareOutputs n.outputs
      { Netlist.empty n.name with inputs := n.inputs, widths := n.widths } = .ok n.shell :=
    declareOutputs_eq (m := { Netlist.empty n.name with inputs := n.inputs, widths := n.widths })
      hn.outputs_nodup hn.outputs_declared
  calc (Record.ofNetlist n).shell
      = (declareInputs n.inputs { Netlist.empty n.name with widths := n.widths } >>=
          declareOutputs n.outputs) := congrArg (· >>= _) hwidths
    _ = declareOutputs n.outputs
          { Netlist.empty n.name with inputs := n.inputs, widths := n.widths } :=
        congrArg (· >>= _) hinputs
    _ = .ok n.shell := houtputs

/-- The frame of the record of a netlist is the netlist under the new identifiers. -/
theorem Record.frame_ofNetlist (hn : n.Consistent) (hcells : n.NamedCells) :
    ∃ m, (Record.ofNetlist n).frame = .ok m ∧ m.name = n.name ∧
      Netlist.Renamed (renumber (Record.ofNetlist n).renumbering) n m := by
  have hempty : n.shell.nodes = [] := rfl
  have hids := pairwise_renumber hn.toCoherent
  obtain ⟨m, hplace, hframe, hnodes, -⟩ :=
    placeNodes_ofNode (Record.ofNetlist n).renumbering n.nodes
      hn.shell (fun node hnode => NodeRecord.kind_ofNode node.id (hcells node hnode))
      hn.arity (by simpa [Netlist.nodeIds, hempty, Function.comp_def] using hids)
      (by rw [hempty, List.nil_append]; exact hn.single) hn.undriven
  have hinjOn : Set.InjOn (renumber (Record.ofNetlist n).renumbering) {id | id ∈ n.nodeIds} := by
    intro a ha b hb hab
    refine List.inj_on_of_nodup_map (hids.imp ?_) ha hb hab
    rintro a b hlt rfl
    exact Nat.lt_irrefl _ hlt
  refine ⟨m, ?_, ?_, hinjOn, ?_, ?_, ?_, hnodes⟩
  · rw [Record.frame, Record.shell_ofNetlist hn]
    exact hplace
  all_goals
    rw [hframe]
    rfl

/-- The record of a netlist that was built by its operations is read, and gives the netlist under
the new identifiers. -/
theorem Record.toNetlist_ofNetlist (hn : n.Consistent) (hcells : n.NamedCells) :
    ∃ m, (Record.ofNetlist n).toNetlist = .ok m ∧ m.name = n.name ∧
      Netlist.Renamed (renumber (Record.ofNetlist n).renumbering) n m := by
  obtain ⟨m, hframe, hname, hrenamed⟩ := Record.frame_ofNetlist hn hcells
  have hwires : n.derivedWires.map (Wire.rename (renumber (Record.ofNetlist n).renumbering)) =
      m.derivedWires := hrenamed.derivedWires.symm
  refine ⟨{ m with wires := m.derivedWires }, ?_, hname, hrenamed.injOn, hrenamed.inputs,
    hrenamed.outputs, hrenamed.widths, hrenamed.nodes⟩
  rw [Record.toNetlist_eq, hframe]
  have hchecked : ({ m with wires := m.derivedWires }).checkWires = .ok () :=
    Netlist.checkWires_of_derived rfl
  show (do
    let n := { m with wires := n.derivedWires.map (Wire.rename (renumber (Record.ofNetlist n).renumbering)) }
    n.checkWires
    return n) = _
  rw [hwires]
  exact bind_eq_ok_iff.2 ⟨hchecked, rfl⟩

/-- Nodes are placed one behind the other. -/
theorem placeNodes_append (table : Table NodeId NodeId) (first rest : List (NodeId × NodeRecord)) :
    placeNodes table (first ++ rest) m = placeNodes table first m >>= placeNodes table rest := by
  induction first generalizing m with
  | nil => rfl
  | cons entry first ih =>
    obtain ⟨id, r⟩ := entry
    rw [List.cons_append, placeNodes, placeNodes]
    simp only [ih, bind_assoc]

theorem NodeRecord.kind_of_nameless {node : Node} {init : Option Word}
    (hkind : node.kind = .cell "" init) :
    (NodeRecord.ofNode node).kind node.id =
      .error (.record s!"node {node.id} has an empty type") := by
  obtain ⟨id, kind, fanins, output⟩ := node
  obtain rfl : kind = .cell "" init := hkind
  have htag : Operator.ofTag? "" = none := by decide
  have hconst : "" ≠ Kind.constTag := by decide
  have hmodule : "" ≠ Kind.moduleTag := by decide
  simp [NodeRecord.kind, NodeRecord.ofNode, Kind.tag, htag, hconst, hmodule]

/-- The record of a netlist is not read if a library cell has no name; the first such node is to
blame. -/
theorem Record.toNetlist_of_nameless (hn : n.Consistent) {before after : List Node} {node : Node}
    (hnodes : n.nodes = before ++ node :: after)
    (hcells : ∀ k ∈ before, ∀ name init, k.kind = .cell name init →
      name ≠ "" ∧ Kind.isReservedTag name = false)
    {init : Option Word} (hkind : node.kind = .cell "" init) :
    (Record.ofNetlist n).toNetlist = .error (.record s!"node {node.id} has an empty type") := by
  have hsub : List.Sublist before n.nodes := hnodes ▸ List.sublist_append_left _ _
  have hempty : n.shell.nodes = [] := rfl
  have hids : (before.map fun k => renumber (Record.ofNetlist n).renumbering k.id).Pairwise
      fun a b => a.index < b.index := by
    refine (pairwise_renumber hn.toCoherent).sublist ?_
    rw [Netlist.nodeIds, List.map_map]
    exact hsub.map _
  obtain ⟨m, hplace, -⟩ := placeNodes_ofNode (Record.ofNetlist n).renumbering before hn.shell
    (fun k hk => NodeRecord.kind_ofNode k.id (hcells k hk))
    (fun k hk => hn.arity k (hsub.subset hk))
    (by simpa [Netlist.nodeIds, hempty] using hids)
    (by rw [hempty, List.nil_append]; exact hn.single.sublist (hsub.map _))
    fun k hk => hn.undriven k (hsub.subset hk)
  have hframe : (Record.ofNetlist n).frame =
      .error (.record s!"node {node.id} has an empty type") := by
    rw [Record.frame, Record.shell_ofNetlist hn]
    show placeNodes (Record.ofNetlist n).renumbering
      (n.nodes.map fun k => (k.id, NodeRecord.ofNode k)) n.shell = _
    rw [hnodes, List.map_append, placeNodes_append, hplace, List.map_cons]
    show placeNodes _ ((node.id, NodeRecord.ofNode node) :: _) m = _
    rw [placeNodes, NodeRecord.kind_of_nameless hkind]
    rfl
  rw [Record.toNetlist_eq, hframe]
  rfl

/-- The record stays as it is if the identifiers do, and has the ranks for identifiers if not. -/
theorem Record.ofNetlist_of_renumbered (hc : n.Coherent) (hname : m.name = n.name)
    (h : Netlist.Renamed (renumber (Record.ofNetlist n).renumbering) n m) :
    (¬ (Record.ofNetlist n).IsSparse → Record.ofNetlist m = Record.ofNetlist n) ∧
      ((Record.ofNetlist n).IsSparse →
        Record.ofNetlist m = (Record.ofNetlist n).rename n.rank) := by
  constructor
  · intro hdense
    have hid : Netlist.Renamed id n m :=
      h.congr fun a _ => (Record.renumber_of_not_sparse hdense a).symm
    rw [Record.ofNetlist_renamed hid hname, Record.rename_id]
  · intro hsparse
    have hrank : Netlist.Renamed n.rank n m :=
      h.congr fun a ha => (renumber_eq_rank hc hsparse ha).symm
    exact Record.ofNetlist_renamed hrank hname

/-- After a round trip no identifier lies too far out. -/
theorem Record.not_isSparse_of_renumbered (hc : n.Coherent)
    (h : Netlist.Renamed (renumber (Record.ofNetlist n).renumbering) n m) :
    ¬ (Record.ofNetlist m).IsSparse := by
  rw [Record.isSparse_ofNetlist_iff, h.nodeIds, h.nodeCount]
  by_cases hsparse : (Record.ofNetlist n).IsSparse
  · rw [map_renumber_of_sparse hc hsparse]
    rintro ⟨id, hid, hge⟩
    obtain ⟨i, hi, rfl⟩ := List.mem_map.1 hid
    have := List.mem_range.1 hi
    simp only at hge
    omega
  · rw [List.map_congr_left fun id _ => Record.renumber_of_not_sparse hsparse id, List.map_id',
      ← Record.isSparse_ofNetlist_iff]
    exact hsparse

theorem namedCells_of_renamed {ρ : NodeId → NodeId} (h : Netlist.Renamed ρ n m)
    (hcells : n.NamedCells) : m.NamedCells := by
  intro node hnode
  rw [h.nodes] at hnode
  obtain ⟨old, hold, rfl⟩ := List.mem_map.1 hnode
  exact hcells old hold

/-! ## The text of a netlist -/

theorem Record.encodable_ofNetlist (hc : n.Coherent) (hfits : n.Fits) :
    (Record.ofNetlist n).Encodable where
  nodes_nodup := by
    rw [Record.keys_ofNetlist]
    exact hc.nodeIds_nodup
  ids := by
    rw [Record.keys_ofNetlist]
    intro id hid
    obtain ⟨node, hnode, rfl⟩ := List.mem_map.1 hid
    exact (hfits node hnode).1
  wires := by
    rintro wires hwires w hw
    cases hwires
    obtain ⟨node, hnode, hw⟩ := List.mem_flatMap.1 hw
    obtain ⟨port, hport, rfl⟩ := List.mem_mapIdx.1 hw
    exact ⟨(hfits node hnode).1, Nat.lt_of_lt_of_le hport (hfits node hnode).2⟩
  widths_nodup := by
    rw [Record.ofNetlist, Table.keys, List.map_map]
    exact hc.widths_nodup
  widths := by
    intro e he
    obtain ⟨entry, -, rfl⟩ := List.mem_map.1 he
    exact Nat.lt_of_le_of_lt entry.2.le (by decide)

/-- The new identifiers are in range if the old ones are. -/
theorem fits_of_renumbered (hc : n.Coherent) (hfits : n.Fits)
    (h : Netlist.Renamed (renumber (Record.ofNetlist n).renumbering) n m) : m.Fits := by
  intro node hnode
  rw [h.nodes] at hnode
  obtain ⟨old, hold, rfl⟩ := List.mem_map.1 hnode
  refine ⟨Nat.lt_of_le_of_lt ?_ (hfits old hold).1, (hfits old hold).2⟩
  show (renumber (Record.ofNetlist n).renumbering old.id).index ≤ old.id.index
  by_cases hsparse : (Record.ofNetlist n).IsSparse
  · rw [renumber_eq_rank hc hsparse (List.mem_map_of_mem hold)]
    exact hc.rank_le old.id
  · rw [Record.renumber_of_not_sparse hsparse]

/-- A record whose numbers and keys are in order is decoded as it is encoded. -/
def Codec.Faithful (c : Codec) : Prop := ∀ r : Record, r.Encodable → c.decode (c.encode r) = some r

theorem Codec.json_faithful : Codec.json.Faithful := by
  intro r h
  rw [Codec.json_encode, Codec.json_decode]
  exact Record.decode_render h

/-- The text of a netlist is read as the record of the netlist is. -/
theorem Codec.Faithful.read_eq {c : Codec} (h : c.Faithful) (hc : n.Coherent) (hfits : n.Fits) :
    c.read (c.write n) = (Record.ofNetlist n).toNetlist := by
  rw [Codec.read, Codec.write, h _ (Record.encodable_ofNetlist hc hfits)]

end Exchange

open Exchange in
/-- A netlist that was built by its operations is read back from its text, in the JSON format and in
any other that decodes what it encodes. Its record is the same, or has the ranks of the nodes for
identifiers if one of these lies too far out; it puts out the same values; and reading it back once
more changes nothing. -/
theorem Netlist.read_write {n : Netlist} (hbuilt : n.Built) (hcells : n.NamedCells)
    (hfits : n.Fits) :
    Codec.json.Faithful ∧ ∀ c : Codec, c.Faithful → ∃ m, c.read (c.write n) = .ok m ∧
      ((∀ id ∈ n.nodeIds, id.index < n.nodeCount + sparseSlack) →
        Record.ofNetlist m = Record.ofNetlist n) ∧
      ((∃ id ∈ n.nodeIds, n.nodeCount + sparseSlack ≤ id.index) →
        Record.ofNetlist m = (Record.ofNetlist n).rename n.rank) ∧
      m.Reproduces n ∧
      ∃ m', c.read (c.write m) = .ok m' ∧ Record.ofNetlist m' = Record.ofNetlist m := by
  refine ⟨Codec.json_faithful, fun c hcodec => ?_⟩
  have hn := hbuilt.consistent
  obtain ⟨m, hm, hname, hrenamed⟩ := Record.toNetlist_ofNetlist hn hcells
  have hmc := Record.consistent_of_toNetlist hm
  have hmfits := fits_of_renumbered hn.toCoherent hfits hrenamed
  obtain ⟨m', hm', hname', hrenamed'⟩ :=
    Record.toNetlist_ofNetlist hmc (namedCells_of_renamed hrenamed hcells)
  obtain ⟨hdense, hsparse⟩ := Record.ofNetlist_of_renumbered hn.toCoherent hname hrenamed
  rw [Record.isSparse_ofNetlist_iff] at hdense hsparse
  refine ⟨m, (hcodec.read_eq hn.toCoherent hfits).trans hm, fun hnear => hdense ?_, hsparse,
    hrenamed.reproduces hn.toCoherent hmc.toCoherent, m',
    (hcodec.read_eq hmc.toCoherent hmfits).trans hm', ?_⟩
  · rintro ⟨id, hid, hfar⟩
    exact absurd (hnear id hid) (Nat.not_lt.2 hfar)
  · exact (Record.ofNetlist_of_renumbered hmc.toCoherent hname' hrenamed').1
      (Record.not_isSparse_of_renumbered hn.toCoherent hrenamed)

namespace FarCell

/-- A library cell far behind a buffer that nothing reads. -/
def record : Exchange.Record where
  name := "far"
  inputs := ["a"]
  outputs := ["y"]
  nodes := ⟨[(⟨3⟩, ⟨"BUF", [.plain "a"], "t", none, none, none⟩),
    (⟨1025⟩, ⟨"INV_X1", [⟨"a", true⟩], "y", none, none, none⟩)]⟩
  wires := none
  widths := Table.empty

/-- The netlist of the record. -/
def netlist : Netlist :=
  let buffer : Node := ⟨⟨3⟩, .op .buf, [.plain "a"], "t"⟩
  let inverter : Node := ⟨⟨1025⟩, .cell "INV_X1" none, [⟨"a", true⟩], "y"⟩
  { name := "far"
    inputs := ["a"]
    outputs := ["y"]
    widths := ⟨[("a", .one), ("y", .one)]⟩
    arena := List.replicate 3 none ++ [some buffer] ++ List.replicate 1021 none ++ [some inverter]
    wires := [⟨"a", ⟨3⟩, 0⟩, ⟨"a", ⟨1025⟩, 0⟩]
    nextFresh := 0 }

/-- The netlist once the buffer is erased; its wires are no longer right, and the cell lies too
far out. -/
def erased : Netlist := netlist.eraseNode ⟨3⟩

theorem built_erased : erased.Built :=
  .eraseNode ⟨3⟩ (.ofRecord (r := record) (by decide +kernel))

end FarCell

open Exchange in
theorem Netlist.read_write_farCell :
    (∃ id ∈ FarCell.erased.nodeIds, FarCell.erased.nodeCount + sparseSlack ≤ id.index) ∧
      ∃ m, Netlist.ofJson FarCell.erased.toJson = .ok m ∧
        Record.ofNetlist m = (Record.ofNetlist FarCell.erased).rename FarCell.erased.rank ∧
        m.Reproduces FarCell.erased := by
  have hnodes : FarCell.erased.nodes = [⟨⟨1025⟩, .cell "INV_X1" none, [⟨"a", true⟩], "y"⟩] := by
    decide +kernel
  have hcells : FarCell.erased.NamedCells := by
    intro node hnode name init hkind
    rw [hnodes, List.mem_singleton] at hnode
    subst hnode
    cases hkind
    decide
  have hfits : FarCell.erased.Fits := by
    intro node hnode
    rw [hnodes, List.mem_singleton] at hnode
    subst hnode
    decide
  have hfar : ∃ id ∈ FarCell.erased.nodeIds, FarCell.erased.nodeCount + sparseSlack ≤ id.index := by
    rw [nodeIds, nodeCount, hnodes]
    exact ⟨⟨1025⟩, by decide, by decide⟩
  obtain ⟨hjson, hread⟩ := Netlist.read_write FarCell.built_erased hcells hfits
  obtain ⟨m, hm, -, hrank, hsame, -⟩ := hread .json hjson
  exact ⟨hfar, m, hm, hrank hfar, hsame⟩

end GateSynth
