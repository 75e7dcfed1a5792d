import GateSynth.Netlist.Exchange
import GateSynth.Proofs.Netlist.Construction
import GateSynth.Proofs.Netlist.Renaming
import Mathlib.Data.String.Basic

/-!
# Reading records

A record is read in two parts. Its ports, widths and nodes are declared one after the other, and
what comes of it is known up to the order of the nodes: one node for each entry, under its new
identifier (`Record.frame_spec`). Then the wires, where there are any, are compared with those of
the fanins, both under their new identifiers (`checkWires_eq_ok_iff`).

Both lists go through `renumber`, which keeps an identifier that it does not know. So the wires
that are accepted need not be those of the record: `Record.toNetlist_wires` says which wires are
accepted, and that they are the wires of the record if and only if they all end in nodes of the
record.

`Netlist.Built` is what the operations on netlists and the reading of records can build.
-/

namespace GateSynth

/-! ## Comparing wires -/

namespace Wire

theorem le_total (a b : Wire) : (a.le b || b.le a) = true := by
  simp only [le]
  rcases lt_trichotomy a.source b.source with h | h | h
  · simp [h]
  · simp [h]
    omega
  · simp [h]

theorem le_trans (a b c : Wire) (hab : a.le b = true) (hbc : b.le c = true) : a.le c = true := by
  simp only [le, Bool.or_eq_true, decide_eq_true_eq, Bool.and_eq_true, beq_iff_eq] at *
  rcases hab with hab | ⟨hab, hab'⟩ <;> rcases hbc with hbc | ⟨hbc, hbc'⟩
  · exact .inl (lt_trans hab hbc)
  · exact .inl (hbc ▸ hab)
  · exact .inl (hab ▸ hbc)
  · exact .inr ⟨hab.trans hbc, by omega⟩

theorem le_antisymm {a b : Wire} (hab : a.le b = true) (hba : b.le a = true) : a = b := by
  obtain ⟨source, ⟨i⟩, port⟩ := a
  obtain ⟨source', ⟨j⟩, port'⟩ := b
  simp only [le] at hab hba
  rcases lt_trichotomy source source' with h | h | h
  · simp [h.ne', lt_asymm h] at hba
  · simp [h] at hab hba ⊢
    omega
  · simp [h.ne', lt_asymm h] at hab

end Wire

/-- The stored wires are accepted if they are those of the fanins in some order. -/
theorem Netlist.checkWires_eq_ok_iff {n : Netlist} :
    n.checkWires = .ok () ↔ n.wires.Perm n.derivedWires := by
  have hsorted : sortedWires n.wires = sortedWires n.derivedWires ↔
      n.wires.Perm n.derivedWires := by
    constructor
    · intro h
      refine (List.mergeSort_perm n.wires Wire.le).symm.trans ?_
      rw [← sortedWires, h]
      exact List.mergeSort_perm _ _
    · intro h
      have hperm : (sortedWires n.wires).Perm (sortedWires n.derivedWires) :=
        (List.mergeSort_perm _ _).trans (h.trans (List.mergeSort_perm _ _).symm)
      exact hperm.eq_of_pairwise (fun _ _ _ _ => Wire.le_antisymm)
        (List.pairwise_mergeSort Wire.le_trans Wire.le_total _)
        (List.pairwise_mergeSort Wire.le_trans Wire.le_total _)
  rw [← hsorted, checkWires]
  split
  · next h => simp [h]
  · next h => simp [h]

namespace Exchange

variable {r : Record} {table : Table NodeId NodeId} {n n' : Netlist}

/-! ## Ports and widths -/

theorem declareWidths_keeps {entries : List (String × Nat)} (h : n.Consistent)
    (hn' : declareWidths entries n = .ok n') : n'.Consistent ∧ n'.nodes = n.nodes := by
  induction entries generalizing n with
  | nil =>
    cases hn'
    exact ⟨h, rfl⟩
  | cons entry rest ih =>
    obtain ⟨m, hm, hrest⟩ := ok_of_bind hn'
    obtain ⟨hn', hnodes⟩ := ih (h.declareWidth hm) hrest
    obtain ⟨w, -, rfl⟩ := Netlist.eq_of_declareWidth hm
    exact ⟨hn', hnodes⟩

theorem declareInputs_keeps {inputs : List String} (h : n.Consistent)
    (hn' : declareInputs inputs n = .ok n') : n'.Consistent ∧ n'.nodes = n.nodes := by
  induction inputs generalizing n with
  | nil =>
    cases hn'
    exact ⟨h, rfl⟩
  | cons input rest ih =>
    obtain ⟨m, hm, hrest⟩ := ok_of_bind hn'
    obtain ⟨hn', hnodes⟩ := ih (h.addInput hm) hrest
    obtain ⟨-, w, -, rfl⟩ := Netlist.addInput_eq_ok hm
    exact ⟨hn', hnodes⟩

theorem declareOutputs_keeps {outputs : List String} (h : n.Consistent)
    (hn' : declareOutputs outputs n = .ok n') : n'.Consistent ∧ n'.nodes = n.nodes := by
  induction outputs generalizing n with
  | nil =>
    cases hn'
    exact ⟨h, rfl⟩
  | cons output rest ih =>
    obtain ⟨m, hm, hrest⟩ := ok_of_bind hn'
    obtain ⟨hn', hnodes⟩ := ih (h.addOutput hm) hrest
    obtain ⟨-, w, -, rfl⟩ := Netlist.addOutput_eq_ok hm
    exact ⟨hn', hnodes⟩

/-! ## Nodes -/

/-- The node is the one that an entry of a record describes. -/
structure Describes (table : Table NodeId NodeId) (entry : NodeId × NodeRecord) (node : Node) :
    Prop where
  id : node.id = renumber table entry.1
  kind : entry.2.kind entry.1 = .ok node.kind
  fanins : node.fanins = entry.2.fanins
  output : node.output = entry.2.output

theorem Describes.eq_rename {entry : NodeId × NodeRecord} {node : Node}
    (h : Describes table entry node) :
    node = Node.rename (renumber table) ⟨entry.1, node.kind, entry.2.fanins, entry.2.output⟩ := by
  rw [Node.rename, ← h.id, ← h.fanins, ← h.output]

/-- Placing the nodes of a record changes nothing but the arena, and adds the nodes that the
entries describe. -/
theorem placeNodes_spec {entries : List (NodeId × NodeRecord)} (h : n.Consistent)
    (hn' : placeNodes table entries n = .ok n') :
    n'.Consistent ∧ n' = { n with arena := n'.arena } ∧
      ∃ added, List.Forall₂ (Describes table) entries added ∧ n'.nodes.Perm (n.nodes ++ added) := by
  induction entries generalizing n with
  | nil =>
    cases hn'
    exact ⟨h, rfl, [], .nil, by simp⟩
  | cons entry rest ih =>
    obtain ⟨id, stored⟩ := entry
    obtain ⟨kind, hkind, hn'⟩ := ok_of_bind hn'
    obtain ⟨m, hm, hrest⟩ := ok_of_bind hn'
    obtain ⟨hconsistent, hframe, added, hadded, hperm⟩ := ih (h.insertNode hm) hrest
    have hnodes := h.nodes_insertNode hm
    obtain ⟨-, -, -, rfl⟩ := Netlist.insertNode_eq_ok_iff.1 hm
    refine ⟨hconsistent, hframe, ⟨renumber table id, kind, stored.fanins, stored.output⟩ :: added,
      .cons ⟨rfl, hkind, rfl, rfl⟩ hadded, ?_⟩
    rw [List.append_cons]
    exact hperm.trans (hnodes.append_right added)

/-! ## The frame of a record -/

/-- The netlist of a record before it has nodes. -/
def Record.shell (r : Record) : Except NetlistError Netlist := do
  let n ← declareWidths r.widths.entries (Netlist.empty r.name)
  let n ← declareInputs r.inputs n
  declareOutputs r.outputs n

/-- The netlist of a record before its wires are looked at. -/
def Record.frame (r : Record) : Except NetlistError Netlist :=
  r.shell >>= placeNodes r.renumbering r.nodes.entries

/-- What is left to do once the frame of a record is there. -/
theorem Record.toNetlist_eq (r : Record) :
    r.toNetlist = r.frame >>= fun n =>
      match r.wires with
      | some wires => do
        let n := { n with wires := wires.map (Wire.rename (renumber r.renumbering)) }
        n.checkWires
        return n
      | none => return n.rebuildWires := by
  simp only [Record.toNetlist, Record.frame, Record.shell, bind_assoc]
  rfl

/-- A frame has one node for each entry of the record. -/
theorem Record.frame_spec (h : r.frame = .ok n) :
    n.Consistent ∧ ∃ described, List.Forall₂ (Describes r.renumbering) r.nodes.entries described ∧
      n.nodes.Perm described := by
  obtain ⟨n₃, hshell, h⟩ := ok_of_bind h
  obtain ⟨n₁, h₁, hshell⟩ := ok_of_bind hshell
  obtain ⟨n₂, h₂, h₃⟩ := ok_of_bind hshell
  obtain ⟨hc₁, hnodes₁⟩ := declareWidths_keeps (.empty r.name) h₁
  obtain ⟨hc₂, hnodes₂⟩ := declareInputs_keeps hc₁ h₂
  obtain ⟨hc₃, hnodes₃⟩ := declareOutputs_keeps hc₂ h₃
  obtain ⟨hc, -, described, hdescribed, hperm⟩ := placeNodes_spec hc₃ h
  have hempty : n₃.nodes = [] := by
    rw [hnodes₃, hnodes₂, hnodes₁]
    rfl
  rw [hempty, List.nil_append] at hperm
  exact ⟨hc, described, hdescribed, hperm⟩

theorem Record.consistent_of_toNetlist (h : r.toNetlist = .ok n) : n.Consistent := by
  rw [Record.toNetlist_eq] at h
  obtain ⟨m, hm, h⟩ := ok_of_bind h
  obtain ⟨hc, -⟩ := Record.frame_spec hm
  split at h
  · obtain ⟨-, h⟩ := bind_eq_ok_iff.1 h
    cases h
    exact hc.of_nodes ⟨hc.place, hc.widths_nodup, hc.inputs_nodup, hc.outputs_nodup⟩ rfl rfl rfl
      fun _ _ hs => hs
  · cases h
    exact hc.rebuildWires

/-! ## The wires of a record -/

/-- The wires of the fanins of a record, under the identifiers of the record. -/
def Record.ownWires (r : Record) : List Wire :=
  r.nodes.entries.flatMap fun e => e.2.fanins.mapIdx fun port f => ⟨f.signal, e.1, port⟩

theorem Record.node_mem_keys_of_ownWires {w : Wire} (h : w ∈ r.ownWires) :
    w.node ∈ r.nodes.keys := by
  obtain ⟨e, he, hw⟩ := List.mem_flatMap.1 h
  obtain ⟨port, hport, rfl⟩ := List.mem_mapIdx.1 hw
  exact List.mem_map_of_mem he

/-- The wires of the nodes that entries describe are those of the entries, renumbered. -/
theorem flatMap_nodeWires_of_describes {entries : List (NodeId × NodeRecord)} {nodes : List Node}
    (h : List.Forall₂ (Describes table) entries nodes) :
    nodes.flatMap Netlist.nodeWires =
      (entries.flatMap fun e => e.2.fanins.mapIdx fun port f =>
        (⟨f.signal, e.1, port⟩ : Wire)).map (Wire.rename (renumber table)) := by
  induction h with
  | nil => rfl
  | cons hdescribes _ ih =>
    rw [List.flatMap_cons, List.flatMap_cons, List.map_append, ih, hdescribes.eq_rename,
      Netlist.nodeWires_rename]
    rfl

theorem Record.derivedWires_frame (h : r.frame = .ok n) :
    n.derivedWires.Perm (r.ownWires.map (Wire.rename (renumber r.renumbering))) := by
  obtain ⟨-, described, hdescribed, hperm⟩ := Record.frame_spec h
  rw [Record.ownWires, ← flatMap_nodeWires_of_describes hdescribed]
  exact hperm.flatMap_right _

/-- A record with wires is read if the record without them is and the wires are, under the new
identifiers, those of its fanins. -/
theorem Record.toNetlist_isOk_iff {wires : List Wire} (hw : r.wires = some wires) :
    (∃ n, r.toNetlist = .ok n) ↔ (∃ n, { r with wires := none }.toNetlist = .ok n) ∧
      (wires.map (Wire.rename (renumber r.renumbering))).Perm
        (r.ownWires.map (Wire.rename (renumber r.renumbering))) := by
  have hframe : { r with wires := none }.frame = r.frame := rfl
  rw [Record.toNetlist_eq, Record.toNetlist_eq, hframe, hw]
  cases h : r.frame with
  | error e => simp [bind, Except.bind]
  | ok n =>
    have hcheck : ({ n with wires := wires.map (Wire.rename (renumber r.renumbering)) }).checkWires =
          .ok () ↔
        (wires.map (Wire.rename (renumber r.renumbering))).Perm
          (r.ownWires.map (Wire.rename (renumber r.renumbering))) := by
      rw [Netlist.checkWires_eq_ok_iff]
      exact (Record.derivedWires_frame h).congr_right _
    have hok : ∀ m : Netlist, (∃ n', (Except.ok m : Except NetlistError Netlist) = .ok n') :=
      fun m => ⟨m, rfl⟩
    rw [← hcheck]
    constructor
    · rintro ⟨n', hn'⟩
      exact ⟨hok _, (bind_eq_ok_iff.1 hn').1⟩
    · rintro ⟨-, hchecked⟩
      exact ⟨_, bind_eq_ok_iff.2 ⟨hchecked, rfl⟩⟩

/-! ## Renumbering -/

/-- Two entries of a record that is read have two new identifiers. -/
theorem Record.renumber_injOn (h : r.frame = .ok n) :
    Set.InjOn (renumber r.renumbering) {id | id ∈ r.nodes.keys} := by
  obtain ⟨hc, described, hdescribed, hperm⟩ := Record.frame_spec h
  have hids : described.map Node.id = r.nodes.keys.map (renumber r.renumbering) := by
    rw [Table.keys, List.map_map, ← List.forall₂_eq_eq_eq, List.forall₂_map_left_iff,
      List.forall₂_map_right_iff]
    exact hdescribed.flip.imp fun _ _ hd => hd.id
  have hnodup : (r.nodes.keys.map (renumber r.renumbering)).Nodup := by
    rw [← hids]
    exact (hperm.map Node.id).nodup_iff.1 hc.nodeIds_nodup
  exact fun a ha b hb hab => List.inj_on_of_nodup_map hnodup ha hb hab

/-- The nodes of a record are renumbered if one of them lies too far out. -/
def Record.IsSparse (r : Record) : Prop :=
  ∃ id ∈ r.nodes.keys, r.nodes.size + sparseSlack ≤ id.index

theorem Record.renumbering_of_not_sparse (h : ¬ r.IsSparse) : r.renumbering = Table.empty := by
  refine if_neg fun hany => h ?_
  obtain ⟨id, hid, hge⟩ := List.any_eq_true.1 hany
  exact ⟨id, hid, by simpa [Table.size, Table.keys] using hge⟩

theorem Record.renumbering_of_sparse (h : r.IsSparse) :
    r.renumbering = ⟨r.nodes.keys.mapIdx fun place id => (id, ⟨place⟩)⟩ := by
  obtain ⟨far, hfar, hge⟩ := h
  refine if_pos (List.any_eq_true.2 ⟨far, hfar, ?_⟩)
  simpa [Table.size, Table.keys] using hge

theorem Record.keys_renumbering_of_sparse (h : r.IsSparse) : r.renumbering.keys = r.nodes.keys := by
  rw [Record.renumbering_of_sparse h]
  refine List.ext_getElem? fun i => ?_
  simp [Table.keys, Function.comp_def]

theorem Record.renumber_of_not_sparse (h : ¬ r.IsSparse) (id : NodeId) :
    renumber r.renumbering id = id := by
  rw [renumber, Record.renumbering_of_not_sparse h]
  rfl

/-- In a sparse record the nodes get the numbers below their count. -/
theorem Record.renumber_lt_of_sparse (h : r.IsSparse) {id : NodeId} (hid : id ∈ r.nodes.keys) :
    (renumber r.renumbering id).index < r.nodes.size := by
  rw [← Record.keys_renumbering_of_sparse h] at hid
  obtain ⟨new, hnew⟩ := Option.isSome_iff_exists.1 (Table.find?_isSome_iff.2 hid)
  have hmem := Table.mem_entries_of_find? hnew
  simp only [Record.renumbering_of_sparse h, List.mem_mapIdx] at hmem
  obtain ⟨place, hplace, heq⟩ := hmem
  cases heq
  rw [renumber, hnew, Option.getD_some]
  simpa [Table.size, Table.keys] using hplace

/-- An accepted wire that ends in no node of the record is taken for a wire of the node whose new
number it names. -/
theorem Record.foreign_wire {wires : List Wire}
    (hperm : (wires.map (Wire.rename (renumber r.renumbering))).Perm
      (r.ownWires.map (Wire.rename (renumber r.renumbering))))
    {w : Wire} (hw : w ∈ wires) (hforeign : w.node ∉ r.nodes.keys) :
    r.IsSparse ∧ w.node.index < r.nodes.size := by
  obtain ⟨own, hown, heq⟩ := List.mem_map.1 (hperm.mem_iff.1 (List.mem_map_of_mem hw))
  have hkey := Record.node_mem_keys_of_ownWires hown
  have hnode : renumber r.renumbering own.node = renumber r.renumbering w.node :=
    congrArg Wire.node heq
  by_cases hsparse : r.IsSparse
  · have hstays : renumber r.renumbering w.node = w.node := by
      rw [← Record.keys_renumbering_of_sparse hsparse] at hforeign
      rw [renumber, Table.find?_eq_none_iff.2 hforeign, Option.getD_none]
    refine ⟨hsparse, ?_⟩
    rw [← hstays, ← hnode]
    exact Record.renumber_lt_of_sparse hsparse hkey
  · rw [Record.renumber_of_not_sparse hsparse, Record.renumber_of_not_sparse hsparse] at hnode
    exact absurd (hnode ▸ hkey) hforeign

/-- Between nodes of the record the new names say as much as the old ones. -/
theorem Record.perm_ownWires_of_rename (h : r.frame = .ok n) {wires : List Wire}
    (hkeys : ∀ w ∈ wires, w.node ∈ r.nodes.keys)
    (hperm : (wires.map (Wire.rename (renumber r.renumbering))).Perm
      (r.ownWires.map (Wire.rename (renumber r.renumbering)))) : wires.Perm r.ownWires := by
  obtain ⟨old, hold⟩ : ∃ old : NodeId → NodeId,
      ∀ id ∈ r.nodes.keys, old (renumber r.renumbering id) = id :=
    ⟨_, (Record.renumber_injOn h).leftInvOn_invFunOn⟩
  have hback : ∀ ws : List Wire, (∀ w ∈ ws, w.node ∈ r.nodes.keys) →
      (ws.map (Wire.rename (renumber r.renumbering))).map (Wire.rename old) = ws := by
    intro ws hws
    rw [List.map_map]
    refine (List.map_congr_left fun w hw => ?_).trans (List.map_id ws)
    show { w with node := old (renumber r.renumbering w.node) } = w
    rw [hold w.node (hws w hw)]
  rw [← hback wires hkeys, ← hback r.ownWires fun _ => Record.node_mem_keys_of_ownWires]
  exact hperm.map _

/-- Which wires are accepted: those that are the wires of the record under the new identifiers.
They are the wires of the record as it stands if and only if all of them end in nodes of the
record, and those that do not name a number that a node of a sparse record gets. -/
theorem Record.toNetlist_accepts_wires {wires : List Wire} (hw : r.wires = some wires) :
    ((∃ n, r.toNetlist = .ok n) ↔ (∃ n, { r with wires := none }.toNetlist = .ok n) ∧
      (wires.map (Wire.rename (renumber r.renumbering))).Perm
        (r.ownWires.map (Wire.rename (renumber r.renumbering)))) ∧
    ((∃ n, r.toNetlist = .ok n) →
      (wires.Perm r.ownWires ↔ ∀ w ∈ wires, w.node ∈ r.nodes.keys) ∧
      ∀ w ∈ wires, w.node ∉ r.nodes.keys → r.IsSparse ∧ w.node.index < r.nodes.size) := by
  have hiff := Record.toNetlist_isOk_iff hw
  refine ⟨hiff, fun hok => ?_⟩
  obtain ⟨-, hperm⟩ := hiff.1 hok
  obtain ⟨n, hn⟩ := hok
  rw [Record.toNetlist_eq] at hn
  obtain ⟨m, hframe, -⟩ := ok_of_bind hn
  refine ⟨⟨fun hown w hmem => ?_, fun hkeys => ?_⟩, fun w hmem hforeign => ?_⟩
  · exact Record.node_mem_keys_of_ownWires (hown.mem_iff.1 hmem)
  · exact Record.perm_ownWires_of_rename hframe hkeys hperm
  · exact Record.foreign_wire hperm hmem hforeign

/-- A buffer under a far identifier; the wire ends in the node `sink`. -/
def strayBuffer (sink : NodeId) : Record where
  name := "x"
  inputs := ["a"]
  outputs := ["y"]
  nodes := ⟨[(⟨200000000⟩, ⟨"BUF", [.plain "a"], "y", none, none, none⟩)]⟩
  wires := some [⟨"a", sink, 0⟩]
  widths := Table.empty

/-- The wire of the record itself is accepted, although its node is renumbered. -/
theorem toNetlist_accepts_wires_strayBuffer :
    (∃ n, (strayBuffer ⟨200000000⟩).toNetlist = .ok n) ∧
      ([⟨"a", ⟨200000000⟩, 0⟩] : List Wire).Perm (strayBuffer ⟨200000000⟩).ownWires := by
  have hok : ∃ n, (strayBuffer ⟨200000000⟩).toNetlist = .ok n :=
    exists_ok_of_isOk (by decide +kernel)
  have hsinks : ∀ w ∈ ([⟨"a", ⟨200000000⟩, 0⟩] : List Wire),
      w.node ∈ (strayBuffer ⟨200000000⟩).nodes.keys := by decide
  exact ⟨hok, ((Record.toNetlist_accepts_wires rfl).2 hok).1.2 hsinks⟩

/-- A wire to a node that the record does not have is accepted as well. -/
theorem toNetlist_foreignSink :
    (∃ n, (strayBuffer ⟨0⟩).toNetlist = .ok n) ∧
      ¬ ([⟨"a", ⟨0⟩, 0⟩] : List Wire).Perm (strayBuffer ⟨0⟩).ownWires :=
  ⟨exists_ok_of_isOk (by decide +kernel), by decide⟩

end Exchange

/-! ## Netlists that can be built -/

namespace Netlist

/-- The netlist comes from an empty one or a record through operations on netlists. -/
inductive Built : Netlist → Prop where
  | empty (name : String) : Built (.empty name)
  | ofRecord {r : Exchange.Record} {n : Netlist} : r.toNetlist = .ok n → Built n
  | declareWidth {n n' : Netlist} {signal : String} {bits : Nat} :
      Built n → n.declareWidth signal bits = .ok n' → Built n'
  | addInput {n n' : Netlist} {name : String} {bits : Nat} :
      Built n → n.addInput name bits = .ok n' → Built n'
  | addOutput {n n' : Netlist} {name : String} {bits : Nat} :
      Built n → n.addOutput name bits = .ok n' → Built n'
  | addNode {n n' : Netlist} {kind : Kind} {fanins : List Fanin} {output : String} {id : NodeId} :
      Built n → n.addNode kind fanins output = .ok (n', id) → Built n'
  | eraseNode {n : Netlist} (id : NodeId) : Built n → Built (n.eraseNode id)
  | replaceNode {n n' : Netlist} {id : NodeId} {kind : Kind} {fanins : List Fanin} :
      Built n → n.replaceNode id kind fanins = .ok n' → Built n'
  | freshSignal {n : Netlist} (stem : String) (bits : Nat) :
      Built n → Built (n.freshSignal stem bits).1
  | redirect {n : Netlist} (sub : Substitution) : Built n → Built (n.redirect sub).1
  | retireSignal {n : Netlist} (signal : String) : Built n → Built (n.retireSignal signal)
  | rebuildWires {n : Netlist} : Built n → Built n.rebuildWires

theorem Built.consistent {n : Netlist} (h : n.Built) : n.Consistent := by
  induction h with
  | empty name => exact .empty name
  | ofRecord hn => exact Exchange.Record.consistent_of_toNetlist hn
  | declareWidth _ hn' ih => exact ih.declareWidth hn'
  | addInput _ hn' ih => exact ih.addInput hn'
  | addOutput _ hn' ih => exact ih.addOutput hn'
  | addNode _ hn' ih => exact ih.addNode hn'
  | eraseNode id _ ih => exact ih.eraseNode id
  | replaceNode _ hn' ih => exact ih.replaceNode hn'
  | freshSignal stem bits _ ih => exact ih.freshSignal stem bits
  | redirect sub _ ih => exact ih.redirect sub
  | retireSignal signal _ ih => exact ih.retireSignal signal
  | rebuildWires _ ih => exact ih.rebuildWires

end Netlist

end GateSynth
