import GateSynth.Json.Decode
import GateSynth.Json.Printer
import GateSynth.Json.Reader
import GateSynth.Netlist.Validate

/-!
# The exchange format

A netlist is stored as a JSON record: name, ports, nodes under their identifiers, wires, and the
declared widths. `Netlist.toJson` writes it and `Netlist.ofJson` reads it.

Reading keeps the identifiers, unless one of them lies too far beyond the number of nodes: then
the nodes are numbered in the order of the record. The wires may be left out; if they are given
they have to be those of the fanins.
-/

namespace GateSynth

namespace Exchange

/-- A node as it is stored. -/
structure NodeRecord where
  /-- The tag of an operator, `CONST`, `MODULE`, or the name of a library cell. -/
  type : String
  /-- The inputs in port order. -/
  fanins : List Fanin
  /-- The signal that the node drives. -/
  output : String
  /-- The value of a literal. -/
  value : Option Word
  /-- The name of the module of an instance. -/
  module : Option String
  /-- The literal that a tie cell drives. -/
  init : Option Word
deriving DecidableEq

/-- A netlist as it is stored. -/
structure Record where
  /-- The name of the module. -/
  name : String
  /-- The primary inputs. -/
  inputs : List String
  /-- The primary outputs. -/
  outputs : List String
  /-- The nodes under their identifiers. -/
  nodes : Table NodeId NodeRecord
  /-- The wires, if they are stored. -/
  wires : Option (List Wire)
  /-- The declared widths in bits. -/
  widths : Table String Nat
deriving DecidableEq

/-! ## Reading records -/

/-- The identifier of a node. -/
def nodeId? (json : Json) : Option NodeId := json.string?.bind NodeId.ofText?

/-- A fanin. -/
def fanin? (json : Json) : Option Fanin := do
  match ← json.fields? ["signal", "inverted"] with
  | [signal, inverted] =>
    return ⟨← Json.required? Json.string? signal, ← Json.defaulted? Json.bool? false inverted⟩
  | _ => none

/-- The port in which a wire ends. -/
def sink? (json : Json) : Option (NodeId × Nat) := do
  match ← json.fields? ["node", "port"] with
  | [node, port] =>
    return (← Json.required? nodeId? node, ← Json.required? (Json.natBelow? UInt64.size) port)
  | _ => none

/-- A wire. -/
def wire? (json : Json) : Option Wire := do
  match ← json.fields? ["source", "sink"] with
  | [source, sink] =>
    let source ← Json.required? Json.string? source
    let (node, port) ← Json.required? sink? sink
    return ⟨source, node, port⟩
  | _ => none

/-- A node. -/
def nodeRecord? (json : Json) : Option NodeRecord := do
  match ← json.fields? ["type", "fanins", "output", "value", "module", "init"] with
  | [type, fanins, output, value, module, init] =>
    return {
      type := ← Json.required? Json.string? type
      fanins := ← Json.defaulted? (Json.list? fanin?) [] fanins
      output := ← Json.required? Json.string? output
      value := ← Json.defaulted? (Json.optional? Json.word?) none value
      module := ← Json.defaulted? (Json.optional? Json.string?) none module
      init := ← Json.defaulted? (Json.optional? Json.word?) none init }
  | _ => none

/-- The declared widths among the attributes. -/
def attributes? (json : Json) : Option (Table String Nat) := do
  match ← json.fields? ["vector_widths"] with
  | [widths] => Json.defaulted? (Json.map? some (Json.natBelow? UInt32.size)) Table.empty widths
  | _ => none

/-- A netlist record. -/
def record? (json : Json) : Option Record := do
  match ← json.fields? ["name", "inputs", "outputs", "nodes", "wires", "attrs"] with
  | [name, inputs, outputs, nodes, wires, attrs] =>
    return {
      name := ← Json.required? Json.string? name
      inputs := ← Json.defaulted? (Json.list? Json.string?) [] inputs
      outputs := ← Json.defaulted? (Json.list? Json.string?) [] outputs
      nodes := ← Json.defaulted? (Json.map? NodeId.ofText? nodeRecord?) Table.empty nodes
      wires := ← Json.defaulted? (Json.optional? (Json.list? wire?)) none wires
      widths := ← Json.defaulted? attributes? Table.empty attrs }
  | _ => none

/-! ## Writing records -/

/-- A fanin; the inversion is stored only where there is one. -/
def faninJson (f : Fanin) : Json :=
  .ofMembers (("signal", .ofString f.signal) ::
    if f.inverted then [("inverted", .bool true)] else [])

/-- A wire. -/
def wireJson (w : Wire) : Json :=
  .ofMembers [("source", .ofString w.source),
    ("sink", .ofMembers [("node", .ofString w.node.text), ("port", .ofNat w.port)])]

/-- A member that is stored only where there is a value. -/
def optionalMember {α : Type} (name : String) (json : α → Json) : Option α → List (String × Json)
  | some value => [(name, json value)]
  | none => []

/-- A node. -/
def nodeJson (r : NodeRecord) : Json :=
  .ofMembers (
    [("type", .ofString r.type)]
      ++ (if r.fanins.isEmpty then [] else [("fanins", .array (r.fanins.map faninJson))])
      ++ [("output", .ofString r.output)]
      ++ optionalMember "value" (fun v : Word => .ofNat v.toNat) r.value
      ++ optionalMember "module" Json.ofString r.module
      ++ optionalMember "init" (fun v : Word => .ofNat v.toNat) r.init)

/-- A netlist record. -/
def recordJson (r : Record) : Json :=
  .ofMembers (
    [("name", .ofString r.name),
      ("inputs", .array (r.inputs.map .ofString)),
      ("outputs", .array (r.outputs.map .ofString)),
      ("nodes", .ofMembers (r.nodes.entries.map fun e => (e.1.text, nodeJson e.2)))]
      ++ optionalMember "wires" (fun ws : List Wire => .array (ws.map wireJson)) r.wires
      ++ [("attrs", .ofMembers [("vector_widths",
        .ofMembers (r.widths.entries.map fun e => (e.1, .ofNat e.2)))])])

/-! ## Records and netlists -/

/-- The record of a node. -/
def NodeRecord.ofNode (node : Node) : NodeRecord :=
  let base : NodeRecord := ⟨node.kind.tag, node.fanins, node.output, none, none, none⟩
  match node.kind with
  | .const value => { base with value := some value }
  | .module name => { base with module := some name }
  | .cell _ init => { base with init }
  | .op _ => base

/-- The kind that a stored node has. -/
def NodeRecord.kind (r : NodeRecord) (id : NodeId) : Except NetlistError Kind :=
  let missing := fun field : String =>
    NetlistError.record s!"node {id} ({r.type}) has no '{field}' field"
  match Operator.ofTag? r.type with
  | some operator => .ok (.op operator)
  | none =>
    if r.type = Kind.constTag then
      match r.value with
      | some value => .ok (.const value)
      | none => .error (missing "value")
    else if r.type = Kind.moduleTag then
      match r.module with
      | some name => .ok (.module name)
      | none => .error (missing "module")
    else if r.type = "" then .error (.record s!"node {id} has an empty type")
    else .ok (.cell r.type r.init)

/-- The record of a netlist; the wires are those of the fanins. -/
def Record.ofNetlist (n : Netlist) : Record where
  name := n.name
  inputs := n.inputs
  outputs := n.outputs
  nodes := ⟨n.nodes.map fun node => (node.id, NodeRecord.ofNode node)⟩
  wires := some n.derivedWires
  widths := ⟨n.widths.entries.map fun e => (e.1, e.2.bits)⟩

/-- How far identifiers may lie beyond the number of nodes before the nodes are renumbered. -/
def sparseSlack : Nat := 1024

/-- The new identifier of each node of a record; empty where the nodes keep theirs. -/
def Record.renumbering (r : Record) : Table NodeId NodeId :=
  let ids := r.nodes.keys
  if ids.any fun id => id.index ≥ ids.length + sparseSlack then
    ⟨ids.mapIdx fun place id => (id, ⟨place⟩)⟩
  else Table.empty

/-- The identifier under a renumbering; one that it does not mention stays. -/
def renumber (table : Table NodeId NodeId) (id : NodeId) : NodeId := (table.find? id).getD id

/-- Declare the widths of a record. -/
def declareWidths : List (String × Nat) → Netlist → Except NetlistError Netlist
  | [], n => .ok n
  | (signal, bits) :: rest, n => do declareWidths rest (← n.declareWidth signal bits)

/-- Declare the primary inputs of a record. -/
def declareInputs : List String → Netlist → Except NetlistError Netlist
  | [], n => .ok n
  | input :: rest, n => do declareInputs rest (← n.addInput input (n.width input).bits)

/-- Declare the primary outputs of a record. -/
def declareOutputs : List String → Netlist → Except NetlistError Netlist
  | [], n => .ok n
  | output :: rest, n => do declareOutputs rest (← n.addOutput output (n.width output).bits)

/-- Put the nodes of a record in their places. -/
def placeNodes (table : Table NodeId NodeId) :
    List (NodeId × NodeRecord) → Netlist → Except NetlistError Netlist
  | [], n => .ok n
  | (id, r) :: rest, n => do
    let kind ← r.kind id
    placeNodes table rest (← n.insertNode (renumber table id) kind r.fanins r.output)

/-- The netlist of a record. -/
def Record.toNetlist (r : Record) : Except NetlistError Netlist := do
  let n ← declareWidths r.widths.entries (Netlist.empty r.name)
  let n ← declareInputs r.inputs n
  let n ← declareOutputs r.outputs n
  let table := r.renumbering
  let n ← placeNodes table r.nodes.entries n
  match r.wires with
  | some wires =>
    let n := { n with wires := wires.map fun w => { w with node := renumber table w.node } }
    n.checkWires
    return n
  | none => return n.rebuildWires

/-! ## Texts -/

/-- A text format of records. -/
structure Codec where
  /-- The text of a record. -/
  encode : Record → String
  /-- The record of a text. -/
  decode : String → Option Record

namespace Codec

/-- Records as JSON texts. -/
def json : Codec where
  encode r := (recordJson r).render
  decode text := (Json.parse? text).bind record?

@[simp] theorem json_encode (r : Record) : json.encode r = (recordJson r).render := rfl

@[simp] theorem json_decode (text : String) :
    json.decode text = (Json.parse? text).bind record? := rfl

/-- The text of a netlist. -/
def write (c : Codec) (n : Netlist) : String := c.encode (.ofNetlist n)

/-- The netlist of a text. -/
def read (c : Codec) (text : String) : Except NetlistError Netlist :=
  match c.decode text with
  | some record => record.toNetlist
  | none => .error .undecodable

theorem read_eq_ok {c : Codec} {text : String} {n : Netlist} (h : c.read text = .ok n) :
    ∃ record, c.decode text = some record ∧ record.toNetlist = .ok n := by
  rw [read] at h
  split at h
  · next record hdecode => exact ⟨record, hdecode, h⟩
  · cases h

end Codec

end Exchange

/-- The JSON text of a netlist. -/
def Netlist.toJson (n : Netlist) : String := Exchange.Codec.json.write n

/-- The netlist of a JSON text. -/
def Netlist.ofJson (text : String) : Except NetlistError Netlist := Exchange.Codec.json.read text

end GateSynth
