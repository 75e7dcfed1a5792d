import GateSynth.Netlist.NodeId

/-!
# Netlist errors

Each constructor is one way in which a netlist, or a request to change it, is not in order. It
names the node or signal at fault, and `NetlistError.message` words it.
-/

namespace GateSynth

/-- Why a netlist, or a change to it, is refused. -/
inductive NetlistError where
  /-- The number of fanins is not the arity of the kind. -/
  | arity (node : NodeId) (kind : String) (expected found : Nat)
  /-- A fanin reads a signal that is neither a primary input nor driven. -/
  | dangling (node : NodeId) (signal : String)
  /-- A signal would have a second driver. -/
  | multipleDrivers (signal : String) (existing : NodeId)
  /-- A node drives a primary input. -/
  | drivenInput (node : NodeId) (signal : String)
  /-- A primary output has no driver. -/
  | undrivenOutput (signal : String)
  /-- The drivers and readers form a loop. -/
  | cycle (node : NodeId) (signal : String)
  /-- A width is not between 1 and 64. -/
  | width (signal : String) (bits : Nat)
  /-- The stored wires are not those of the fanins. -/
  | inconsistentWires (detail : String)
  /-- There is no node under this identifier. -/
  | unknownNode (node : NodeId)
  /-- A port is declared twice. -/
  | duplicateSignal (signal : String)
  /-- A decoded netlist record does not make sense. -/
  | record (detail : String)
  /-- A text is not a netlist record at all. -/
  | undecodable
deriving DecidableEq, Inhabited

namespace NetlistError

/-- The wording of an error. -/
def message : NetlistError → String
  | arity node kind expected found =>
    s!"Node {node} ({kind}) has {found} fanins, expected {expected}"
  | dangling node signal => s!"Node {node} references undefined signal '{signal}'"
  | multipleDrivers signal existing => s!"Signal '{signal}' is already driven by node {existing}"
  | drivenInput node signal => s!"Node {node} drives primary input '{signal}'"
  | undrivenOutput signal => s!"Primary output '{signal}' is not driven"
  | cycle node signal => s!"Combinational cycle through node {node} (signal '{signal}')"
  | width signal bits => s!"Signal '{signal}' has unsupported width {bits} (expected 1..=64)"
  | inconsistentWires detail => s!"Wire list is inconsistent with node fanins: {detail}"
  | unknownNode node => s!"Unknown node {node}"
  | duplicateSignal signal => s!"Signal '{signal}' is declared twice"
  | record detail => s!"Malformed netlist record: {detail}"
  | undecodable => "Malformed netlist record: the text is not a netlist record"

/-- The error of a text that is no node identifier. -/
def badNodeId (text : String) : NetlistError :=
  record s!"invalid node id '{text}' (expected n<index>)"

end NetlistError

end GateSynth
