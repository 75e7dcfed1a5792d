import GateSynth.Netlist.Error

/-!
# Mapping errors

Why a netlist cannot be mapped, or a mapped netlist cannot be measured.
-/

namespace GateSynth

/-- Why mapping fails. -/
inductive MapError where
  /-- An output depends on a node for which no cell fits. -/
  | unmappable (node : NodeId) (kind signal : String)
  /-- A node is no instance of a cell of the library. -/
  | unknownCell (node : NodeId) (cell : String)
  /-- The netlist is not in order. -/
  | structural (error : NetlistError)
deriving DecidableEq

/-- The wording of an error. -/
def MapError.message : MapError → String
  | unmappable node kind signal =>
    s!"No library cell implements node {node} ({kind}) driving '{signal}'"
  | unknownCell node cell => s!"Node {node} instantiates unknown cell '{cell}'"
  | structural error => error.message

end GateSynth
