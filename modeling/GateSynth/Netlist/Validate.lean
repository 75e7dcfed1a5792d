import GateSynth.Netlist.Order

/-!
# Validation

`Netlist.validate` looks for the first fault of a netlist: node by node the arity, the signals
that are read, the uniqueness of drivers and the primary inputs; then the primary outputs, the
stored wires, and at last the order of the nodes. Widths are in range by their type.
-/

namespace GateSynth.Netlist

/-- Every signal of a list is defined. -/
def checkFanins (n : Netlist) (id : NodeId) : List String → Except NetlistError Unit
  | [] => .ok ()
  | signal :: rest =>
    if n.isDefined signal then checkFanins n id rest else .error (.dangling id signal)

/-- One node is in order, after the nodes of `seen`. -/
def checkNode (n : Netlist) (seen : List Node) (node : Node) : Except NetlistError Unit := do
  checkArity node.id node.kind node.fanins
  n.checkFanins node.id node.faninSignals
  if let some existing := seen.find? fun earlier => earlier.output = node.output then
    throw (.multipleDrivers node.output existing.id)
  if n.isInput node.output then
    throw (.drivenInput node.id node.output)

/-- The nodes of a list are in order, after those of `seen`. -/
def checkNodes (n : Netlist) (seen : List Node) : List Node → Except NetlistError Unit
  | [] => .ok ()
  | node :: rest => do
    n.checkNode seen node
    checkNodes n (seen ++ [node]) rest

/-- Every output of a list is defined. -/
def checkOutputs (n : Netlist) : List String → Except NetlistError Unit
  | [] => .ok ()
  | output :: rest =>
    if n.isDefined output then checkOutputs n rest else .error (.undrivenOutput output)

/-- The wires of a list in order. -/
def sortedWires (wires : List Wire) : List Wire := wires.mergeSort Wire.le

/-- What tells the stored wires from the derived ones: a wire that is missing, else one too
many, else a repeated one. Both lists are in order. -/
def wireFault (stored derived : List Wire) : String :=
  match derived.find? fun w => !stored.contains w with
  | some w => "missing wire " ++ w.text
  | none =>
    match stored.find? fun w => !derived.contains w with
    | some w => "stray wire " ++ w.text
    | none => "duplicate wires"

/-- The stored wires are those of the fanins, in some order. -/
def checkWires (n : Netlist) : Except NetlistError Unit :=
  let stored := sortedWires n.wires
  let derived := sortedWires n.derivedWires
  if stored = derived then .ok () else .error (.inconsistentWires (wireFault stored derived))

/-- The first fault of a netlist, if it has any. -/
def validate (n : Netlist) : Except NetlistError Unit := do
  n.checkNodes [] n.nodes
  n.checkOutputs n.outputs
  n.checkWires
  let _ ← n.topoOrder

end GateSynth.Netlist
