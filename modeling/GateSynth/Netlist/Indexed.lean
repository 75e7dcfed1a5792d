import GateSynth.Netlist.Operation

/-!
# Netlists with their indices

A netlist that is searched often keeps more than it has to: beside the arena a table from signals
to the nodes that drive them, beside the lists of ports the sets of their names, and the declared
widths as plain numbers. Every operation changes these tables one after the other, and one that is
refused stops where it is: `Edit` keeps the state also when an operation fails. Identifiers are cut
to 32 bits.

The operations look signals up in the tables, never in the lists.
-/

namespace GateSynth

/-- A netlist with the tables that it is searched by. -/
structure IndexedNetlist where
  /-- The name of the module. -/
  name : String
  /-- The primary inputs in declaration order. -/
  inputs : List String
  /-- The primary outputs in declaration order. -/
  outputs : List String
  /-- The names of the inputs, each once, in no particular order. -/
  inputSet : List String
  /-- The names of the outputs, each once, in no particular order. -/
  outputSet : List String
  /-- The declared widths in bits; any other signal has one. -/
  widths : Table String Nat
  /-- The nodes by place; an erased node leaves `none`. -/
  arena : List (Option Node)
  /-- The nodes by the signal that they drive. -/
  drivers : Table String NodeId
  /-- The stored wires. -/
  wires : List Wire
  /-- The number that the next fresh name tries first. -/
  nextFresh : Nat
deriving DecidableEq

/-- A change that may fail on its way. What was changed before stays changed. -/
abbrev Edit := EStateM NetlistError IndexedNetlist

namespace IndexedNetlist

/-- The netlist without ports and nodes. -/
def empty (name : String) : IndexedNetlist :=
  ⟨name, [], [], [], [], Table.empty, [], Table.empty, [], 0⟩

instance : Inhabited IndexedNetlist := ⟨empty ""⟩

/-! ## Looking around -/

/-- The nodes in the order of their places. -/
def nodes (s : IndexedNetlist) : List Node := s.arena.filterMap id

/-- The node at a place. -/
def node? (s : IndexedNetlist) (id : NodeId) : Option Node := s.arena[id.index]?.getD none

/-- Is the signal in the set of inputs? -/
def isInput (s : IndexedNetlist) (signal : String) : Bool := s.inputSet.contains signal

/-- Is the signal in the set of outputs? -/
def isOutput (s : IndexedNetlist) (signal : String) : Bool := s.outputSet.contains signal

/-- Has the signal a driver, or is it in the set of inputs? -/
def isDefined (s : IndexedNetlist) (signal : String) : Bool :=
  s.drivers.contains signal || s.isInput signal

/-- Is the name declared, driven, or a port? -/
def isTaken (s : IndexedNetlist) (name : String) : Bool :=
  s.widths.contains name || s.isDefined name || s.isOutput name

/-! ## Ports and widths -/

/-- Record the width of a signal, if it is one. -/
def declareWidth (signal : String) (bits : Nat) : Edit Unit := do
  if bits < 1 ∨ Width.limit < bits then
    throw (.width signal bits)
  modify fun s => { s with widths := s.widths.insert signal bits }

/-- Declare a primary input. -/
def addInput (name : String) (bits : Nat) : Edit Unit := do
  if (← get).isInput name then
    throw (.duplicateSignal name)
  if let some node := (← get).drivers.find? name then
    throw (.drivenInput node name)
  declareWidth name bits
  modify fun s => { s with inputSet := s.inputSet.insert name }
  modify fun s => { s with inputs := s.inputs ++ [name] }

/-- Declare a primary output; it may be a primary input too. -/
def addOutput (name : String) (bits : Nat) : Edit Unit := do
  if (← get).isOutput name then
    throw (.duplicateSignal name)
  declareWidth name bits
  modify fun s => { s with outputSet := s.outputSet.insert name }
  modify fun s => { s with outputs := s.outputs ++ [name] }

/-! ## Nodes -/

/-- Put a node at a given free place. -/
def insertNode (id : NodeId) (kind : Kind) (fanins : List Fanin) (output : String) :
    Edit Unit := do
  MonadExcept.ofExcept (Netlist.checkArity id kind fanins)
  if let some existing := (← get).drivers.find? output then
    throw (.multipleDrivers output existing)
  if (← get).isInput output then
    throw (.drivenInput id output)
  if ((← get).node? id).isSome then
    throw (.record s!"node id {id} used twice")
  modify fun s => { s with drivers := s.drivers.insert output id }
  modify fun s =>
    { s with arena := Netlist.placeNode s.arena id.index ⟨id, kind, fanins, output⟩ }

/-- The identifier of the next node: the number of places, cut to 32 bits. -/
def nextId (s : IndexedNetlist) : NodeId := ⟨s.arena.length % UInt32.size⟩

/-- Add a node at the next place. -/
def addNode (kind : Kind) (fanins : List Fanin) (output : String) : Edit NodeId := do
  let id := (← get).nextId
  insertNode id kind fanins output
  return id

/-- Take a node out; its signal loses its driver. -/
def removeNode (id : NodeId) : Edit (Option Node) := do
  match (← get).node? id with
  | none => return none
  | some node =>
    modify fun s => { s with arena := s.arena.set id.index none }
    modify fun s => { s with drivers := s.drivers.erase node.output }
    return some node

/-- Give a node another kind and other fanins, if there is one and the arity is right. -/
def replaceNode (id : NodeId) (kind : Kind) (fanins : List Fanin) : Edit Unit := do
  MonadExcept.ofExcept (Netlist.checkArity id kind fanins)
  if ((← get).node? id).isNone then
    throw (.unknownNode id)
  modify fun s =>
    { s with arena := s.arena.modify id.index (Option.map ({ · with kind, fanins })) }

/-! ## Signals -/

/-- The name that the counter gives a stem; the counter moves past it. -/
def countName (stem : String) : Edit String :=
  modifyGet fun s => (Netlist.freshName stem s.nextFresh, { s with nextFresh := s.nextFresh + 1 })

/-- Count until a name is not taken, looking at no more than `tries` names. -/
def takeName (stem : String) : (tries : Nat) → Edit String
  | 0 => countName stem
  | tries + 1 => do
    let name ← countName stem
    if (← get).isTaken name then takeName stem tries else return name

/-- The number of names that can be taken, counting a name once for every use. -/
def takenBound (s : IndexedNetlist) : Nat :=
  s.widths.size + s.nodes.length + s.inputs.length + s.outputs.length

/-- A new signal with this number of bits; the name is used up also when the number is no
width. -/
def freshSignal (stem : String) (bits : Nat) : Edit String := do
  let name ← takeName stem ((← get).takenBound + 1)
  declareWidth name bits
  return name

/-- Read every fanin through a substitution. The count is that of the fanins whose signal the
substitution mentions. -/
def redirect (sub : Substitution) : Edit Nat := do
  if sub.size = 0 then
    return 0
  let redirected := (← get).nodes.flatMap Node.fanins |>.countP fun f => sub.contains f.signal
  modify fun s => { s with
    arena := s.arena.map fun slot => slot.map fun node =>
      { node with fanins := node.fanins.map (Netlist.redirectFanin sub) } }
  return redirected

/-- Drop the width of a signal that is neither defined nor an output. -/
def retireSignal (signal : String) : Edit Unit :=
  modify fun s =>
    if s.isDefined signal || s.isOutput signal then s
    else { s with widths := s.widths.swapErase signal }

/-- Store the wires of the fanins. -/
def rebuildWires : Edit Unit :=
  modify fun s => { s with wires := s.nodes.flatMap Netlist.nodeWires }

/-! ## Operations -/

/-- What an operation does. -/
def edit : Operation → Edit Answer
  | .addInput name bits => do addInput name bits; return .done
  | .addOutput name bits => do addOutput name bits; return .done
  | .declareWidth signal bits => do declareWidth signal bits; return .done
  | .addNode kind fanins output => return .added (← addNode kind fanins output)
  | .replaceNode id kind fanins => do replaceNode id kind fanins; return .done
  | .removeNode id => return .removed (← removeNode id)
  | .redirect sub => return .redirected (← redirect sub)
  | .retireSignal signal => do retireSignal signal; return .done
  | .freshSignal stem bits => return .named (← freshSignal stem bits)
  | .rebuildWires => do rebuildWires; return .done

/-- Perform one operation. -/
def perform (op : Operation) (s : IndexedNetlist) : IndexedNetlist × Except NetlistError Answer :=
  match (edit op).run s with
  | .ok answer s => (s, .ok answer)
  | .error e s => (s, .error e)

end IndexedNetlist

end GateSynth
