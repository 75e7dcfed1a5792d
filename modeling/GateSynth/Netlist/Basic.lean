import GateSynth.Table
import GateSynth.Netlist.Error
import GateSynth.Netlist.Node

/-!
# Netlists

A netlist is one flattened module: ports, nodes, declared widths and a stored list of wires.
Nodes stand in an arena and are known by their place in it; an erased node leaves its place
empty, so a place is never used twice. Who drives a signal is read off the nodes.

Every operation either gives the changed netlist or refuses with the first fault it meets and
changes nothing. `freshSignal` alone also advances the counter of fresh names when it refuses.
-/

namespace GateSynth

/-- A flattened module. -/
structure Netlist where
  /-- The name of the module. -/
  name : String
  /-- The primary inputs in declaration order. -/
  inputs : List String
  /-- The primary outputs in declaration order. -/
  outputs : List String
  /-- The declared widths; any other signal has one bit. -/
  widths : Table String Width
  /-- The nodes by place; an erased node leaves `none`. -/
  arena : List (Option Node)
  /-- The stored wires. -/
  wires : List Wire
  /-- The number that the next fresh name tries first. -/
  nextFresh : Nat
deriving DecidableEq

/-- Which signal is read in place of which. -/
abbrev Substitution := Table String Fanin

namespace Netlist

/-- The netlist without ports and nodes. -/
def empty (name : String) : Netlist := ⟨name, [], [], Table.empty, [], [], 0⟩

instance : Inhabited Netlist := ⟨empty ""⟩

/-! ## Looking around -/

/-- The nodes in the order of their places. -/
def nodes (n : Netlist) : List Node := n.arena.filterMap id

/-- The identifiers of the nodes, in order. -/
def nodeIds (n : Netlist) : List NodeId := n.nodes.map Node.id

/-- The number of nodes. -/
def nodeCount (n : Netlist) : Nat := n.nodes.length

/-- The node at a place. -/
def node? (n : Netlist) (id : NodeId) : Option Node := n.arena[id.index]?.getD none

/-- The node that drives a signal. -/
def driverNode? (n : Netlist) (signal : String) : Option Node :=
  n.nodes.find? fun node => node.output = signal

/-- The identifier of the node that drives a signal. -/
def driver? (n : Netlist) (signal : String) : Option NodeId :=
  (n.driverNode? signal).map Node.id

/-- Is the signal a primary input? -/
def isInput (n : Netlist) (signal : String) : Bool := n.inputs.contains signal

/-- Is the signal a primary output? -/
def isOutput (n : Netlist) (signal : String) : Bool := n.outputs.contains signal

/-- Is the signal a primary input or driven by a node? -/
def isDefined (n : Netlist) (signal : String) : Bool :=
  (n.driver? signal).isSome || n.isInput signal

/-- The width of a signal; one bit where none is declared. -/
def width (n : Netlist) (signal : String) : Width :=
  (n.widths.find? signal).getD Width.one

/-! ## Ports and widths -/

/-- Record the width of a signal. -/
def setWidth (n : Netlist) (signal : String) (w : Width) : Netlist :=
  { n with widths := n.widths.insert signal w }

/-- Record the width of a signal, if it is one. -/
def declareWidth (n : Netlist) (signal : String) (bits : Nat) : Except NetlistError Netlist :=
  match Width.ofNat? bits with
  | some w => .ok (n.setWidth signal w)
  | none => .error (.width signal bits)

/-- Declare a primary input. -/
def addInput (n : Netlist) (name : String) (bits : Nat) : Except NetlistError Netlist :=
  if n.isInput name then .error (.duplicateSignal name)
  else
    match n.driver? name with
    | some node => .error (.drivenInput node name)
    | none => do
      let n ← n.declareWidth name bits
      return { n with inputs := n.inputs ++ [name] }

/-- Declare a primary output; it may be a primary input too. -/
def addOutput (n : Netlist) (name : String) (bits : Nat) : Except NetlistError Netlist :=
  if n.isOutput name then .error (.duplicateSignal name)
  else do
    let n ← n.declareWidth name bits
    return { n with outputs := n.outputs ++ [name] }

/-! ## Nodes -/

/-- Does the kind take this many fanins? -/
def checkArity (id : NodeId) (kind : Kind) (fanins : List Fanin) : Except NetlistError Unit :=
  match kind.arity? with
  | some expected =>
    if expected = fanins.length then .ok ()
    else .error (.arity id kind.text expected fanins.length)
  | none => .ok ()

/-- The arena with a node put at a place, which is created if the arena is too short. -/
def placeNode (arena : List (Option Node)) (place : Nat) (node : Node) : List (Option Node) :=
  if place < arena.length then arena.set place (some node)
  else arena ++ List.replicate (place - arena.length) none ++ [some node]

/-- Put a node at a given free place. -/
def insertNode (n : Netlist) (id : NodeId) (kind : Kind) (fanins : List Fanin)
    (output : String) : Except NetlistError Netlist := do
  checkArity id kind fanins
  if let some existing := n.driver? output then
    throw (.multipleDrivers output existing)
  if n.isInput output then
    throw (.drivenInput id output)
  if (n.node? id).isSome then
    throw (.record s!"node id {id} used twice")
  return { n with arena := placeNode n.arena id.index ⟨id, kind, fanins, output⟩ }

/-- Add a node behind all places ever used. -/
def addNode (n : Netlist) (kind : Kind) (fanins : List Fanin) (output : String) :
    Except NetlistError (Netlist × NodeId) := do
  let id : NodeId := ⟨n.arena.length⟩
  let n ← n.insertNode id kind fanins output
  return (n, id)

/-- Take a node out; its signal loses its driver. -/
def eraseNode (n : Netlist) (id : NodeId) : Netlist :=
  { n with arena := n.arena.set id.index none }

/-- Give the node at a place another kind and other fanins; it keeps its place and its signal. -/
def updateNode (n : Netlist) (id : NodeId) (kind : Kind) (fanins : List Fanin) : Netlist :=
  { n with arena := n.arena.modify id.index (Option.map ({ · with kind, fanins })) }

/-- Update a node, if there is one and the arity is right. -/
def replaceNode (n : Netlist) (id : NodeId) (kind : Kind) (fanins : List Fanin) :
    Except NetlistError Netlist := do
  checkArity id kind fanins
  if (n.node? id).isSome then return n.updateNode id kind fanins
  else throw (.unknownNode id)

/-! ## Signals -/

/-- Is the name declared, driven, or a port? -/
def isTaken (n : Netlist) (name : String) : Bool :=
  n.widths.contains name || n.isDefined name || n.isOutput name

/-- The name that fresh signals of a stem have under a number. -/
def freshName (stem : String) (number : Nat) : String := "_" ++ stem ++ toString number

/-- The first number from `number` on whose name is not taken, looking at no more than `tries`
names. -/
def freeNumber (n : Netlist) (stem : String) : (tries number : Nat) → Nat
  | 0, number => number
  | tries + 1, number =>
    if n.isTaken (freshName stem number) then freeNumber n stem tries (number + 1) else number

/-- The number of names that can be taken, counting a name once for every use. -/
def takenBound (n : Netlist) : Nat :=
  n.widths.size + n.nodes.length + n.inputs.length + n.outputs.length

/-- A name that is not taken; the counter moves past it. -/
def reserveName (n : Netlist) (stem : String) : Netlist × String :=
  let number := n.freeNumber stem (n.takenBound + 1) n.nextFresh
  ({ n with nextFresh := number + 1 }, freshName stem number)

/-- A new signal of a given width. -/
def newSignal (n : Netlist) (stem : String) (w : Width) : Netlist × String :=
  let (n, name) := n.reserveName stem
  (n.setWidth name w, name)

/-- A new signal with this number of bits; the name is used up also when the number is no
width. -/
def freshSignal (n : Netlist) (stem : String) (bits : Nat) :
    Netlist × Except NetlistError String :=
  let (n, name) := n.reserveName stem
  match n.declareWidth name bits with
  | .ok n => (n, .ok name)
  | .error e => (n, .error e)

/-- Follow a substitution from a fanin for at most `hops` steps, composing inversions. -/
def follow (sub : Substitution) : (hops : Nat) → Fanin → Fanin
  | 0, f => f
  | hops + 1, f =>
    match sub.find? f.signal with
    | some target => follow sub hops ⟨target.signal, f.inverted ^^ target.inverted⟩
    | none => f

/-- The fanin that a substitution puts in place of another; chains are followed to their end,
and a loop is left after one step more than the substitution has entries. -/
def redirectFanin (sub : Substitution) (f : Fanin) : Fanin := follow sub (sub.size + 1) f

/-- Read every fanin through a substitution. The count is that of the fanins whose signal the
substitution mentions. -/
def redirect (n : Netlist) (sub : Substitution) : Netlist × Nat :=
  let arena := n.arena.map fun slot =>
    slot.map fun node => { node with fanins := node.fanins.map (redirectFanin sub) }
  let redirected := n.nodes.flatMap Node.fanins |>.countP fun f => sub.contains f.signal
  ({ n with arena }, redirected)

/-- Drop the width of a signal that is neither defined nor an output. -/
def retireSignal (n : Netlist) (signal : String) : Netlist :=
  if n.isDefined signal || n.isOutput signal then n
  else { n with widths := n.widths.swapErase signal }

/-! ## Wires and summaries -/

/-- The wires that end in the ports of one node. -/
def nodeWires (node : Node) : List Wire :=
  node.fanins.mapIdx fun port f => ⟨f.signal, node.id, port⟩

/-- The wires of the fanins, in node and port order. -/
def derivedWires (n : Netlist) : List Wire := n.nodes.flatMap nodeWires

/-- Store the wires of the fanins. -/
def rebuildWires (n : Netlist) : Netlist := { n with wires := n.derivedWires }

/-- The signals that some node reads, each once, in order. -/
def usedSignals (n : Netlist) : List String :=
  (n.nodes.flatMap Node.faninSignals).eraseDups.mergeSort fun a b => !decide (b < a)

/-- The number of nodes of each tag, in the order of the tags. -/
def statistics (n : Netlist) : List (String × Nat) :=
  let counts : Table String Nat :=
    n.nodes.foldl (fun t node =>
      t.insert node.kind.tag ((t.find? node.kind.tag).getD 0 + 1)) Table.empty
  counts.entries.mergeSort fun a b => !decide (b.1 < a.1)

/-- The written form of a port: its name, with its width when it has more than one bit. -/
def portText (n : Netlist) (name : String) : String :=
  let bits := (n.width name).bits
  if bits = 1 then name else name ++ "[" ++ toString bits ++ "]"

/-- The written form of a netlist, one line for the name, the ports of each direction and every
node. -/
def text (n : Netlist) : String :=
  let ports := fun names => ", ".intercalate (names.map n.portText)
  let lines := n.nodes.map fun node => "  " ++ node.text ++ "\n"
  "netlist " ++ n.name ++ "\n  inputs: " ++ ports n.inputs ++ "\n  outputs: " ++ ports n.outputs
    ++ "\n" ++ String.join lines

end Netlist

end GateSynth
