import GateSynth.Netlist.Basic
import GateSynth.Total

/-!
# Order, levels and fanout

`topoOrder` lists the nodes so that drivers come before their readers; of the nodes that could
come next, the one with the lowest identifier does. A node waits for the drivers of its fanins
and for nothing else. If the nodes that are left all wait, the first of them is reported.

`Fanout` is a snapshot of who reads which signal.
-/

namespace GateSynth

namespace Netlist

/-! ## Topological order -/

/-- A node and the drivers it still waits for. -/
structure Waiting where
  /-- The node that waits. -/
  id : NodeId
  /-- The drivers of its fanins that are not placed yet. -/
  drivers : List NodeId
deriving DecidableEq

/-- Every node with the drivers of its fanins. -/
def waiting (n : Netlist) : List Waiting :=
  n.nodes.map fun node => ⟨node.id, node.faninSignals.filterMap n.driver?⟩

/-- What is left to wait for once a node is placed. -/
def release (id : NodeId) (left : List Waiting) : List Waiting :=
  (left.filter fun w => w.id ≠ id).map fun w => ⟨w.id, w.drivers.filter (· ≠ id)⟩

/-- Place at most `steps` nodes, each time the first one that waits for nothing. The second
component is what cannot be placed. -/
def placeReady : (steps : Nat) → List Waiting → List NodeId × List Waiting
  | 0, left => ([], left)
  | steps + 1, left =>
    match left.find? fun w => w.drivers.isEmpty with
    | none => ([], left)
    | some w =>
      let (order, stuck) := placeReady steps (release w.id left)
      (w.id :: order, stuck)

/-- The nodes with every driver before its readers, the lowest identifier first where there is a
choice. -/
def topoOrder (n : Netlist) : Except NetlistError (List NodeId) :=
  match placeReady n.nodeCount n.waiting with
  | (order, []) => .ok order
  | (_, w :: _) => .error (.cycle w.id (((n.node? w.id).map Node.output).getD ""))

/-! ## Levels -/

/-- The level of each node along an order: one more than the deepest of its drivers. -/
def levelsAlong (n : Netlist) (order : List NodeId) : Table NodeId Nat :=
  order.foldl (fun levels id =>
    match n.node? id with
    | some node =>
      let drivers := node.faninSignals.filterMap n.driver?
      levels.insert id (greatest (drivers.filterMap levels.find?) + 1)
    | none => levels) Table.empty

/-- The level of each node; a node that reads primary inputs only has level one. -/
def levels (n : Netlist) : Except NetlistError (Table NodeId Nat) := do
  return n.levelsAlong (← n.topoOrder)

/-- The greatest level of a node that drives an output. -/
def depth (n : Netlist) : Except NetlistError Nat := do
  let levels ← n.levels
  return greatest ((n.outputs.filterMap n.driver?).filterMap levels.find?)

end Netlist

/-! ## Fanout -/

/-- Who reads which signal, and which signals are primary outputs. -/
structure Fanout where
  /-- The wires in node and port order. -/
  wires : List Wire
  /-- The primary outputs. -/
  outputs : List String

namespace Fanout

/-- The node ports that read a signal, in node and port order. -/
def consumers (fanout : Fanout) (signal : String) : List (NodeId × Nat) :=
  (fanout.wires.filter fun w => w.source = signal).map fun w => (w.node, w.port)

/-- The number of node ports that read a signal. -/
def count (fanout : Fanout) (signal : String) : Nat := (fanout.consumers signal).length

/-- Is the signal a primary output? -/
def isOutput (fanout : Fanout) (signal : String) : Bool := fanout.outputs.contains signal

/-- The node that reads a signal, when one port reads it and it is no primary output. -/
def singleConsumer? (fanout : Fanout) (signal : String) : Option NodeId :=
  match fanout.consumers signal with
  | [(node, _)] => if fanout.isOutput signal then none else some node
  | _ => none

end Fanout

/-- The readers of the signals of a netlist as it is now. -/
def Netlist.fanout (n : Netlist) : Fanout := ⟨n.derivedWires, n.outputs⟩

end GateSynth
