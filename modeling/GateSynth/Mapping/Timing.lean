import GateSynth.Library.Basic
import GateSynth.Mapping.Error
import GateSynth.Netlist.Order

/-!
# Area and timing

The figures of a netlist of cell instances: the time at which every signal arrives, the latest
arrival at an output, and the area of all instances together.
-/

namespace GateSynth

/-- The arrival time of every signal that has one. -/
abbrev Arrivals (ν : Type) := Table String ν

namespace Library

variable {ν : Type}

/-- The cell of an instance. -/
def instanceCell (lib : Library ν) (node : Node) : Except MapError (Cell ν) :=
  match node.kind with
  | .cell name _ =>
    match lib.cell? name with
    | some cell => .ok cell
    | none => .error (.unknownCell node.id name)
  | kind => .error (.unknownCell node.id kind.tag)

variable [Quantity ν]

/-- The latest of some times, zero if there is none. -/
def latestOf (times : List ν) : ν := times.foldl Quantity.max Quantity.zero

/-- The arrival time at the output of an instance. -/
def outputArrival (cell : Cell ν) (arrivals : Arrivals ν) (fanins : List Fanin) : ν :=
  latestOf ((cell.inputs.zip fanins).map fun (pin, f) =>
    Quantity.add ((arrivals.find? f.signal).getD Quantity.zero)
      ((cell.delay? pin).getD Quantity.zero))

/-- The arrival times along an order of the nodes. -/
def arrivalsAlong (lib : Library ν) (n : Netlist) :
    List NodeId → Arrivals ν → Except MapError (Arrivals ν)
  | [], arrivals => .ok arrivals
  | id :: rest, arrivals =>
    match n.node? id with
    | none => arrivalsAlong lib n rest arrivals
    | some node => do
      let cell ← lib.instanceCell node
      let time := outputArrival cell arrivals node.fanins
      arrivalsAlong lib n rest (arrivals.insert node.output time)

/-- The arrival time of every signal; primary inputs arrive at zero. -/
def arrivals (lib : Library ν) (n : Netlist) : Except MapError (Arrivals ν) := do
  let order ← n.topoOrder.mapError .structural
  lib.arrivalsAlong n order (Table.ofList (n.inputs.map fun input => (input, Quantity.zero)))

/-- The latest arrival at a primary output. -/
def criticalArrival (n : Netlist) (arrivals : Arrivals ν) : ν :=
  latestOf (n.outputs.filterMap arrivals.find?)

/-- The areas of nodes, added to an area. -/
def addArea (lib : Library ν) : List Node → (area : ν) → Except MapError ν
  | [], area => .ok area
  | node :: rest, area => do
    let cell ← lib.instanceCell node
    addArea lib rest (Quantity.add area cell.area)

/-- The area of all instances together. -/
def totalArea (lib : Library ν) (n : Netlist) : Except MapError ν :=
  lib.addArea n.nodes Quantity.emptySum

end Library

end GateSynth
