import GateSynth.Mapping.Cover
import GateSynth.Mapping.Timing

/-!
# Mapping

`Netlist.mapOnto` covers a netlist with the cells of a library and measures the result. The
netlist itself is not changed.
-/

namespace GateSynth

/-- A mapped netlist and its figures. -/
structure Mapping (ν : Type) where
  /-- The netlist of cell instances. -/
  netlist : Netlist
  /-- What the cover was chosen for. -/
  strategy : Strategy
  /-- The area of all instances together. -/
  totalArea : ν
  /-- The latest arrival at a primary output. -/
  criticalArrival : ν
  /-- The number of instances of each cell, by name. -/
  cellUsage : List (String × Nat)

namespace Mapping

variable {ν : Type}

/-- The number of instances. -/
def instanceCount (m : Mapping ν) : Nat := m.netlist.nodeCount

/-- Cell names are filled up with blanks to this length. -/
def nameColumn : Nat := 12

/-- Areas and times are written with this number of places. -/
def places : Nat := 3

/-- A text filled up with blanks. -/
def padded (column : Nat) (text : String) : String :=
  text ++ String.ofList (List.replicate (column - text.length) ' ')

/-- The summary: a line with the figures, then a line for each cell. -/
def text (m : Mapping Float) : String :=
  let area := Quantity.fixedText places m.totalArea
  let arrival := Quantity.fixedText places m.criticalArrival
  let lines := m.cellUsage.map fun (cell, count) =>
    "  " ++ padded nameColumn cell ++ " " ++ toString count ++ "\n"
  m.netlist.name ++ " (" ++ m.strategy.name ++ "): " ++ toString m.instanceCount
    ++ " instances, area " ++ area ++ ", critical arrival " ++ arrival ++ "\n"
    ++ String.join lines

end Mapping

/-- Cover a netlist with the cells of a library. -/
def Netlist.mapOnto {ν : Type} [Quantity ν] (n : Netlist) (lib : Library ν)
    (strategy : Strategy) : Except MapError (Mapping ν) := do
  let subject ← Subject.ofNetlist n
  let selection ← subject.select lib strategy
  let mapped ← selection.extract subject
  let arrivals ← lib.arrivals mapped
  let area ← lib.totalArea mapped
  return ⟨mapped, strategy, area, Library.criticalArrival mapped arrivals, mapped.statistics⟩

end GateSynth
