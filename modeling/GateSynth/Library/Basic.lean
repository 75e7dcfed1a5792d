import GateSynth.Json.Decode
import GateSynth.Json.Reader
import GateSynth.Library.Cell
import GateSynth.Simulation.Evaluator

/-!
# Cell libraries

A library is a list of cells with different names, none of which is a tag of a node kind. Cells
are found by name, or by the root of their function in library order; where two cells are equally
good the earlier one is preferred. `Library.ofJson` reads a stored library, and `Library.generic`
is a small library with a cell for every operator.
-/

namespace GateSynth

/-- A library as it is stored. -/
structure LibraryRecord (ν : Type) where
  /-- The name. -/
  name : String
  /-- The cells, the preferred ones first. -/
  cells : List (CellRecord ν)

/-- A cell library. -/
structure Library (ν : Type) where
  /-- The name. -/
  name : String
  /-- The cells, the preferred ones first. -/
  cells : List (Cell ν)
deriving DecidableEq

namespace Library

variable {ν : Type}

/-- The cell of a name. -/
def cell? (lib : Library ν) (name : String) : Option (Cell ν) :=
  lib.cells.find? fun cell => cell.name = name

/-- The cells whose function has its root in a kind. -/
def lookup (lib : Library ν) (kind : Kind) : List (Cell ν) :=
  match kind.lookupKey? with
  | some key => lib.cells.filter fun cell => cell.function.rootKey? = some key
  | none => []

/-- The area of a cell. -/
def area? (lib : Library ν) (name : String) : Option ν := (lib.cell? name).map Cell.area

/-- The delay of a cell from an input pin to its output. -/
def delay? (lib : Library ν) (name pin : String) : Option ν :=
  (lib.cell? name).bind fun cell => cell.delay? pin

/-- The functions of the cells. -/
def functions (lib : Library ν) : CellFunctions := fun name init operands w =>
  (lib.cell? name).bind fun cell => cell.eval init operands w

/-- The value of a cell at a number of bits. -/
def evalAt (lib : Library ν) (name : String) (init : Option Word) (operands : List Word)
    (bits : Nat) : Except NoWidth (Option Word) :=
  match lib.cell? name with
  | some cell => cell.evalAt init operands bits
  | none => .ok none

/-- The stored form of a library. -/
def toRecord (lib : Library ν) : LibraryRecord ν := ⟨lib.name, lib.cells.map Cell.toRecord⟩

/-- The names of cells are no tags, and no name comes twice. -/
def checkNames : List (Cell ν) → (before : List String) → Except LibraryError Unit
  | [], _ => .ok ()
  | cell :: rest, before =>
    if Kind.isReservedTag cell.name then
      .error (.invalidCell cell.name "name collides with a generic node type")
    else if before.contains cell.name then .error (.duplicateCell cell.name)
    else checkNames rest (cell.name :: before)

/-- The library of a stored form. -/
def ofRecord [Quantity ν] (r : LibraryRecord ν) : Except LibraryError (Library ν) := do
  let cells ← r.cells.mapM Cell.ofRecord
  checkNames cells []
  return ⟨r.name, cells⟩

/-! ## Stored libraries -/

/-- The direction of a pin: its word, or the object of that one member whose value is null. -/
def direction? (json : Json) : Option PinDirection :=
  let word := match json with
    | .string text => text
    | .object [(key, .null)] => key
    | _ => none
  match word with
  | some "input" => some .input
  | some "output" => some .output
  | _ => none

/-- A pin. -/
def pin? (json : Json) : Option Pin := do
  match ← json.fields? ["name", "direction"] with
  | [name, direction] =>
    return ⟨← Json.required? Json.string? name, ← Json.required? direction? direction⟩
  | _ => none

/-- A delay: a number, or a map from pins to numbers. -/
def delayModel? (json : Json) : Option (Delay Float) :=
  match json.double? with
  | some d => some (.uniform d)
  | none => (json.map? some Json.double?).map .perPin

/-- A cell. -/
def cellRecord? (json : Json) : Option (CellRecord Float) := do
  match ← json.fields? ["name", "function", "pins", "area", "delay"] with
  | [name, function, pins, area, delay] =>
    return {
      name := ← Json.required? Json.string? name
      function := ← Json.required? Json.string? function
      pins := ← Json.required? (Json.list? pin?) pins
      area := ← Json.required? Json.double? area
      delay := ← Json.required? delayModel? delay }
  | _ => none

/-- A library record. -/
def record? (json : Json) : Option (LibraryRecord Float) := do
  match ← json.fields? ["name", "cells"] with
  | [name, cells] =>
    return ⟨← Json.required? Json.string? name, ← Json.required? (Json.list? cellRecord?) cells⟩
  | _ => none

/-- The library of a JSON text. -/
def ofJson (text : String) : Except LibraryError (Library Float) :=
  match (Json.parse? text).bind record? with
  | some r => ofRecord r
  | none => .error .undecodable

/-! ## The generic library -/

/-- The delays of a cell of the generic library: one for all pins or one for each. -/
def genericDelay (inputs : List String) : List Float → Delay Float
  | [d] => .uniform d
  | delays => .perPin ⟨inputs.zip delays⟩

/-- The stored form of a cell of the generic library. The output is `Y`. -/
def genericCellRecord (name function : String) (inputs : List String) (area : Float)
    (delays : List Float) : CellRecord Float where
  name := name
  function := function
  pins := inputs.map (⟨·, .input⟩) ++ [⟨"Y", .output⟩]
  area := area
  delay := genericDelay inputs delays

/-- The stored form of the generic library. Of the two cells for AND one is smaller and the other
faster. -/
def genericRecord : LibraryRecord Float :=
  ⟨"generic",
    [genericCellRecord "INV_X1" "NOT(A)" ["A"] 1.0 [0.4],
      genericCellRecord "BUF_X1" "BUF(A)" ["A"] 1.0 [0.5],
      genericCellRecord "AND2_X1" "AND(A,B)" ["A", "B"] 2.0 [1.0],
      genericCellRecord "AND2_LP" "AND(A,B)" ["A", "B"] 1.5 [2.0],
      genericCellRecord "OR2_X1" "OR(A,B)" ["A", "B"] 2.0 [1.0],
      genericCellRecord "XOR2_X1" "XOR(A,B)" ["A", "B"] 3.0 [1.4],
      genericCellRecord "NAND2_X1" "NAND(A,B)" ["A", "B"] 1.5 [0.8],
      genericCellRecord "NOR2_X1" "NOR(A,B)" ["A", "B"] 1.5 [0.8],
      genericCellRecord "AOI21_X1" "NOT(OR(AND(A,B),C))" ["A", "B", "C"] 2.5 [1.2, 1.2, 0.9],
      genericCellRecord "OAI21_X1" "NOT(AND(OR(A,B),C))" ["A", "B", "C"] 2.5 [1.2, 1.2, 0.9],
      genericCellRecord "NAND3_X1" "NAND(AND(A,B),C)" ["A", "B", "C"] 2.0 [1.2],
      genericCellRecord "AND3_X1" "AND(AND(A,B),C)" ["A", "B", "C"] 2.5 [1.4],
      genericCellRecord "MUX2_X1" "MUX(A,B,S)" ["A", "B", "S"] 3.5 [1.2, 1.2, 1.5],
      genericCellRecord "ADD_W" "ADD(A,B)" ["A", "B"] 8.0 [4.0],
      genericCellRecord "SUB_W" "SUB(A,B)" ["A", "B"] 9.0 [4.5],
      genericCellRecord "MUL_W" "MUL(A,B)" ["A", "B"] 30.0 [10.0],
      genericCellRecord "DIV_W" "DIV(A,B)" ["A", "B"] 45.0 [16.0],
      genericCellRecord "TIE" "CONST" [] 0.5 [0.0]]⟩

/-- A cell of the generic library: the pins are those of its function, the output is `Y`. -/
def genericCell (name : String) (function : Pattern) (area : Float) (delays : List Float) :
    Cell Float :=
  ⟨name, function, function.pins, "Y", area, genericDelay function.pins delays⟩

/-- The generic library, with its functions read. -/
def generic : Library Float :=
  let a := Pattern.pin "A"
  let b := Pattern.pin "B"
  let c := Pattern.pin "C"
  let s := Pattern.pin "S"
  ⟨"generic",
    [genericCell "INV_X1" (.op .not [a]) 1.0 [0.4],
      genericCell "BUF_X1" (.op .buf [a]) 1.0 [0.5],
      genericCell "AND2_X1" (.op .and [a, b]) 2.0 [1.0],
      genericCell "AND2_LP" (.op .and [a, b]) 1.5 [2.0],
      genericCell "OR2_X1" (.op .or [a, b]) 2.0 [1.0],
      genericCell "XOR2_X1" (.op .xor [a, b]) 3.0 [1.4],
      genericCell "NAND2_X1" (.op .nand [a, b]) 1.5 [0.8],
      genericCell "NOR2_X1" (.op .nor [a, b]) 1.5 [0.8],
      genericCell "AOI21_X1" (.op .not [.op .or [.op .and [a, b], c]]) 2.5 [1.2, 1.2, 0.9],
      genericCell "OAI21_X1" (.op .not [.op .and [.op .or [a, b], c]]) 2.5 [1.2, 1.2, 0.9],
      genericCell "NAND3_X1" (.op .nand [.op .and [a, b], c]) 2.0 [1.2],
      genericCell "AND3_X1" (.op .and [.op .and [a, b], c]) 2.5 [1.4],
      genericCell "MUX2_X1" (.op .mux [a, b, s]) 3.5 [1.2, 1.2, 1.5],
      genericCell "ADD_W" (.op .add [a, b]) 8.0 [4.0],
      genericCell "SUB_W" (.op .sub [a, b]) 9.0 [4.5],
      genericCell "MUL_W" (.op .mul [a, b]) 30.0 [10.0],
      genericCell "DIV_W" (.op .div [a, b]) 45.0 [16.0],
      genericCell "TIE" .const 0.5 [0.0]]⟩

end Library

end GateSynth
