import GateSynth.Library.Basic

/-!
# Libraries with their indices

A library that is searched often keeps two tables beside its cells: the place of the cell of every
name, and the places of the cells whose functions have their root in a kind. The tables are filled
while the names are checked, and the answers to questions are found through them.
-/

namespace GateSynth

/-- A library with the tables that it is searched by. -/
structure IndexedLibrary (ν : Type) extends Library ν where
  /-- The place of the cell of a name. -/
  byName : Table String Nat
  /-- The places of the cells whose functions have a key at their root, in order. -/
  byRoot : Table String (List Nat)

namespace IndexedLibrary

variable {ν : Type}

/-- Note the place of a cell under the root of its function. -/
def noteRoot (byRoot : Table String (List Nat)) (cell : Cell ν) (place : Nat) :
    Table String (List Nat) :=
  match cell.function.rootKey? with
  | some key => byRoot.insert key ((byRoot.find? key).getD [] ++ [place])
  | none => byRoot

/-- The tables with the cells from a place on. The names of cells are no tags, and no name comes
twice. -/
def file : (place : Nat) → List (Cell ν) → Table String Nat → Table String (List Nat) →
    Except LibraryError (Table String Nat × Table String (List Nat))
  | _, [], byName, byRoot => .ok (byName, byRoot)
  | place, cell :: rest, byName, byRoot =>
    if Kind.isReservedTag cell.name then
      .error (.invalidCell cell.name "name collides with a generic node type")
    else if byName.contains cell.name then .error (.duplicateCell cell.name)
    else file (place + 1) rest (byName.insert cell.name place) (noteRoot byRoot cell place)

/-- The library of cells. -/
def ofCells (name : String) (cells : List (Cell ν)) : Except LibraryError (IndexedLibrary ν) := do
  let (byName, byRoot) ← file 0 cells .empty .empty
  return ⟨⟨name, cells⟩, byName, byRoot⟩

/-- The library of a stored form. -/
def ofRecord [Quantity ν] (r : LibraryRecord ν) : Except LibraryError (IndexedLibrary ν) := do
  let cells ← r.cells.mapM Cell.ofRecord
  ofCells r.name cells

/-! ## Questions -/

/-- The cell of a name. -/
def cell? (lib : IndexedLibrary ν) (name : String) : Option (Cell ν) :=
  (lib.byName.find? name).bind fun place => lib.cells[place]?

/-- The cells whose function has its root in a kind. -/
def lookup (lib : IndexedLibrary ν) (kind : Kind) : List (Cell ν) :=
  match kind.lookupKey? with
  | some key => ((lib.byRoot.find? key).getD []).filterMap fun place => lib.cells[place]?
  | none => []

/-- The area of a cell. -/
def area? (lib : IndexedLibrary ν) (name : String) : Option ν := (lib.cell? name).map Cell.area

/-- The delay of a cell from an input pin to its output. -/
def delay? (lib : IndexedLibrary ν) (name pin : String) : Option ν :=
  (lib.cell? name).bind fun cell => cell.delay? pin

/-- The value of a cell at a number of bits. -/
def evalAt (lib : IndexedLibrary ν) (name : String) (init : Option Word) (operands : List Word)
    (bits : Nat) : Except NoWidth (Option Word) :=
  match lib.cell? name with
  | some cell => cell.evalAt init operands bits
  | none => .ok none

end IndexedLibrary

end GateSynth
