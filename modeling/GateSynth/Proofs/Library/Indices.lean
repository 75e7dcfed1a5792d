import GateSynth.Library.Indexed
import GateSynth.Proofs.Library.StoredForm
import GateSynth.Proofs.Mapping.Correctness
import GateSynth.Proofs.Tables

/-!
# Indices of libraries

The tables of an indexed library lead to what a search through its cells finds (`Files`): filing a
cell keeps this (`Files.file_cell`), so it holds once all are filed. A library and its indexed form
are accepted together (`IndexedLibrary.ofRecord_map`), and the stored form gives both back, the tables
included (`Library.ofRecord_toRecord`).
-/

namespace GateSynth.IndexedLibrary

variable {ν : Type} {cells before rest : List (Cell ν)} {byName byName' : Table String Nat}
  {byRoot byRoot' : Table String (List Nat)} {cell : Cell ν} {place : Nat}

/-- The places of the cells whose functions have a key at their root. -/
def rootPlaces (key : String) (cells : List (Cell ν)) : List Nat :=
  (cells.zipIdx.filter fun c => c.1.function.rootKey? = some key).map Prod.snd

/-- The tables lead to the cells of every name and of every root. -/
structure Files (cells : List (Cell ν)) (byName : Table String Nat)
    (byRoot : Table String (List Nat)) : Prop where
  byName : ∀ name, byName.find? name = cells.findIdx? fun cell => cell.name = name
  byRoot : ∀ key, (byRoot.find? key).getD [] = rootPlaces key cells

theorem Files.empty : Files ([] : List (Cell ν)) .empty .empty := ⟨fun _ => rfl, fun _ => rfl⟩

/-- The place of a new cell comes last. -/
theorem rootPlaces_append (key : String) (cells : List (Cell ν)) (cell : Cell ν) :
    rootPlaces key (cells ++ [cell]) =
      rootPlaces key cells ++
        if cell.function.rootKey? = some key then [cells.length] else [] := by
  rw [rootPlaces, List.zipIdx_append, List.filter_append, List.map_append]
  congr 1
  simp only [List.zipIdx_cons, List.zipIdx_nil, List.filter_cons, List.filter_nil]
  split <;> simp_all

theorem find?_noteRoot (byRoot : Table String (List Nat)) (cell : Cell ν) (place : Nat)
    (key : String) : ((noteRoot byRoot cell place).find? key).getD [] =
      (byRoot.find? key).getD [] ++
        if cell.function.rootKey? = some key then [place] else [] := by
  rw [noteRoot]
  cases hroot : cell.function.rootKey? with
  | none => simp
  | some root =>
    rw [Table.find?_insert]
    by_cases hkey : key = root
    · subst hkey
      simp
    · simp [hkey, Ne.symm hkey]

/-- Filing a cell of a new name. -/
theorem Files.file_cell (h : Files before byName byRoot) (hnew : byName.contains cell.name = false) :
    Files (before ++ [cell]) (byName.insert cell.name before.length)
      (noteRoot byRoot cell before.length) := by
  refine ⟨fun name => ?_, fun key => ?_⟩
  · rw [Table.find?_insert, List.findIdx?_append, ← h.byName]
    split
    · next hname =>
      rw [Table.contains, Option.isSome_eq_false_iff, Option.isNone_iff_eq_none] at hnew
      simp [hname, hnew]
    · next hname => simp [Ne.symm hname]
  · rw [find?_noteRoot, rootPlaces_append, h.byRoot]

/-- Once all cells are filed, the tables are those of all of them. -/
theorem Files.file (h : Files before byName byRoot)
    (hrun : IndexedLibrary.file before.length rest byName byRoot = .ok (byName', byRoot')) :
    Files (before ++ rest) byName' byRoot' := by
  induction rest generalizing before byName byRoot with
  | nil =>
    cases hrun
    rwa [List.append_nil]
  | cons cell rest ih =>
    rw [IndexedLibrary.file] at hrun
    split at hrun
    · cases hrun
    · split at hrun
      · cases hrun
      · next hnew =>
        have hfiled := h.file_cell (by simpa using hnew)
        have hlength : (before ++ [cell]).length = before.length + 1 := by simp
        rw [← hlength] at hrun
        rw [← List.singleton_append, ← List.append_assoc]
        exact ih hfiled hrun

/-- Filing checks the names of the cells. -/
theorem file_map (rest : List (Cell ν)) (place : Nat) {names : List String}
    (hnames : ∀ name, byName.contains name = names.contains name) :
    (file place rest byName byRoot).map (fun _ => ()) = Library.checkNames rest names := by
  induction rest generalizing place byName byRoot names with
  | nil => rfl
  | cons cell rest ih =>
    rw [file, Library.checkNames, hnames]
    split
    · rfl
    · split
      · rfl
      · refine ih (place + 1) fun name => ?_
        rw [Table.contains, Table.find?_insert, List.contains_cons, ← hnames, Table.contains]
        by_cases hname : name = cell.name <;> simp [hname]

section
variable {lib : IndexedLibrary ν} (h : Files lib.cells lib.byName lib.byRoot)
include h

theorem Files.cell?_eq (name : String) : lib.cell? name = lib.toLibrary.cell? name := by
  rw [cell?, h.byName, Library.cell?, List.find?_eq_bind_findIdx?_getElem?]

/-- The cells at the places of a root are those of this root. -/
theorem Files.lookup_eq (kind : Kind) : lib.lookup kind = lib.toLibrary.lookup kind := by
  rw [lookup, Library.lookup]
  cases kind.lookupKey? with
  | none => rfl
  | some key =>
    have hplace : ∀ c ∈ lib.cells.zipIdx.filter fun c => c.1.function.rootKey? = some key,
        ((fun place => lib.cells[place]?) ∘ Prod.snd) c = some c.1 := fun c hc =>
      List.mk_mem_zipIdx_iff_getElem?.1 (List.mem_filter.1 hc).1
    show ((lib.byRoot.find? key).getD []).filterMap _ = _
    rw [h.byRoot, rootPlaces, List.filterMap_map, List.filterMap_congr hplace,
      ← Function.comp_def, List.filterMap_eq_map]
    have hcells := List.filter_map (f := Prod.fst) (l := lib.cells.zipIdx)
      (p := fun cell => decide (cell.function.rootKey? = some key))
    rw [List.zipIdx_map_fst] at hcells
    exact hcells.symm

theorem Files.area?_eq (name : String) : lib.area? name = lib.toLibrary.area? name := by
  rw [area?, h.cell?_eq, Library.area?]

theorem Files.delay?_eq (name pin : String) :
    lib.delay? name pin = lib.toLibrary.delay? name pin := by
  rw [delay?, h.cell?_eq, Library.delay?]

theorem Files.evalAt_eq (name : String) (init : Option Word) (operands : List Word) (bits : Nat) :
    lib.evalAt name init operands bits = lib.toLibrary.evalAt name init operands bits := by
  rw [evalAt, h.cell?_eq]
  rfl

end

/-! ## Libraries that are accepted -/

section
variable [Quantity ν] {r : LibraryRecord ν}

/-- A library is accepted with its tables or without them. -/
theorem ofRecord_map (r : LibraryRecord ν) :
    (ofRecord r).map toLibrary = Library.ofRecord r := by
  rw [ofRecord, Library.ofRecord]
  cases r.cells.mapM Cell.ofRecord with
  | error e => rfl
  | ok cells =>
    have hcheck : (file 0 cells Table.empty Table.empty).map (fun _ => ()) =
        Library.checkNames cells [] := file_map cells 0 fun _ => rfl
    show (ofCells r.name cells).map toLibrary =
      (Library.checkNames cells [] >>= fun _ => pure (⟨r.name, cells⟩ : Library ν))
    rw [← hcheck, ofCells]
    cases file 0 cells Table.empty Table.empty <;> rfl

/-- The tables come from the cells, whatever their stored form was. -/
theorem ofCells_of_ofRecord {lib : IndexedLibrary ν} (h : ofRecord r = .ok lib) :
    ofCells lib.name lib.cells = .ok lib := by
  obtain ⟨cells, -, h⟩ := ok_of_bind h
  obtain ⟨⟨byName, byRoot⟩, -, hlib⟩ := ok_of_bind h
  cases hlib
  exact h

theorem files_of_ofRecord {lib : IndexedLibrary ν} (h : ofRecord r = .ok lib) :
    Files lib.cells lib.byName lib.byRoot := by
  obtain ⟨⟨name, cells⟩, byName, byRoot⟩ := lib
  obtain ⟨⟨byName', byRoot'⟩, hfile, hlib⟩ := ok_of_bind (ofCells_of_ofRecord h)
  cases hlib
  exact Files.empty.file hfile

theorem exists_indexed {lib : Library ν} (h : Library.ofRecord r = .ok lib) :
    ∃ indexed, ofRecord r = .ok indexed ∧ indexed.toLibrary = lib := by
  rw [← ofRecord_map] at h
  cases hrun : ofRecord r with
  | error e =>
    rw [hrun] at h
    cases h
  | ok indexed =>
    rw [hrun] at h
    exact ⟨indexed, rfl, Except.ok.inj h⟩

end

end GateSynth.IndexedLibrary

namespace GateSynth

variable {ν : Type} [Quantity ν]

/-- A library that is accepted is given back by its stored form, with the same tables, which lead to
what a search through the cells finds. -/
theorem Library.ofRecord_toRecord {r : LibraryRecord ν} {lib : Library ν}
    (h : Library.ofRecord r = .ok lib) :
    Library.ofRecord lib.toRecord = .ok lib ∧
    ∃ indexed : IndexedLibrary ν, IndexedLibrary.ofRecord r = .ok indexed ∧
      IndexedLibrary.ofRecord lib.toRecord = .ok indexed ∧ indexed.toLibrary = lib ∧
      (∀ name, indexed.cell? name = lib.cell? name) ∧
      (∀ kind, indexed.lookup kind = lib.lookup kind) ∧
      (∀ name, indexed.area? name = lib.area? name) ∧
      (∀ name pin, indexed.delay? name pin = lib.delay? name pin) ∧
      ∀ name init operands bits,
        indexed.evalAt name init operands bits = lib.evalAt name init operands bits := by
  have hagain := ofRecord_of_toRecord h
  obtain ⟨indexed, hrun, rfl⟩ := IndexedLibrary.exists_indexed h
  obtain ⟨indexed', hrun', hsame⟩ := IndexedLibrary.exists_indexed hagain
  have hcells := IndexedLibrary.ofCells_of_ofRecord hrun'
  rw [hsame, IndexedLibrary.ofCells_of_ofRecord hrun] at hcells
  cases hcells
  have hfiles := IndexedLibrary.files_of_ofRecord hrun
  exact ⟨hagain, indexed, hrun, hrun', rfl, hfiles.cell?_eq, hfiles.lookup_eq, hfiles.area?_eq,
    hfiles.delay?_eq, hfiles.evalAt_eq⟩

namespace Stored

/-- A stored library whose pins and functions are not written as they are exported. -/
def record : LibraryRecord Nat :=
  ⟨"stored",
    [⟨"AOI", " NOT ( OR(AND(A , AND),C) )",
        [⟨"Y", .output⟩, ⟨"AND", .input⟩, ⟨"C", .input⟩, ⟨"A", .input⟩], 25,
        .perPin ⟨[("C", 9), ("A", 12), ("AND", 12)]⟩⟩,
      ⟨"RAM", "MODULE : ram(D,D)", [⟨"D", .input⟩, ⟨"Q", .output⟩], 500, .uniform 30⟩,
      ⟨"INV", "NOT(A)", [⟨"A", .input⟩, ⟨"Y", .output⟩], 10, .uniform 4⟩]⟩

/-- The library of the record. -/
def library : Library Nat :=
  ⟨"stored",
    [⟨"AOI", .op .not [.op .or [.op .and [.pin "A", .pin "AND"], .pin "C"]], ["AND", "C", "A"], "Y",
        25, .perPin ⟨[("C", 9), ("A", 12), ("AND", 12)]⟩⟩,
      ⟨"RAM", .module "ram" [.pin "D", .pin "D"], ["D"], "Q", 500, .uniform 30⟩,
      ⟨"INV", .op .not [.pin "A"], ["A"], "Y", 10, .uniform 4⟩]⟩

theorem ofRecord_record : Library.ofRecord record = .ok library := by decide +kernel

end Stored

/-- Exporting the library writes its cells in another way; the two cells with the same root are found
in their order afterwards. -/
theorem ofRecord_toRecord_inverters :
    Library.ofRecord Stored.record = .ok Stored.library ∧
      Library.ofRecord Stored.library.toRecord = .ok Stored.library ∧
        ∃ indexed : IndexedLibrary Nat,
          IndexedLibrary.ofRecord Stored.library.toRecord = .ok indexed ∧
            (indexed.lookup (.op .not)).map Cell.name = ["AOI", "INV"] := by
  obtain ⟨hagain, indexed, -, hrun, -, -, hlookup, -⟩ :=
    Library.ofRecord_toRecord Stored.ofRecord_record
  refine ⟨Stored.ofRecord_record, hagain, indexed, hrun, ?_⟩
  rw [hlookup]
  decide

end GateSynth
