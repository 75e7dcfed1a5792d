import GateSynth.Library.Basic
import GateSynth.Proofs.Results
import Mathlib.Data.List.Nodup

/-!
# Checked libraries

What `Library.ofRecord` promises of the libraries that it accepts (`checked_of_ofRecord`): the name
of a cell finds the cell, and the function of a cell reads no pin but its inputs. It reads all of
them and is more than a pin (`exact_of_ofRecord`). The names are no tags (`not_reserved_of_ofRecord`),
and the areas are positive (`isPositive_area_of_ofRecord`).
-/

namespace GateSynth

variable {ν : Type}

/-- What the checks of a stored library leave. -/
structure Library.Checked (lib : Library ν) : Prop where
  /-- No two cells have one name. -/
  names : (lib.cells.map Cell.name).Nodup
  /-- A function reads input pins only. -/
  pins : ∀ cell ∈ lib.cells, ∀ pin ∈ cell.function.pinList, pin ∈ cell.inputs

/-- The inputs of the cells are the pins of their functions, and no function is just a pin. -/
structure Library.Exact (lib : Library ν) : Prop extends Checked lib where
  /-- A function reads every input pin. -/
  used : ∀ cell ∈ lib.cells, ∀ pin ∈ cell.inputs, pin ∈ cell.function.pinList
  /-- A function has an operator or a constant at its root. -/
  rooted : ∀ cell ∈ lib.cells, cell.function.rootKey?.isSome = true

namespace Library

variable {lib : Library ν} {cell : Cell ν}

theorem cell?_eq_some {name : String} (h : lib.cell? name = some cell) :
    cell ∈ lib.cells ∧ cell.name = name :=
  ⟨List.mem_of_find?_eq_some h, by simpa using List.find?_some h⟩

theorem mem_of_lookup {kind : Kind} (h : cell ∈ lib.lookup kind) : cell ∈ lib.cells := by
  rw [lookup] at h
  split at h
  · exact (List.mem_filter.1 h).1
  · cases h

/-- In a checked library a cell is found by its name. -/
theorem Checked.cell?_name (h : lib.Checked) (hcell : cell ∈ lib.cells) :
    lib.cell? cell.name = some cell := by
  have hsome : (lib.cell? cell.name).isSome := by
    rw [cell?, List.find?_isSome]
    exact ⟨cell, hcell, by simp⟩
  obtain ⟨found, hfound⟩ := Option.isSome_iff_exists.1 hsome
  obtain ⟨hmem, hname⟩ := cell?_eq_some hfound
  rw [hfound, List.inj_on_of_nodup_map h.names hmem hcell hname]

theorem checkNames_eq_ok {cells : List (Cell ν)} {before : List String}
    (h : checkNames cells before = .ok ()) :
    (cells.map Cell.name).Nodup ∧ ∀ cell ∈ cells, cell.name ∉ before := by
  induction cells generalizing before with
  | nil => simp
  | cons cell rest ih =>
    rw [checkNames] at h
    split at h
    · cases h
    · split at h
      · cases h
      · next hnew =>
        obtain ⟨hnodup, hfresh⟩ := ih h
        refine ⟨?_, ?_⟩
        · rw [List.map_cons, List.nodup_cons]
          refine ⟨fun hmem => ?_, hnodup⟩
          obtain ⟨other, hother, hname⟩ := List.mem_map.1 hmem
          exact hfresh other hother (hname ▸ .head _)
        · rw [List.forall_mem_cons]
          exact ⟨by simpa using hnew, fun other hother hmem => hfresh other hother (.tail _ hmem)⟩

theorem not_reserved_of_checkNames {cells : List (Cell ν)} {before : List String}
    (h : checkNames cells before = .ok ()) :
    ∀ cell ∈ cells, Kind.isReservedTag cell.name = false := by
  induction cells generalizing before with
  | nil => exact nofun
  | cons cell rest ih =>
    rw [checkNames] at h
    split at h
    · cases h
    · next hfree =>
      split at h
      · cases h
      · exact List.forall_mem_cons.2 ⟨by simpa using hfree, ih h⟩

end Library

section
variable [Quantity ν] {lib : Library ν}

theorem Cell.checkPins_eq_ok {name : String} {used inputs : List String}
    (h : checkPins name used inputs = .ok ()) : ∀ pin ∈ used, pin ∈ inputs := by
  intro pin hpin
  by_contra hnot
  obtain ⟨missing, hmissing⟩ : ∃ missing,
      used.find? (fun pin => !inputs.contains pin) = some missing := by
    rw [← Option.isSome_iff_exists, List.find?_isSome]
    exact ⟨pin, hpin, by simpa using hnot⟩
  rw [checkPins, hmissing] at h
  cases h

theorem Cell.used_of_checkPins {name : String} {used inputs : List String}
    (h : checkPins name used inputs = .ok ()) : ∀ pin ∈ inputs, pin ∈ used := by
  intro pin hpin
  by_contra hnot
  obtain ⟨unused, hunused⟩ : ∃ unused,
      inputs.find? (fun pin => !used.contains pin) = some unused := by
    rw [← Option.isSome_iff_exists, List.find?_isSome]
    exact ⟨pin, hpin, by simpa using hnot⟩
  rw [checkPins, hunused] at h
  split at h <;> cases h

theorem Cell.checkArea_eq_ok {name : String} {area : ν} (h : checkArea name area = .ok ()) :
    Quantity.isPositive area = true := by
  rw [checkArea] at h
  split at h
  · next hpositive => exact hpositive
  · cases h

/-- The cells that are accepted, and what they are. -/
theorem Cell.ofRecord_eq_ok_iff {r : CellRecord ν} {cell : Cell ν} : ofRecord r = .ok cell ↔
    (Pattern.parse r.function = .ok cell.function ∧ cell.function.rootKey?.isSome = true ∧
      splitPins r.name r.pins [] [] = .ok (cell.inputs, [cell.output]) ∧
      checkPins r.name cell.function.pins cell.inputs = .ok () ∧
      checkArea r.name r.area = .ok () ∧ checkDelays r.name cell.inputs r.delay = .ok ()) ∧
    cell.name = r.name ∧ cell.area = r.area ∧ cell.delay = r.delay := by
  constructor
  · intro h
    obtain ⟨function, hparse, h⟩ := ok_of_bind h
    split at h
    · cases h
    next hroot =>
    obtain ⟨⟨inputs, outputs⟩, hsplit, h⟩ := ok_of_bind h
    dsimp only at h
    split at h
    · obtain ⟨hpins, h⟩ := bind_eq_ok_iff.1 h
      obtain ⟨harea, h⟩ := bind_eq_ok_iff.1 h
      obtain ⟨hdelays, h⟩ := bind_eq_ok_iff.1 h
      cases h
      have hsome : function.rootKey?.isSome = true :=
        Option.isSome_iff_ne_none.2 fun hnone => hroot (by rw [hnone]; rfl)
      exact ⟨⟨ok_of_mapError hparse, hsome, hsplit, hpins, harea, hdelays⟩, rfl, rfl, rfl⟩
    · cases h
  · rintro ⟨⟨hparse, hsome, hsplit, hpins, harea, hdelays⟩, hname, harea', hdelay'⟩
    rw [ofRecord, hparse]
    refine bind_eq_ok.2 ⟨cell.function, rfl, ?_⟩
    rw [if_neg (by rw [← Option.not_isSome, hsome]; decide)]
    refine bind_eq_ok.2 ⟨_, hsplit, ?_⟩
    refine bind_eq_ok_iff.2 ⟨hpins, bind_eq_ok_iff.2 ⟨harea, bind_eq_ok_iff.2 ⟨hdelays, ?_⟩⟩⟩
    rw [← hname, ← harea', ← hdelay']
    rfl

/-- An accepted cell reads input pins only and has a positive area. -/
theorem Cell.spec_of_ofRecord {r : CellRecord ν} {cell : Cell ν} (h : ofRecord r = .ok cell) :
    (∀ pin ∈ cell.function.pinList, pin ∈ cell.inputs) ∧
      Quantity.isPositive cell.area = true := by
  obtain ⟨⟨-, -, -, hpins, harea, -⟩, -, hsame, -⟩ := ofRecord_eq_ok_iff.1 h
  exact ⟨fun pin hpin => checkPins_eq_ok hpins pin (List.mem_eraseDups.2 hpin),
    hsame ▸ checkArea_eq_ok harea⟩

/-- An accepted cell reads all of its input pins and is more than a pin. -/
theorem Cell.exact_of_ofRecord {r : CellRecord ν} {cell : Cell ν} (h : ofRecord r = .ok cell) :
    (∀ pin ∈ cell.inputs, pin ∈ cell.function.pinList) ∧
      cell.function.rootKey?.isSome = true := by
  obtain ⟨⟨-, hsome, -, hpins, -, -⟩, -⟩ := ofRecord_eq_ok_iff.1 h
  exact ⟨fun pin hpin => List.mem_eraseDups.1 (used_of_checkPins hpins pin hpin), hsome⟩

/-- The libraries that are accepted are checked. -/
theorem Library.checked_of_ofRecord {r : LibraryRecord ν} (h : ofRecord r = .ok lib) :
    lib.Checked := by
  obtain ⟨cells, hcells, h⟩ := ok_of_bind h
  obtain ⟨hnames, h⟩ := bind_eq_ok_iff.1 h
  cases h
  refine ⟨(checkNames_eq_ok hnames).1, fun cell hcell => ?_⟩
  obtain ⟨stored, -, hstored⟩ := exists_of_forall₂ (forall₂_of_mapM_ok hcells) hcell
  exact (Cell.spec_of_ofRecord hstored).1

/-- In a library that is accepted the inputs of the cells are the pins of their functions. -/
theorem Library.exact_of_ofRecord {r : LibraryRecord ν} (h : ofRecord r = .ok lib) :
    lib.Exact := by
  have hchecked := checked_of_ofRecord h
  obtain ⟨cells, hcells, h⟩ := ok_of_bind h
  obtain ⟨-, h⟩ := bind_eq_ok_iff.1 h
  cases h
  have hcell : ∀ cell ∈ cells, (∀ pin ∈ cell.inputs, pin ∈ cell.function.pinList) ∧
      cell.function.rootKey?.isSome = true := fun cell hcell => by
    obtain ⟨stored, -, hstored⟩ := exists_of_forall₂ (forall₂_of_mapM_ok hcells) hcell
    exact Cell.exact_of_ofRecord hstored
  exact ⟨hchecked, fun cell hmem => (hcell cell hmem).1, fun cell hmem => (hcell cell hmem).2⟩

/-- The cells of a library that is accepted have positive areas. -/
theorem Library.isPositive_area_of_ofRecord {r : LibraryRecord ν} (h : ofRecord r = .ok lib) :
    ∀ cell ∈ lib.cells, Quantity.isPositive cell.area = true := by
  obtain ⟨cells, hcells, h⟩ := ok_of_bind h
  obtain ⟨-, h⟩ := bind_eq_ok_iff.1 h
  cases h
  intro cell hcell
  obtain ⟨stored, -, hstored⟩ := exists_of_forall₂ (forall₂_of_mapM_ok hcells) hcell
  exact (Cell.spec_of_ofRecord hstored).2

/-- The cells of a library that is accepted have no tag as their name. -/
theorem Library.not_reserved_of_ofRecord {r : LibraryRecord ν} (h : ofRecord r = .ok lib) :
    ∀ cell ∈ lib.cells, Kind.isReservedTag cell.name = false := by
  obtain ⟨cells, -, h⟩ := ok_of_bind h
  obtain ⟨hnames, h⟩ := bind_eq_ok_iff.1 h
  cases h
  exact not_reserved_of_checkNames hnames

end

end GateSynth
