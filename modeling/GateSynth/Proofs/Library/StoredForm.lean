import GateSynth.Proofs.Library.Checked
import GateSynth.Proofs.Library.PatternText

/-!
# Libraries and their stored form

The stored form of an accepted cell lists the input pins first and writes the function anew. It is
accepted as well and gives the same cell back (`Cell.ofRecord_stored`): pins are split by their
direction whatever their order (`Cell.splitPins_eq_ok_iff`), and a function that was read is read from
its written form. So it is for libraries (`Library.ofRecord_of_toRecord`). A library that is written
down as cells is the one of its stored form if these cells pass the checks
(`Library.ofRecord_of_checks`).
-/

namespace GateSynth

variable {ν : Type}

/-! ## Pins -/

/-- The names of the pins of a direction. -/
def Pin.names (direction : PinDirection) (pins : List Pin) : List String :=
  (pins.filter fun pin => pin.direction = direction).map Pin.name

theorem Pin.names_cons (direction : PinDirection) (pin : Pin) (pins : List Pin) :
    Pin.names direction (pin :: pins) =
      if pin.direction = direction then pin.name :: Pin.names direction pins
      else Pin.names direction pins := by
  rw [Pin.names, List.filter_cons]
  split <;> simp_all [Pin.names]

/-- Pins are split if their names are different, also from those that are there before. -/
theorem Cell.splitPins_eq_ok_iff {name : String} {pins : List Pin}
    {inputs outputs inputs' outputs' : List String} :
    splitPins name pins inputs outputs = .ok (inputs', outputs') ↔
      ((pins.map Pin.name).Nodup ∧ ∀ pin ∈ pins, pin.name ∉ inputs ∧ pin.name ∉ outputs) ∧
        inputs' = inputs ++ Pin.names .input pins ∧
        outputs' = outputs ++ Pin.names .output pins := by
  induction pins generalizing inputs outputs with
  | nil => simp [splitPins, Pin.names, eq_comm]
  | cons pin rest ih =>
    rw [splitPins]
    split
    · next htaken =>
      simp only [Bool.or_eq_true, List.contains_iff_mem] at htaken
      refine ⟨nofun, fun ⟨⟨_, hnew⟩, _⟩ => ?_⟩
      have hfree := hnew pin (.head _)
      exact absurd htaken (not_or.2 hfree)
    · next hfree =>
      simp only [Bool.or_eq_true, List.contains_iff_mem, not_or] at hfree
      rw [List.map_cons, List.nodup_cons, List.forall_mem_cons]
      cases hdirection : pin.direction with
      | input =>
        simp only [ih, Pin.names_cons, hdirection, List.mem_append, List.mem_singleton,
          List.mem_map, List.append_assoc, List.singleton_append]
        grind
      | output =>
        simp only [ih, Pin.names_cons, hdirection, List.mem_append, List.mem_singleton,
          List.mem_map, List.append_assoc, List.singleton_append]
        grind

/-- Pins of one direction are listed by their names. -/
theorem Pin.names_map (direction other : PinDirection) (names : List String) :
    Pin.names direction (names.map (⟨·, other⟩)) = if other = direction then names else [] := by
  induction names with
  | nil => simp [Pin.names]
  | cons name names ih =>
    rw [List.map_cons, Pin.names_cons, ih]
    split <;> rfl

theorem Pin.names_append (direction : PinDirection) (pins pins' : List Pin) :
    Pin.names direction (pins ++ pins') = Pin.names direction pins ++ Pin.names direction pins' := by
  rw [Pin.names, List.filter_append, List.map_append]
  rfl

/-- A name is that of pins of one direction only. -/
theorem Pin.disjoint_names {pins : List Pin} (h : (pins.map Pin.name).Nodup) :
    (Pin.names .input pins ++ Pin.names .output pins).Nodup := by
  have hsub : ∀ direction, (Pin.names direction pins).Nodup := fun direction =>
    h.sublist (List.filter_sublist.map Pin.name)
  refine List.nodup_append.2 ⟨hsub .input, hsub .output, ?_⟩
  intro name hinput other houtput heq
  obtain ⟨pin, hpin, rfl⟩ := List.mem_map.1 hinput
  obtain ⟨pin', hpin', rfl⟩ := List.mem_map.1 houtput
  obtain ⟨hmem, hdirection⟩ := List.mem_filter.1 hpin
  obtain ⟨hmem', hdirection'⟩ := List.mem_filter.1 hpin'
  cases List.inj_on_of_nodup_map h hmem hmem' heq
  simp only [decide_eq_true_eq] at hdirection hdirection'
  cases hdirection.symm.trans hdirection'

/-! ## Cells and libraries -/

theorem Cell.map_name_toRecord (cell : Cell ν) :
    cell.toRecord.pins.map Pin.name = cell.inputs ++ [cell.output] := by
  simp [toRecord, Function.comp_def]

theorem Cell.names_toRecord (cell : Cell ν) (direction : PinDirection) :
    Pin.names direction cell.toRecord.pins =
      if direction = .input then cell.inputs else [cell.output] := by
  rw [toRecord, Pin.names_append, Pin.names_map, Pin.names_cons]
  cases direction <;> simp [Pin.names]

theorem Cell.splitPins_toRecord {cell : Cell ν} (h : (cell.inputs ++ [cell.output]).Nodup) :
    splitPins cell.name cell.toRecord.pins [] [] = .ok (cell.inputs, [cell.output]) := by
  refine splitPins_eq_ok_iff.2
    ⟨⟨?_, fun _ _ => ⟨List.not_mem_nil, List.not_mem_nil⟩⟩, ?_, ?_⟩
  · rwa [map_name_toRecord]
  · rw [names_toRecord, if_pos rfl, List.nil_append]
  · rw [names_toRecord, if_neg nofun, List.nil_append]

section
variable [Quantity ν]

/-- The stored form of an accepted cell is accepted as this cell. -/
theorem Cell.ofRecord_stored {r : CellRecord ν} {cell : Cell ν} (h : ofRecord r = .ok cell) :
    ofRecord cell.toRecord = .ok cell := by
  obtain ⟨⟨hparse, hroot, hsplit, hpins, harea, hdelays⟩, hname, hsame, hdelay⟩ :=
    ofRecord_eq_ok_iff.1 h
  obtain ⟨⟨hnodup, -⟩, hinputs, houtputs⟩ := splitPins_eq_ok_iff.1 hsplit
  rw [List.nil_append] at hinputs houtputs
  refine ofRecord_eq_ok_iff.2 ⟨⟨?_, hroot, splitPins_toRecord ?_, ?_, ?_, ?_⟩, rfl, rfl, rfl⟩
  · exact (Pattern.parse_eq_ok_iff.1 hparse).1.parse_text
  · rw [hinputs, houtputs]
    exact Pin.disjoint_names hnodup
  · rwa [toRecord, hname]
  · rwa [toRecord, hname, hsame]
  · rwa [toRecord, hname, hdelay]

theorem mapM_map_eq_ok {ε α β : Type} {f : β → Except ε α} {g : α → β} {xs : List α}
    (h : ∀ x ∈ xs, f (g x) = .ok x) : (xs.map g).mapM f = .ok xs := by
  induction xs with
  | nil => rfl
  | cons x xs ih =>
    rw [List.forall_mem_cons] at h
    rw [List.map_cons, List.mapM_cons]
    exact bind_eq_ok.2 ⟨x, h.1, bind_eq_ok.2 ⟨xs, ih h.2, rfl⟩⟩

/-- The stored form of an accepted library is accepted as this library. -/
theorem Library.ofRecord_of_toRecord {r : LibraryRecord ν} {lib : Library ν}
    (h : ofRecord r = .ok lib) : ofRecord lib.toRecord = .ok lib := by
  obtain ⟨cells, hcells, h⟩ := ok_of_bind h
  obtain ⟨hnames, h⟩ := bind_eq_ok_iff.1 h
  cases h
  have hagain : (cells.map Cell.toRecord).mapM Cell.ofRecord = .ok cells := by
    refine mapM_map_eq_ok fun cell hcell => ?_
    obtain ⟨stored, -, hstored⟩ := exists_of_forall₂ (forall₂_of_mapM_ok hcells) hcell
    exact Cell.ofRecord_stored hstored
  exact bind_eq_ok.2 ⟨cells, hagain, bind_eq_ok_iff.2 ⟨hnames, rfl⟩⟩

/-- A library is that of its stored form if its functions can be read and its cells pass the checks:
those of functions and pins, and those of areas and delays. -/
theorem Library.ofRecord_of_checks {lib : Library ν}
    (hfunctions : ∀ cell ∈ lib.cells,
      cell.function.Readable ∧ cell.function.rootKey?.isSome = true)
    (hpins : ∀ cell ∈ lib.cells, (cell.inputs ++ [cell.output]).Nodup ∧
      Cell.checkPins cell.name cell.function.pins cell.inputs = .ok ())
    (hareas : ∀ cell ∈ lib.cells, Quantity.isPositive cell.area = true)
    (hdelays : ∀ cell ∈ lib.cells, Cell.checkDelays cell.name cell.inputs cell.delay = .ok ())
    (hnames : checkNames lib.cells [] = .ok ()) : ofRecord lib.toRecord = .ok lib := by
  have hcells : (lib.cells.map Cell.toRecord).mapM Cell.ofRecord = .ok lib.cells := by
    refine mapM_map_eq_ok fun cell hcell => Cell.ofRecord_eq_ok_iff.2
      ⟨⟨?_, (hfunctions cell hcell).2, Cell.splitPins_toRecord (hpins cell hcell).1,
        (hpins cell hcell).2, if_pos (hareas cell hcell), hdelays cell hcell⟩, rfl, rfl, rfl⟩
    exact (hfunctions cell hcell).1.parse_text
  exact bind_eq_ok.2 ⟨lib.cells, hcells, bind_eq_ok_iff.2 ⟨hnames, rfl⟩⟩

end

end GateSynth
