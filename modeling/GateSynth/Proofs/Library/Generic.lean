import GateSynth.Proofs.Library.StoredForm

/-!
# The generic library

The generic library is in order (`checked_generic`), and besides its compound cells it has for every
operator a cell that is just this operator on its input pins (`exists_generic_operator`), and a cell
for constants (`exists_generic_const`). It is the library of its stored form
(`ofRecord_genericRecord`); whether the numbers in that are positive is a question to the
floating-point unit, and is left to it.
-/

namespace GateSynth.Library

theorem checked_generic : generic.Checked := by
  refine ⟨by decide, ?_⟩
  simp only [generic, List.forall_mem_cons]
  refine ⟨?_, ?_, ?_, ?_, ?_, ?_, ?_, ?_, ?_, ?_, ?_, ?_, ?_, ?_, ?_, ?_, ?_, ?_, ?_⟩ <;> decide

/-! ## The stored form -/

theorem toRecord_generic : generic.toRecord = genericRecord := rfl

/-- Where the numbers of the generic library pass their checks, it is the library of its stored form. -/
theorem ofRecord_genericRecord
    (hareas : ∀ cell ∈ generic.cells, Quantity.isPositive cell.area = true)
    (hdelays : ∀ cell ∈ generic.cells,
      Cell.checkDelays cell.name cell.inputs cell.delay = .ok ()) :
    ofRecord genericRecord = .ok generic := by
  rw [← toRecord_generic]
  exact ofRecord_of_checks (by decide) (by decide) hareas hdelays (by decide)

/-! ## A cell for every operator -/

/-- The function of a cell is an operator on its input pins. -/
structure Flat {ν : Type} (cell : Cell ν) (operator : Operator) : Prop where
  function : cell.function = .op operator (cell.inputs.map .pin)
  nodup : cell.inputs.Nodup
  arity : cell.inputs.length = operator.arity

/-- Every operator has a cell. -/
theorem exists_generic_operator (operator : Operator) :
    ∃ cell ∈ generic.cells, Flat cell operator := by
  have hcell : ∀ {i : Nat} {cell : Cell Float}, generic.cells[i]? = some cell →
      Flat cell operator → ∃ cell ∈ generic.cells, Flat cell operator :=
    fun hi hflat => ⟨_, List.mem_of_getElem? hi, hflat⟩
  cases operator with
  | not => exact hcell (i := 0) rfl ⟨rfl, by decide, rfl⟩
  | buf => exact hcell (i := 1) rfl ⟨rfl, by decide, rfl⟩
  | and => exact hcell (i := 2) rfl ⟨rfl, by decide, rfl⟩
  | or => exact hcell (i := 4) rfl ⟨rfl, by decide, rfl⟩
  | xor => exact hcell (i := 5) rfl ⟨rfl, by decide, rfl⟩
  | nand => exact hcell (i := 6) rfl ⟨rfl, by decide, rfl⟩
  | nor => exact hcell (i := 7) rfl ⟨rfl, by decide, rfl⟩
  | mux => exact hcell (i := 12) rfl ⟨rfl, by decide, rfl⟩
  | add => exact hcell (i := 13) rfl ⟨rfl, by decide, rfl⟩
  | sub => exact hcell (i := 14) rfl ⟨rfl, by decide, rfl⟩
  | mul => exact hcell (i := 15) rfl ⟨rfl, by decide, rfl⟩
  | div => exact hcell (i := 16) rfl ⟨rfl, by decide, rfl⟩

theorem exists_generic_const : ∃ cell ∈ generic.cells, cell.function = .const ∧ cell.inputs = [] :=
  ⟨_, List.mem_of_getElem? (i := 17) rfl, rfl, rfl⟩

end GateSynth.Library
