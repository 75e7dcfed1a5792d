import GateSynth.Proofs.Simulation.Solutions
import GateSynth.Simulation.Equivalence

/-!
# Exhaustive comparison

Evaluation looks at the given values only up to the widths of the inputs (`evaluate_congr`), and
every choice of values up to the widths is the assignment of some index (`exists_index`): indices
are numbers whose digits are the values of the inputs, the first input in front (`packed`). So the
comparison at every index decides agreement on all values, and `checkEquivalence_exact` says so: it
finds nothing exactly when two netlists agree wherever their inputs have values, and what it finds
is a difference.
-/

namespace GateSynth

/-! ## Packed values -/

namespace Evaluator

variable {n : Netlist} {v : Valuation} {index shift : Nat} {inputs : List String} {values : Values}

/-- The number whose digits are the values of the inputs of a list, the first one lowest. -/
def packed (n : Netlist) (v : Valuation) : List String → Nat
  | [] => 0
  | input :: rest =>
    ((n.width input).truncate (v input)).toNat + (n.width input).values * packed n v rest

theorem packed_lt (n : Netlist) (v : Valuation) (inputs : List String) :
    packed n v inputs < span (total (inputs.map fun input => (n.width input).bits)) := by
  induction inputs with
  | nil => exact span_pos 0
  | cons input rest ih =>
    have hdigit := (n.width input).truncate_lt (v input)
    rw [packed, List.map_cons, total, span_add, ← Width.values_eq_span]
    calc
      _ < (n.width input).values + (n.width input).values * packed n v rest :=
        Nat.add_lt_add_right hdigit _
      _ = (n.width input).values * (packed n v rest + 1) := by rw [Nat.mul_succ, Nat.add_comm]
      _ ≤ _ := Nat.mul_le_mul_left _ ih

/-- Taking the digits of a packed number gives the values back. -/
theorem find?_unpack (hindex : index >>> shift = packed n v inputs) (signal : String) :
    (unpack n index inputs shift values).find? signal =
      if signal ∈ inputs then some ((n.width signal).truncate (v signal))
      else values.find? signal := by
  induction inputs generalizing shift values with
  | nil => simp [unpack]
  | cons input rest ih =>
    have hdigit := (n.width input).truncate_lt (v input)
    have hrest : index >>> (shift + (n.width input).bits) = packed n v rest := by
      rw [Nat.shiftRight_add, hindex, Nat.shiftRight_eq_div_pow]
      exact (Nat.add_mul_div_left _ _ (n.width input).values_pos).trans
        (by rw [Nat.div_eq_of_lt hdigit, Nat.zero_add])
    have hvalue : (n.width input).truncate (UInt64.ofNat (index >>> shift)) =
        (n.width input).truncate (v input) := by
      apply UInt64.toNat_inj.mp
      rw [Width.toNat_truncate, UInt64.toNat_ofNat', Nat.mod_mod_of_dvd _ (Width.values_dvd _), hindex,
        packed, Nat.add_mul_mod_self_left, Nat.mod_eq_of_lt hdigit]
    rw [unpack, ih hrest, hvalue, Table.find?_insert]
    by_cases hsignal : signal = input
    · subst hsignal
      simp
    · simp [hsignal]

variable {e : Evaluator}

/-- Whatever the values of the inputs, some index packs them. -/
theorem exists_index (e : Evaluator) (v : Valuation) (hword : e.inputBits < 64) :
    ∃ index < Nat.pow 2 e.inputBits, ∀ i ∈ e.netlist.inputs,
      (e.assignment (UInt64.ofNat index)).find? i = some ((e.netlist.width i).truncate (v i)) := by
  have hlt := packed_lt e.netlist v e.netlist.inputs
  refine ⟨packed e.netlist v e.netlist.inputs, hlt, fun i hi => ?_⟩
  have hsmall : packed e.netlist v e.netlist.inputs < UInt64.size := hlt.trans (span_lt hword)
  rw [assignment, UInt64.toNat_ofNat_of_lt' hsmall, find?_unpack (Nat.shiftRight_zero), if_pos hi]

theorem find?_unpack_isSome (signal : String) :
    ((unpack n index inputs shift values).find? signal).isSome ↔
      signal ∈ inputs ∨ (values.find? signal).isSome := by
  induction inputs generalizing shift values with
  | nil => simp [unpack]
  | cons input rest ih =>
    rw [unpack, ih, Table.find?_insert]
    by_cases hsignal : signal = input <;> simp [hsignal]

/-- An assignment gives the primary inputs their values, and nothing else. -/
theorem assignment_isSome (e : Evaluator) (index : Word) (signal : String) :
    ((e.assignment index).find? signal).isSome ↔ signal ∈ e.netlist.inputs := by
  rw [assignment, find?_unpack_isSome]
  simp

/-! ## What evaluation looks at -/

theorem inputValues_congr {given given' : Values} {inputs : List String} {values : Values}
    (h : ∀ i ∈ inputs, (given.find? i).map (n.width i).truncate =
      (given'.find? i).map (n.width i).truncate) :
    inputValues n given inputs values = inputValues n given' inputs values := by
  induction inputs generalizing values with
  | nil => rfl
  | cons input rest ih =>
    obtain ⟨hinput, hrest⟩ := List.forall_mem_cons.1 h
    rw [inputValues, inputValues]
    cases hx : given.find? input with
    | none =>
      rw [hx, Option.map_none, eq_comm, Option.map_eq_none_iff] at hinput
      rw [hinput]
    | some x =>
      rw [hx, Option.map_some, eq_comm, Option.map_eq_some_iff] at hinput
      obtain ⟨y, hy, hxy⟩ := hinput
      rw [hy]
      simp only [hxy]
      exact ih hrest

/-- Evaluation looks at the values of the inputs up to their widths, and at nothing else. -/
theorem evaluate_congr {given given' : Values}
    (h : ∀ i ∈ e.netlist.inputs, (given.find? i).map (e.netlist.width i).truncate =
      (given'.find? i).map (e.netlist.width i).truncate) :
    e.evaluate given = e.evaluate given' := by
  rw [evaluate, evaluate, simulate, simulate, inputValues_congr h]

/-- What evaluation puts out: a value for every primary output. -/
theorem evaluate_eq_ok {given : Values} {outputs : List (String × Word)}
    (h : e.evaluate given = .ok outputs) :
    ∃ v : Valuation, outputs = e.netlist.outputs.map fun o => (o, v o) := by
  obtain ⟨values, -, h⟩ := ok_of_bind h
  cases h
  exact ⟨.ofValues values, rfl⟩

/-- Evaluation needs a value for every primary input. -/
theorem given_of_evaluate {given : Values} {outputs : List (String × Word)}
    (h : e.evaluate given = .ok outputs) : ∀ i ∈ e.netlist.inputs, (given.find? i).isSome := by
  obtain ⟨values, hvalues, -⟩ := ok_of_bind h
  obtain ⟨start, hstart, -⟩ := ok_of_bind hvalues
  intro i hi
  obtain ⟨x, hx, -⟩ := (inputValues_spec hstart i).1 hi
  rw [hx]
  rfl

end Evaluator

/-! ## The comparison -/

namespace Equivalence

variable {reference candidate : Evaluator} {expected actual : List (String × Word)}

theorem findEntry_map (v : Valuation) {o : String} {outputs : List String} (ho : o ∈ outputs) :
    Table.findEntry o (outputs.map fun o => (o, v o)) = some (v o) := by
  induction outputs with
  | nil => cases ho
  | cons first rest ih =>
    rw [List.map_cons, Table.findEntry]
    by_cases hfirst : o = first
    · rw [if_pos hfirst, hfirst]
    · rw [if_neg hfirst, ih ((List.mem_cons.1 ho).resolve_left hfirst)]

/-- What the comparison of the ports lets pass. -/
theorem portFault?_eq_none {a b : Netlist} (h : portFault? a b = none) :
    (∀ i ∈ a.inputs, i ∈ b.inputs ∧ a.width i = b.width i) ∧
      a.inputs.length = b.inputs.length ∧ ∀ o ∈ a.outputs, o ∈ b.outputs := by
  rw [portFault?] at h
  split at h
  · cases h
  · next hinputs =>
    split at h
    · cases h
    · next hlength =>
      refine ⟨fun i hi => ?_, not_ne_iff.1 hlength, fun o ho => ?_⟩
      · simpa [Netlist.isInput] using List.find?_eq_none.1 hinputs i hi
      · simpa [Netlist.isOutput] using
          List.find?_eq_none.1 (Option.map_eq_none_iff.1 h) o ho

/-- Netlists with the same ports pass the comparison of the ports. -/
theorem portFault?_of_same {a b : Netlist} (hinputs : b.inputs = a.inputs)
    (houtputs : b.outputs = a.outputs) (hwidth : ∀ i ∈ a.inputs, b.width i = a.width i) :
    portFault? a b = none := by
  have hports : (a.inputs.find? fun i => !b.isInput i || a.width i != b.width i) = none := by
    rw [List.find?_eq_none]
    intro i hi
    simp [Netlist.isInput, hinputs, hi, hwidth i hi]
  have hputs : (a.outputs.find? fun o => !b.isOutput o) = none := by
    rw [List.find?_eq_none]
    intro o ho
    simp [Netlist.isOutput, houtputs, ho]
  rw [portFault?, hports, hputs]
  simp [hinputs]

/-- The first difference is one, and there is none where all outputs agree. -/
theorem firstDifference_spec (actual expected : List (String × Word)) :
    (firstDifference actual expected = none ↔
      ∀ e ∈ expected, (Table.findEntry e.1 actual).getD 0 = e.2) ∧
    ∀ output want got, firstDifference actual expected = some (output, want, got) →
      (output, want) ∈ expected ∧ (Table.findEntry output actual).getD 0 = got ∧ want ≠ got := by
  induction expected with
  | nil => simp [firstDifference]
  | cons e rest ih =>
    obtain ⟨output, want⟩ := e
    rw [firstDifference]
    by_cases hsame : (Table.findEntry output actual).getD 0 = want
    · rw [if_pos hsame, List.forall_mem_cons]
      refine ⟨⟨fun h => ⟨hsame, ih.1.1 h⟩, fun h => ih.1.2 h.2⟩, fun o x y h => ?_⟩
      obtain ⟨hmem, hgot⟩ := ih.2 o x y h
      exact ⟨.tail _ hmem, hgot⟩
    · rw [if_neg hsame, List.forall_mem_cons]
      refine ⟨⟨nofun, fun h => absurd h.1 hsame⟩, fun o x y h => ?_⟩
      cases h
      exact ⟨.head _, rfl, Ne.symm hsame⟩

/-- Both netlists can be evaluated on the given values and agree on the outputs of the first. -/
def AgreeOn (reference candidate : Evaluator) (given : Values) : Prop :=
  ∃ expected actual, reference.evaluate given = .ok expected ∧
    candidate.evaluate given = .ok actual ∧
    ∀ o ∈ reference.netlist.outputs, ∃ x,
      Table.findEntry o expected = some x ∧ Table.findEntry o actual = some x

/-- The values of an assignment make a difference: both netlists can be evaluated on them and the
output has the two values, which are not equal. -/
structure Distinguishes (reference candidate : Evaluator) (c : Counterexample) : Prop where
  /-- The values are those of the primary inputs. -/
  inputs : c.inputs.map Prod.fst = reference.netlist.inputs
  /-- The output is one of the reference. -/
  output : c.output ∈ reference.netlist.outputs
  /-- The reference puts out the expected value. -/
  expected : ∃ outputs, reference.evaluate ⟨c.inputs⟩ = .ok outputs ∧
    Table.findEntry c.output outputs = some c.expected
  /-- The candidate puts out the actual value. -/
  actual : ∃ outputs, candidate.evaluate ⟨c.inputs⟩ = .ok outputs ∧
    Table.findEntry c.output outputs = some c.actual
  /-- They are not equal. -/
  differ : c.expected ≠ c.actual

/-- The comparison at one index finds nothing exactly when the netlists agree there. -/
theorem compareAt_eq_none_iff
    (hports : portFault? reference.netlist candidate.netlist = none) (index : Nat) :
    compareAt reference candidate index = .ok none ↔
      AgreeOn reference candidate (reference.assignment (UInt64.ofNat index)) := by
  obtain ⟨-, -, houtputs⟩ := portFault?_eq_none hports
  constructor
  · intro h
    obtain ⟨expected, hexpected, h⟩ := ok_of_bind h
    obtain ⟨actual, hactual, h⟩ := ok_of_bind h
    split at h
    · cases h
    · next hnone =>
      obtain ⟨v, rfl⟩ := Evaluator.evaluate_eq_ok hexpected
      obtain ⟨u, rfl⟩ := Evaluator.evaluate_eq_ok hactual
      refine ⟨_, _, hexpected, hactual, fun o ho => ⟨v o, findEntry_map v ho, ?_⟩⟩
      have hsame := (firstDifference_spec _ _).1.1 hnone (o, v o) (List.mem_map_of_mem ho)
      rw [findEntry_map u (houtputs o ho)] at hsame ⊢
      exact congrArg some hsame
  · rintro ⟨expected, actual, hexpected, hactual, hagree⟩
    obtain ⟨v, rfl⟩ := Evaluator.evaluate_eq_ok hexpected
    have hnone : firstDifference actual
        (reference.netlist.outputs.map fun o => (o, v o)) = none := by
      refine (firstDifference_spec _ _).1.2 fun e he => ?_
      obtain ⟨o, ho, rfl⟩ := List.mem_map.1 he
      obtain ⟨x, hx, hax⟩ := hagree o ho
      rw [findEntry_map v ho] at hx
      cases hx
      rw [hax]
      rfl
    simp only [compareAt, hexpected, hactual, hnone, bind, Except.bind, pure, Except.pure]

/-- What the comparison at one index finds is a difference. -/
theorem distinguishes_of_compareAt
    (hports : portFault? reference.netlist candidate.netlist = none) {index : Nat}
    {c : Counterexample} (h : compareAt reference candidate index = .ok (some c)) :
    Distinguishes reference candidate c := by
  obtain ⟨hinputs, -, houtputs⟩ := portFault?_eq_none hports
  obtain ⟨expected, hexpected, h⟩ := ok_of_bind h
  obtain ⟨actual, hactual, h⟩ := ok_of_bind h
  split at h
  · next output want got hdiff =>
    cases h
    -- The values of the counterexample are those of the assignment, written as a list.
    have hfind : ∀ i ∈ reference.netlist.inputs,
        Table.find? ⟨reference.netlist.inputs.map fun i =>
          (i, ((reference.assignment (UInt64.ofNat index)).find? i).getD 0)⟩ i =
        (reference.assignment (UInt64.ofNat index)).find? i := by
      intro i hi
      have hsome := (reference.assignment_isSome (UInt64.ofNat index) i).2 hi
      obtain ⟨x, hx⟩ := Option.isSome_iff_exists.1 hsome
      refine (findEntry_map (fun i =>
        ((reference.assignment (UInt64.ofNat index)).find? i).getD 0) hi).trans ?_
      rw [hx, Option.getD_some]
    have hcandidate : ∀ i ∈ candidate.netlist.inputs, i ∈ reference.netlist.inputs := fun i hi =>
      (reference.assignment_isSome _ i).1 (Evaluator.given_of_evaluate hactual i hi)
    obtain ⟨hmem, hgot, hne⟩ := (firstDifference_spec _ _).2 _ _ _ hdiff
    obtain ⟨v, rfl⟩ := Evaluator.evaluate_eq_ok hexpected
    obtain ⟨u, rfl⟩ := Evaluator.evaluate_eq_ok hactual
    obtain ⟨o, ho, heq⟩ := List.mem_map.1 hmem
    obtain ⟨rfl, rfl⟩ := Prod.mk.inj heq
    rw [findEntry_map u (houtputs _ ho)] at hgot
    refine ⟨?_, ho,
      ⟨_, (Evaluator.evaluate_congr fun i hi => ?_).trans hexpected, findEntry_map v ho⟩,
      ⟨_, (Evaluator.evaluate_congr fun i hi => ?_).trans hactual, ?_⟩, hne⟩
    · rw [List.map_map]
      exact List.map_id _
    · rw [hfind i hi]
    · rw [hfind i (hcandidate i hi)]
    · rw [findEntry_map u (houtputs _ ho)]
      exact congrArg some hgot
  · cases h

/-- A search finds nothing at any of its indices, or ends with what one of them gives. -/
theorem searchFrom_cases (reference candidate : Evaluator) (count index : Nat) :
    (searchFrom reference candidate count index = .ok none ∧
      ∀ k < count, compareAt reference candidate (index + k) = .ok none) ∨
    ∃ k < count, searchFrom reference candidate count index =
        compareAt reference candidate (index + k) ∧
      compareAt reference candidate (index + k) ≠ .ok none := by
  induction count generalizing index with
  | zero => exact .inl ⟨rfl, fun k hk => absurd hk (Nat.not_lt_zero k)⟩
  | succ count ih =>
    rw [searchFrom]
    split
    · next hnone =>
      rcases ih (index + 1) with ⟨hsearch, hall⟩ | ⟨k, hk, hsearch, hne⟩
      · refine .inl ⟨hsearch, fun k hk => ?_⟩
        cases k with
        | zero => exact hnone
        | succ k => simpa [Nat.add_assoc, Nat.add_comm 1] using hall k (Nat.lt_of_succ_lt_succ hk)
      · have hshift : index + 1 + k = index + (k + 1) := by omega
        rw [hshift] at hsearch hne
        exact .inr ⟨k + 1, Nat.succ_lt_succ hk, hsearch, hne⟩
    · next hfound => exact .inr ⟨0, Nat.succ_pos _, rfl, hfound⟩

/-- Agreement on every assignment is agreement on all values of the inputs. -/
theorem agreeOn_of_indices (hports : portFault? reference.netlist candidate.netlist = none)
    (hword : reference.inputBits < 64)
    (h : ∀ k < Nat.pow 2 reference.inputBits,
      AgreeOn reference candidate (reference.assignment (UInt64.ofNat k)))
    {given : Values} (hgiven : ∀ i ∈ reference.netlist.inputs, (given.find? i).isSome) :
    AgreeOn reference candidate given := by
  obtain ⟨index, hindex, hassigned⟩ := reference.exists_index (.ofValues given) hword
  obtain ⟨expected, actual, hexpected, hactual, hagree⟩ := h index hindex
  have hsame : ∀ i ∈ reference.netlist.inputs,
      (given.find? i).map (reference.netlist.width i).truncate =
        ((reference.assignment (UInt64.ofNat index)).find? i).map
          (reference.netlist.width i).truncate := by
    intro i hi
    obtain ⟨x, hx⟩ := Option.isSome_iff_exists.1 (hgiven i hi)
    rw [hassigned i hi, Valuation.ofValues, hx]
    simp
  refine ⟨expected, actual, ?_, ?_, hagree⟩
  · rw [Evaluator.evaluate_congr hsame, hexpected]
  · rw [← hactual]
    refine Evaluator.evaluate_congr fun i hi => ?_
    have hi' := (reference.assignment_isSome _ i).1 (Evaluator.given_of_evaluate hactual i hi)
    rw [← ((portFault?_eq_none hports).1 i hi').2]
    exact hsame i hi'

theorem checkEquivalence_eq (hports : portFault? reference.netlist candidate.netlist = none)
    {limit : Nat} (hlimit : reference.inputBits ≤ limit) (hword : reference.inputBits < 64) :
    checkEquivalence reference candidate limit =
      searchFrom reference candidate (Nat.pow 2 reference.inputBits) 0 := by
  have hcount : reference.assignmentCount limit = .ok (Nat.pow 2 reference.inputBits) := by
    rw [Evaluator.assignmentCount]
    exact if_neg (by omega)
  rw [checkEquivalence, hports, hcount]
  rfl

end Equivalence

/-- The comparison of two netlists is exact: it finds nothing exactly when they agree on every
choice of words for the inputs, and otherwise what it finds is a difference. There are fewer than 64
input bits, so their sum in 32 bits is exact. -/
theorem checkEquivalence_exact {reference candidate : Evaluator} {limit : Nat}
    (hports : Equivalence.portFault? reference.netlist candidate.netlist = none)
    (hlimit : reference.inputBits ≤ limit) (hword : reference.inputBits < 64) :
    (checkEquivalence reference candidate limit = .ok none ↔
      ∀ given : Values, (∀ i ∈ reference.netlist.inputs, (given.find? i).isSome) →
        Equivalence.AgreeOn reference candidate given) ∧
    ∀ c, checkEquivalence reference candidate limit = .ok (some c) →
      Equivalence.Distinguishes reference candidate c := by
  rw [Equivalence.checkEquivalence_eq hports hlimit hword]
  have hindices : Equivalence.searchFrom reference candidate (Nat.pow 2 reference.inputBits) 0 = .ok none ↔
      ∀ k < Nat.pow 2 reference.inputBits,
        Equivalence.AgreeOn reference candidate (reference.assignment (UInt64.ofNat k)) := by
    rcases Equivalence.searchFrom_cases reference candidate (Nat.pow 2 reference.inputBits) 0 with
      ⟨hnone, hall⟩ | ⟨k, hk, hsearch, hne⟩
    · refine ⟨fun _ k hk => (Equivalence.compareAt_eq_none_iff hports k).1 ?_, fun _ => hnone⟩
      simpa using hall k hk
    · rw [Nat.zero_add] at hsearch hne
      rw [hsearch]
      exact ⟨fun h => absurd h hne, fun h => (Equivalence.compareAt_eq_none_iff hports k).2 (h k hk)⟩
  refine ⟨hindices.trans ⟨fun h given hgiven => ?_, fun h k _ => h _ ?_⟩, fun c hc => ?_⟩
  · exact Equivalence.agreeOn_of_indices hports hword h hgiven
  · exact fun i hi => (reference.assignment_isSome _ i).2 hi
  · rcases Equivalence.searchFrom_cases reference candidate (Nat.pow 2 reference.inputBits) 0 with
      ⟨hnone, -⟩ | ⟨k, -, hsearch, -⟩
    · rw [hnone] at hc
      cases hc
    · rw [hsearch] at hc
      exact Equivalence.distinguishes_of_compareAt hports hc

namespace SwappedInputs

/-- One operator on a word of two bits and a bit, which are declared in a given order. -/
def netlist (inputs : List String) (op : Operator) : Netlist where
  name := "swapped"
  inputs
  outputs := ["y"]
  widths := ⟨[("a", 2), ("b", 1), ("y", 2)].map
    (Prod.map id fun bits => (Width.ofNat? bits).getD .one)⟩
  arena := [some ⟨⟨0⟩, .op op, [.plain "a", .plain "b"], "y"⟩]
  wires := [⟨"a", ⟨0⟩, 0⟩, ⟨"b", ⟨0⟩, 1⟩]
  nextFresh := 0

/-- The evaluator of the operator. -/
def evaluator (inputs : List String) (op : Operator) : Evaluator :=
  ⟨netlist inputs op, [⟨0⟩], .none⟩

end SwappedInputs

/-- The order of the inputs makes no difference, but an exclusive or in place of a sum does. -/
theorem checkEquivalence_exact_swappedInputs :
    let sum := SwappedInputs.evaluator ["a", "b"] .add
    let swapped := SwappedInputs.evaluator ["b", "a"] .add
    let xor := SwappedInputs.evaluator ["b", "a"] .xor
    Equivalence.portFault? sum.netlist swapped.netlist = none ∧
      Equivalence.portFault? sum.netlist xor.netlist = none ∧ sum.inputBits = 3 ∧
      Equivalence.AgreeOn sum swapped ⟨[("a", 7), ("b", 9)]⟩ ∧
      checkEquivalence sum xor 16 = .ok (some ⟨[("a", 1), ("b", 1)], "y", 2, 0⟩) ∧
      Equivalence.Distinguishes sum xor ⟨[("a", 1), ("b", 1)], "y", 2, 0⟩ := by
  intro sum swapped xor
  have hbits : sum.inputBits = 3 := by decide
  have hlimit : sum.inputBits ≤ 16 := by omega
  have hword : sum.inputBits < 64 := by omega
  have hswapped : Equivalence.portFault? sum.netlist swapped.netlist = none := by decide
  have hxor : Equivalence.portFault? sum.netlist xor.netlist = none := by decide
  have hsame : checkEquivalence sum swapped 16 = .ok none := by decide
  have hdiff : checkEquivalence sum xor 16 = .ok (some ⟨[("a", 1), ("b", 1)], "y", 2, 0⟩) := by
    decide
  refine ⟨hswapped, hxor, hbits, ?_, hdiff, ?_⟩
  · exact (checkEquivalence_exact hswapped hlimit hword).1.1 hsame _ (by decide)
  · exact (checkEquivalence_exact hxor hlimit hword).2 _ hdiff

end GateSynth
