import GateSynth.Proofs.Simulation.Implementation

/-!
# The ports of compared netlists

`checkEquivalence` compares the inputs of two netlists both ways and with their widths, but of the
outputs it asks only that the candidate has those of the reference. `checkEquivalence_ports` says
what follows: which ports are refused, what a verdict says about them, when it holds both ways, and
which pairs of netlists with different ports are not refused. Such a pair is
`checkEquivalence_extraOutput`.
-/

namespace GateSynth

namespace Equivalence

/-- Two lists have the same signals, and they have the same widths in both netlists. -/
structure Alike (a b : Netlist) (xs ys : List String) : Prop where
  mem : ∀ s, s ∈ xs ↔ s ∈ ys
  width : ∀ s ∈ xs, a.width s = b.width s

/-- The netlists have the same inputs, up to the order. -/
def SameInputs (a b : Netlist) : Prop := Alike a b a.inputs b.inputs

/-- The netlists have the same inputs and outputs, up to the order. -/
def SamePorts (a b : Netlist) : Prop := SameInputs a b ∧ Alike a b a.outputs b.outputs

/-- What a port fault says about two netlists. -/
def Names (a b : Netlist) : PortFault → Prop
  | .input i => i ∈ a.inputs ∧ (i ∈ b.inputs → a.width i ≠ b.width i)
  | .inputCount => (∀ i ∈ a.inputs, i ∈ b.inputs ∧ a.width i = b.width i) ∧
      ∃ i ∈ b.inputs, i ∉ a.inputs
  | .output o => SameInputs a b ∧ o ∈ a.outputs ∧ o ∉ b.outputs

variable {a b : Netlist} {reference candidate : Evaluator} {limit : Nat}

/-! ## Comparing the ports -/

theorem Alike.symm {xs ys : List String} (h : Alike a b xs ys) : Alike b a ys xs :=
  ⟨fun s => (h.mem s).symm, fun s hs => (h.width s ((h.mem s).2 hs)).symm⟩

/-- Inputs that the other netlist has too, and as many, are its inputs. -/
theorem sameInputs_of_length (ha : a.Coherent)
    (hinputs : ∀ i ∈ a.inputs, i ∈ b.inputs ∧ a.width i = b.width i)
    (hlength : b.inputs.length ≤ a.inputs.length) : SameInputs a b := by
  have hperm : a.inputs.Perm b.inputs :=
    (List.subperm_of_subset ha.inputs_nodup fun i hi => (hinputs i hi).1).perm_of_length_le hlength
  exact ⟨fun s => hperm.mem_iff, fun s hs => (hinputs s hs).2⟩

theorem SameInputs.perm (ha : a.Coherent) (hb : b.Coherent) (h : SameInputs a b) :
    a.inputs.Perm b.inputs :=
  (List.perm_ext_iff_of_nodup ha.inputs_nodup hb.inputs_nodup).2 h.mem

/-- A port fault tells a difference. -/
theorem names_of_portFault? (ha : a.Coherent) (hb : b.Coherent) {fault : PortFault}
    (h : portFault? a b = some fault) : Names a b fault := by
  rw [portFault?] at h
  split at h
  · next i hi =>
    cases h
    have hfault := List.find?_some hi
    refine ⟨List.mem_of_find?_eq_some hi, fun hmem => ?_⟩
    simpa [Netlist.isInput, hmem] using hfault
  · next hnone =>
    have hinputs : ∀ i ∈ a.inputs, i ∈ b.inputs ∧ a.width i = b.width i := fun i hi => by
      simpa [Netlist.isInput] using List.find?_eq_none.1 hnone i hi
    split at h
    · next hlength =>
      cases h
      refine ⟨hinputs, ?_⟩
      by_contra hall
      have hsubset : b.inputs ⊆ a.inputs := fun i hi => by
        by_contra hmem
        exact hall ⟨i, hi, hmem⟩
      have hle := (List.subperm_of_subset hb.inputs_nodup hsubset).length_le
      exact hlength ((sameInputs_of_length ha hinputs hle).perm ha hb).length_eq
    · next hlength =>
      obtain ⟨o, ho, rfl⟩ := Option.map_eq_some_iff.1 h
      refine ⟨sameInputs_of_length ha hinputs (not_ne_iff.1 hlength).ge,
        List.mem_of_find?_eq_some ho, ?_⟩
      simpa [Netlist.isOutput] using List.find?_some ho

/-- The comparison of the ports lets exactly this pass: the same inputs, and no output of the first
netlist that the second does not have. -/
theorem portFault?_eq_none_iff (ha : a.Coherent) (hb : b.Coherent) :
    portFault? a b = none ↔ SameInputs a b ∧ a.outputs ⊆ b.outputs := by
  constructor
  · intro h
    obtain ⟨hinputs, hlength, houtputs⟩ := portFault?_eq_none h
    exact ⟨sameInputs_of_length ha hinputs hlength.ge, houtputs⟩
  · rintro ⟨hinputs, houtputs⟩
    by_contra hsome
    obtain ⟨fault, hfault⟩ := Option.ne_none_iff_exists'.1 hsome
    have hnames := names_of_portFault? ha hb hfault
    cases fault with
    | input i => exact hnames.2 ((hinputs.mem i).1 hnames.1) (hinputs.width i hnames.1)
    | inputCount =>
      obtain ⟨-, i, hi, hmem⟩ := hnames
      exact hmem ((hinputs.mem i).2 hi)
    | output o => exact hnames.2.2 (houtputs hnames.2.1)

/-! ## Comparing the values -/

/-- The comparison on one assignment of the inputs never speaks of ports. -/
theorem compareAt_ne_portMismatch
    (hsubset : candidate.netlist.inputs ⊆ reference.netlist.inputs) (index : Nat)
    (fault : PortFault) :
    compareAt reference candidate index ≠ .error (.portMismatch fault) := by
  have hgiven : ∀ i ∈ reference.netlist.inputs,
      ((reference.assignment (UInt64.ofNat index)).find? i).isSome :=
    fun i hi => (reference.assignment_isSome _ i).2 hi
  intro h
  rcases error_of_bind h with herror | ⟨expected, -, h⟩
  · obtain ⟨id, kind, heq⟩ := Evaluator.unevaluable_of_evaluate hgiven herror
    cases heq
  rcases error_of_bind h with herror | ⟨actual, -, h⟩
  · obtain ⟨id, kind, heq⟩ :=
      Evaluator.unevaluable_of_evaluate (fun i hi => hgiven i (hsubset hi)) herror
    cases heq
  split at h <;> cases h

/-- The comparison refuses the ports exactly where they have a fault. -/
theorem checkEquivalence_eq_portMismatch_iff (ha : reference.netlist.Coherent)
    (hb : candidate.netlist.Coherent) {fault : PortFault} :
    checkEquivalence reference candidate limit = .error (.portMismatch fault) ↔
      portFault? reference.netlist candidate.netlist = some fault := by
  cases hports : portFault? reference.netlist candidate.netlist with
  | some found => simp [checkEquivalence, hports]
  | none =>
    have hsubset : candidate.netlist.inputs ⊆ reference.netlist.inputs := fun i hi =>
      (((portFault?_eq_none_iff ha hb).1 hports).1.mem i).2 hi
    refine iff_of_false (fun h => ?_) fun h => by cases h
    rw [checkEquivalence, hports] at h
    rcases error_of_bind h with hcount | ⟨count, -, h⟩
    · rw [Evaluator.assignmentCount] at hcount
      split at hcount <;> cases hcount
    · rcases searchFrom_cases reference candidate count 0 with ⟨hnone, -⟩ | ⟨k, -, hfound, -⟩
      · rw [hnone] at h
        cases h
      · exact compareAt_ne_portMismatch hsubset (0 + k) fault (hfound.symm.trans h)

/-- The comparison of netlists whose ports pass finds nothing exactly when there are not too many
assignments and they agree on all of them. -/
theorem checkEquivalence_eq_none_iff
    (hports : portFault? reference.netlist candidate.netlist = none) :
    checkEquivalence reference candidate limit = .ok none ↔
      reference.inputBits ≤ limit ∧ reference.inputBits < 64 ∧
      ∀ k < Nat.pow 2 reference.inputBits,
        AgreeOn reference candidate (reference.assignment (UInt64.ofNat k)) := by
  by_cases hwide : reference.inputBits > limit ∨ reference.inputBits ≥ 64
  · have hcount : reference.assignmentCount limit = .error (.tooWide reference.inputBits limit) :=
      if_pos hwide
    refine iff_of_false (fun h => ?_) fun h => by omega
    rw [checkEquivalence, hports] at h
    obtain ⟨count, hok, -⟩ := ok_of_bind h
    rw [hcount] at hok
    cases hok
  · obtain ⟨hlimit, hword⟩ := not_or.1 hwide
    rw [checkEquivalence_eq hports (not_lt.1 hlimit) (not_le.1 hword)]
    rcases searchFrom_cases reference candidate (Nat.pow 2 reference.inputBits) 0 with
      ⟨hnone, hall⟩ | ⟨k, hk, hfound, hne⟩
    · refine iff_of_true hnone ⟨not_lt.1 hlimit, not_le.1 hword, fun k hk => ?_⟩
      exact (compareAt_eq_none_iff hports k).1 (by simpa using hall k hk)
    · rw [Nat.zero_add] at hfound hne
      refine iff_of_false (fun h => hne (hfound.symm.trans h)) fun h => hne ?_
      exact (compareAt_eq_none_iff hports k).2 (h.2.2 k hk)

/-- A sum does not depend on the order. -/
theorem total_perm {xs ys : List Nat} (h : xs.Perm ys) : total xs = total ys := by
  induction h with
  | nil => rfl
  | cons x _ ih => rw [total, total, ih]
  | swap x y _ =>
    simp only [total]
    omega
  | trans _ _ ih ih' => exact ih.trans ih'

/-- The same inputs have the same number of bits. -/
theorem SameInputs.inputBits (ha : reference.netlist.Coherent) (hb : candidate.netlist.Coherent)
    (h : SameInputs reference.netlist candidate.netlist) :
    candidate.inputBits = reference.inputBits := by
  have hwidths : reference.netlist.inputs.map (fun i => (reference.netlist.width i).bits) =
      reference.netlist.inputs.map fun i => (candidate.netlist.width i).bits :=
    List.map_congr_left fun i hi => congrArg Width.bits (h.width i hi)
  rw [Evaluator.inputBits, Evaluator.inputBits, hwidths]
  exact total_perm ((h.perm ha hb).symm.map _)

/-- Netlists that agree do so the other way round, if they have the same outputs. -/
theorem AgreeOn.symm {given : Values} (h : AgreeOn reference candidate given)
    (houtputs : candidate.netlist.outputs ⊆ reference.netlist.outputs) :
    AgreeOn candidate reference given := by
  obtain ⟨expected, actual, hexpected, hactual, hagree⟩ := h
  refine ⟨actual, expected, hactual, hexpected, fun o ho => ?_⟩
  obtain ⟨x, hx, hx'⟩ := hagree o (houtputs ho)
  exact ⟨x, hx', hx⟩

/-- The verdict that two netlists agree holds the other way round, if they have the same outputs. -/
theorem checkEquivalence_symm (ha : reference.netlist.Coherent) (hb : candidate.netlist.Coherent)
    (h : checkEquivalence reference candidate limit = .ok none)
    (hinputs : SameInputs reference.netlist candidate.netlist)
    (houtputs : reference.netlist.outputs ⊆ candidate.netlist.outputs)
    (houtputs' : candidate.netlist.outputs ⊆ reference.netlist.outputs) :
    checkEquivalence candidate reference limit = .ok none := by
  have hports := (portFault?_eq_none_iff ha hb).2 ⟨hinputs, houtputs⟩
  have hports' := (portFault?_eq_none_iff hb ha).2 ⟨hinputs.symm, houtputs'⟩
  obtain ⟨hlimit, hword, hagree⟩ := (checkEquivalence_eq_none_iff hports).1 h
  rw [checkEquivalence_eq_none_iff hports', hinputs.inputBits ha hb]
  refine ⟨hlimit, hword, fun k _ => ?_⟩
  have hgiven : ∀ i ∈ reference.netlist.inputs,
      ((candidate.assignment (UInt64.ofNat k)).find? i).isSome := fun i hi =>
    (candidate.assignment_isSome _ i).2 ((hinputs.mem i).1 hi)
  exact (agreeOn_of_indices hports hword hagree hgiven).symm houtputs'

end Equivalence

open GateSynth.Equivalence

/-- The ports of the netlists are refused exactly when the inputs differ or the candidate lacks an
output of the reference, and the error tells such a difference. A verdict that they agree holds the
other way round exactly when the candidate has no further outputs. So netlists with different ports
are compared all the same exactly when only the candidate has an output, or an output has different
widths. -/
theorem checkEquivalence_ports {reference candidate : Evaluator} (limit : Nat)
    (ha : reference.netlist.Coherent) (hb : candidate.netlist.Coherent) :
    let a := reference.netlist
    let b := candidate.netlist
    (∀ fault, checkEquivalence reference candidate limit = .error (.portMismatch fault) →
      Names a b fault) ∧
    ((∃ fault, checkEquivalence reference candidate limit = .error (.portMismatch fault)) ↔
      ¬ (SameInputs a b ∧ a.outputs ⊆ b.outputs)) ∧
    (checkEquivalence reference candidate limit = .ok none →
      SameInputs a b ∧ a.outputs ⊆ b.outputs ∧
      (checkEquivalence candidate reference limit = .ok none ↔ b.outputs ⊆ a.outputs)) ∧
    (¬ SamePorts a b ∧
        (∀ fault, checkEquivalence reference candidate limit ≠ .error (.portMismatch fault)) ↔
      SameInputs a b ∧ a.outputs ⊆ b.outputs ∧
      ∃ o ∈ b.outputs, o ∈ a.outputs → a.width o ≠ b.width o) := by
  intro a b
  have hrefused : (∃ fault, checkEquivalence reference candidate limit =
      .error (.portMismatch fault)) ↔ ¬ (SameInputs a b ∧ a.outputs ⊆ b.outputs) := by
    rw [← portFault?_eq_none_iff ha hb, ← ne_eq, Option.ne_none_iff_exists']
    exact exists_congr fun fault => checkEquivalence_eq_portMismatch_iff ha hb
  have hpasses : (∀ fault, checkEquivalence reference candidate limit ≠
      .error (.portMismatch fault)) ↔ SameInputs a b ∧ a.outputs ⊆ b.outputs := by
    rw [← not_iff_not, ← hrefused, not_forall]
    simp
  refine ⟨fun fault h => names_of_portFault? ha hb
    ((checkEquivalence_eq_portMismatch_iff ha hb).1 h), hrefused, fun h => ?_, ?_⟩
  · obtain ⟨hinputs, houtputs⟩ := hpasses.1 fun fault herror => by rw [h] at herror; cases herror
    refine ⟨hinputs, houtputs, fun h' => ?_, checkEquivalence_symm ha hb h hinputs houtputs⟩
    have hports : portFault? b a = none := by
      by_contra hsome
      obtain ⟨fault, hfault⟩ := Option.ne_none_iff_exists'.1 hsome
      rw [(checkEquivalence_eq_portMismatch_iff hb ha).2 hfault] at h'
      cases h'
    exact ((portFault?_eq_none_iff hb ha).1 hports).2
  · rw [hpasses]
    constructor
    · rintro ⟨hdiffer, hinputs, houtputs⟩
      refine ⟨hinputs, houtputs, ?_⟩
      by_contra hall
      have hsame : ∀ o ∈ b.outputs, o ∈ a.outputs ∧ a.width o = b.width o := by
        simpa only [not_exists, not_and, not_forall, ne_eq, not_not, exists_prop] using hall
      exact hdiffer ⟨hinputs, fun o => ⟨fun ho => houtputs ho, fun ho => (hsame o ho).1⟩,
        fun o ho => (hsame o (houtputs ho)).2⟩
    · rintro ⟨hinputs, houtputs, o, ho, hdiffers⟩
      refine ⟨fun hsame => ?_, hinputs, houtputs⟩
      have hmem := (hsame.2.mem o).2 ho
      exact hdiffers hmem (hsame.2.width o hmem)

namespace Copies

/-- Outputs of given widths, in their order, that copy one input bit. -/
def netlist (outputs : List (String × Width)) : Netlist where
  name := "copies"
  inputs := ["a"]
  outputs := outputs.map Prod.fst
  widths := ⟨("a", .one) :: outputs⟩
  arena := outputs.mapIdx fun place o => some ⟨⟨place⟩, .op .buf, [.plain "a"], o.1⟩
  wires := outputs.mapIdx fun place _ => ⟨"a", ⟨place⟩, 0⟩
  nextFresh := 0

/-- The evaluator of the copies. -/
def evaluator (outputs : List (String × Width)) : Evaluator :=
  ⟨netlist outputs, (List.range outputs.length).map NodeId.mk, .none⟩

theorem coherent {outputs : List (String × Width)} (h : ("a" :: outputs.map Prod.fst).Nodup) :
    (netlist outputs).Coherent := by
  refine ⟨fun {i node} hi => ?_, h, List.nodup_singleton "a", (List.nodup_cons.1 h).2⟩
  simp only [netlist, List.getElem?_mapIdx, Option.map_eq_some_iff, Option.some.injEq] at hi
  obtain ⟨o, -, rfl⟩ := hi
  rfl

end Copies

/-- The order of the outputs makes no difference. One that only the candidate has goes unnoticed,
and is refused the other way round. -/
theorem checkEquivalence_ports_copies :
    let one := Copies.evaluator [("y", .one)]
    let two := Copies.evaluator [("y", .one), ("z", .one)]
    let swapped := Copies.evaluator [("z", .one), ("y", .one)]
    one.netlist.Coherent ∧ two.netlist.Coherent ∧ swapped.netlist.Coherent ∧
      checkEquivalence two swapped 8 = .ok none ∧ checkEquivalence swapped two 8 = .ok none ∧
      (¬ SamePorts one.netlist two.netlist ∧
        ∀ fault, checkEquivalence one two 8 ≠ .error (.portMismatch fault)) ∧
      ∃ fault, checkEquivalence two one 8 = .error (.portMismatch fault) ∧
        Names two.netlist one.netlist fault := by
  intro one two swapped
  have hone : one.netlist.Coherent := Copies.coherent (by decide)
  have htwo : two.netlist.Coherent := Copies.coherent (by decide)
  have hswapped : swapped.netlist.Coherent := Copies.coherent (by decide)
  have hsame : checkEquivalence two swapped 8 = .ok none := by decide
  obtain ⟨-, -, hsymm, -⟩ := checkEquivalence_ports 8 htwo hswapped
  obtain ⟨-, -, -, hgap⟩ := checkEquivalence_ports 8 hone htwo
  obtain ⟨hnames, hrefused, -⟩ := checkEquivalence_ports 8 htwo hone
  have hinputs : SameInputs one.netlist two.netlist := ⟨fun _ => Iff.rfl, by decide⟩
  obtain ⟨fault, hfault⟩ := hrefused.2 fun h => absurd h.2 (by decide)
  refine ⟨hone, htwo, hswapped, hsame, (hsymm hsame).2.2.2 (by decide), ?_, fault, hfault,
    hnames fault hfault⟩
  exact hgap.2 ⟨hinputs, by decide, "z", by decide, fun h => absurd h (by decide)⟩

/-- A candidate with a further output, or with a wider one, is found to agree; the other way round
the further output is refused. -/
theorem checkEquivalence_extraOutput :
    let one := Copies.evaluator [("y", .one)]
    let two := Copies.evaluator [("y", .one), ("z", .one)]
    let wide := Copies.evaluator [("y", ⟨2, by decide, by decide⟩)]
    Evaluator.ofNetlist one.netlist .none = .ok one ∧
      Evaluator.ofNetlist two.netlist .none = .ok two ∧
      Evaluator.ofNetlist wide.netlist .none = .ok wide ∧
      "z" ∈ two.netlist.outputs ∧ "z" ∉ one.netlist.outputs ∧
      checkEquivalence one two 8 = .ok none ∧
      checkEquivalence two one 8 = .error (.portMismatch (.output "z")) ∧
      (one.netlist.width "y").bits = 1 ∧ (wide.netlist.width "y").bits = 2 ∧
      checkEquivalence one wide 8 = .ok none := by
  refine ⟨rfl, rfl, rfl, by decide, by decide, ?_, ?_, rfl, rfl, ?_⟩ <;> decide

end GateSynth
