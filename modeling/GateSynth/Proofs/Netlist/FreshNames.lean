import GateSynth.Proofs.Netlist.Coherence
import Mathlib.Data.List.Perm.Subperm

/-!
# Fresh names

`reserveName` looks through more names than can be taken, and the names of one stem are pairwise
different, so the name that it settles on is never taken (`reserveName_not_taken`). A new signal
therefore is not declared, driven, read as an input or listed as an output, and giving it a width
leaves every width that was declared before as it was.
-/

namespace GateSynth.Netlist

variable {n : Netlist} {stem name signal : String}

/-! ## Names of one stem -/

theorem freshName_injective {a b : Nat} (h : freshName stem a = freshName stem b) : a = b := by
  simp only [freshName, String.append_right_inj] at h
  have hdigits : Nat.toDigits 10 a = Nat.toDigits 10 b := by
    have := congrArg String.toList h
    simpa only [Nat.toString_eq_ofList_toDigits, String.toList_ofList] using this
  rw [← Nat.ofDigitChars_toDigits (b := 10) (n := a) (by decide) (by decide), hdigits,
    Nat.ofDigitChars_toDigits (by decide) (by decide)]

/-- A fresh name is an underscore, the stem and digits. -/
theorem mem_freshName {number : Nat} {c : Char} (h : c ∈ (freshName stem number).toList) :
    c = '_' ∨ c ∈ stem.toList ∨ c.isDigit = true := by
  simp only [freshName, String.toList_append, Nat.toString_eq_ofList_toDigits,
    String.toList_ofList, List.mem_append] at h
  rcases h with (h | h) | h
  · exact .inl (by simpa using h)
  · exact .inr (.inl h)
  · exact .inr (.inr (Nat.isDigit_of_mem_toDigits (by decide) (by decide) h))

/-! ## Taken names -/

/-- The names that are taken, each as often as it is used. -/
def takenNames (n : Netlist) : List String :=
  n.widths.keys ++ n.nodes.map Node.output ++ n.inputs ++ n.outputs

theorem length_takenNames (n : Netlist) : n.takenNames.length = n.takenBound := by
  simp [takenNames, takenBound, Table.keys, Table.size, Nat.add_assoc]

theorem isTaken_iff : n.isTaken name = true ↔ name ∈ n.takenNames := by
  simp only [isTaken, Bool.or_eq_true, Table.contains_iff, isDefined_iff, isOutput_iff, takenNames,
    List.mem_append, List.mem_map, or_assoc]

theorem not_taken_iff :
    n.isTaken name = false ↔
      name ∉ n.widths.keys ∧ n.isDefined name = false ∧ name ∉ n.outputs := by
  rw [isTaken, Bool.or_eq_false_iff, Bool.or_eq_false_iff, and_assoc, ← Table.contains_iff,
    ← isOutput_iff, Bool.not_eq_true, Bool.not_eq_true]

/-- The number that is found has a free name, unless every name that was tried is taken. -/
theorem freeNumber_spec (n : Netlist) (stem : String) (tries number : Nat) :
    n.isTaken (freshName stem (n.freeNumber stem tries number)) = false ∨
      ∀ i < tries, n.isTaken (freshName stem (number + i)) = true := by
  induction tries generalizing number with
  | zero => exact .inr fun i hi => absurd hi (Nat.not_lt_zero i)
  | succ tries ih =>
    rw [freeNumber]
    split
    · next htaken =>
      rcases ih (number + 1) with hfree | hall
      · exact .inl hfree
      · refine .inr fun i hi => ?_
        cases i with
        | zero => exact htaken
        | succ i =>
          rw [show number + (i + 1) = number + 1 + i by omega]
          exact hall i (by omega)
    · next hfree => exact .inl (by simpa using hfree)

/-- There are more tries than taken names, so a free one is found. -/
theorem reserveName_not_taken (n : Netlist) (stem : String) :
    n.isTaken (n.reserveName stem).2 = false := by
  rcases n.freeNumber_spec stem (n.takenBound + 1) n.nextFresh with hfree | hall
  · exact hfree
  · have hnodup : ((List.range (n.takenBound + 1)).map fun i =>
        freshName stem (n.nextFresh + i)).Nodup :=
      List.nodup_range.map fun a b h => Nat.add_left_cancel (freshName_injective h)
    have hsub : ((List.range (n.takenBound + 1)).map fun i =>
        freshName stem (n.nextFresh + i)) ⊆ n.takenNames := by
      intro name hname
      obtain ⟨i, hi, rfl⟩ := List.mem_map.1 hname
      exact isTaken_iff.1 (hall i (List.mem_range.1 hi))
    have hle := (hnodup.subperm hsub).length_le
    rw [length_takenNames, List.length_map, List.length_range] at hle
    omega

/-! ## New signals -/

theorem newSignal_not_taken (n : Netlist) (stem : String) (w : Width) :
    n.isTaken (n.newSignal stem w).2 = false :=
  n.reserveName_not_taken stem

@[simp] theorem nodes_newSignal (n : Netlist) (stem : String) (w : Width) :
    (n.newSignal stem w).1.nodes = n.nodes := rfl

/-- A new signal has its width and leaves the widths of all others alone. -/
theorem width_newSignal (n : Netlist) (stem : String) (w : Width) (other : String) :
    (n.newSignal stem w).1.width other =
      if other = (n.newSignal stem w).2 then w else n.width other :=
  width_setWidth _ _ _ _

theorem Coherent.newSignal (h : n.Coherent) (stem : String) (w : Width) :
    (n.newSignal stem w).1.Coherent := by
  have hreserve : (n.reserveName stem).1.Coherent :=
    ⟨h.place, h.widths_nodup, h.inputs_nodup, h.outputs_nodup⟩
  exact hreserve.setWidth _ w

theorem isTaken_of_isDefined (h : n.isDefined name = true) : n.isTaken name = true := by
  simp [isTaken, h]

theorem isTaken_of_output (h : name ∈ n.outputs) : n.isTaken name = true := by
  simp [isTaken, isOutput_iff.2 h]

theorem isTaken_setWidth (n : Netlist) (w : Width) {other : String} :
    (n.setWidth signal w).isTaken other = true ↔ other = signal ∨ n.isTaken other = true := by
  have hdefined : (n.setWidth signal w).isDefined other = n.isDefined other := rfl
  have houtput : (n.setWidth signal w).isOutput other = n.isOutput other := rfl
  rw [isTaken, isTaken, hdefined, houtput, Bool.or_eq_true, Bool.or_eq_true, Bool.or_eq_true,
    Bool.or_eq_true, Table.contains_iff, Table.contains_iff, setWidth, Table.mem_keys_insert,
    or_assoc, or_assoc, or_assoc]

theorem isTaken_addInput {n' : Netlist} {bits : Nat} (h : n.addInput name bits = .ok n')
    (other : String) : n'.isTaken other = true ↔ other = name ∨ n.isTaken other = true := by
  obtain ⟨-, w, -, rfl⟩ := addInput_eq_ok h
  rw [← isTaken_setWidth n w, isTaken_iff, isTaken_iff]
  simp only [takenNames, List.mem_append, List.mem_singleton]
  have hkey : name ∈ (n.setWidth name w).widths.keys := Table.mem_keys_insert.2 (.inl rfl)
  refine ⟨?_, ?_⟩
  · rintro ((h | h | rfl) | h)
    · exact .inl (.inl h)
    · exact .inl (.inr h)
    · exact .inl (.inl (.inl hkey))
    · exact .inr h
  · rintro ((h | h) | h)
    · exact .inl (.inl h)
    · exact .inl (.inr (.inl h))
    · exact .inr h

theorem isTaken_addOutput {n' : Netlist} {bits : Nat} (h : n.addOutput name bits = .ok n')
    (other : String) : n'.isTaken other = true ↔ other = name ∨ n.isTaken other = true := by
  obtain ⟨-, w, -, rfl⟩ := addOutput_eq_ok h
  rw [← isTaken_setWidth n w, isTaken_iff, isTaken_iff]
  simp only [takenNames, List.mem_append, List.mem_singleton]
  have hkey : name ∈ (n.setWidth name w).widths.keys := Table.mem_keys_insert.2 (.inl rfl)
  refine ⟨?_, ?_⟩
  · rintro (h | h | rfl)
    · exact .inl h
    · exact .inr h
    · exact .inl (.inl (.inl hkey))
  · rintro (h | h)
    · exact .inl h
    · exact .inr (.inl h)

theorem Coherent.isTaken_updateNode (h : n.Coherent) (id : NodeId) (kind : Kind)
    (fanins : List Fanin) (signal : String) :
    (n.updateNode id kind fanins).isTaken signal = n.isTaken signal := by
  rw [isTaken, isTaken, h.isDefined_updateNode]
  rfl

/-! ## Nodes on new signals -/

/-- What adding a node that drives a new signal of width `w` does. -/
structure NewNode (n n' : Netlist) (node : Node) (w : Width) : Prop where
  coherent : n.Coherent → n'.Coherent
  name : n'.name = n.name
  inputs : n'.inputs = n.inputs
  outputs : n'.outputs = n.outputs
  nodes : n'.nodes = n.nodes ++ [node]
  arity : ∀ k, node.kind.arity? = some k → k = node.fanins.length
  /-- The signal is new. -/
  free : n.isTaken node.output = false
  width : ∀ s, n'.width s = if s = node.output then w else n.width s
  taken : ∀ s, n'.isTaken s = true ↔ s = node.output ∨ n.isTaken s = true
  defined : ∀ s, n'.isDefined s = true ↔ s = node.output ∨ n.isDefined s = true

theorem newNode_of_addNode {n' : Netlist} {w : Width} {kind : Kind} {fanins : List Fanin}
    {id : NodeId}
    (h : (n.newSignal stem w).1.addNode kind fanins (n.newSignal stem w).2 = .ok (n', id)) :
    NewNode n n' ⟨id, kind, fanins, (n.newSignal stem w).2⟩ w := by
  have hnodes := nodes_of_addNode h
  have hdefined : ∀ s, n'.isDefined s = true ↔
      s = (n.newSignal stem w).2 ∨ n.isDefined s = true := by
    intro s
    obtain ⟨-, -, -, hn'⟩ := addNode_eq_ok h
    rw [isDefined_iff, isDefined_iff, hnodes, show n'.inputs = n.inputs by rw [hn']; rfl,
      nodes_newSignal]
    simp only [List.mem_append, List.mem_singleton, or_and_right, exists_or, exists_eq_left]
    rw [or_assoc, or_left_comm, eq_comm]
  obtain ⟨harity, -, -, hn'⟩ := addNode_eq_ok h
  constructor
  case coherent => exact fun hc => (hc.newSignal stem w).addNode h
  case name | inputs | outputs =>
    rw [hn']
    rfl
  case nodes => exact hnodes
  case arity => exact harity
  case free => exact newSignal_not_taken n stem w
  case width =>
    rw [hn']
    exact width_newSignal n stem w
  case taken =>
    intro s
    rw [isTaken, Bool.or_eq_true, Bool.or_eq_true, hdefined, isTaken, Bool.or_eq_true,
      Bool.or_eq_true, Table.contains_iff, Table.contains_iff,
      show n'.widths = n.widths.insert (n.newSignal stem w).2 w by rw [hn']; rfl,
      Table.mem_keys_insert, isOutput_iff, isOutput_iff,
      show n'.outputs = n.outputs by rw [hn']; rfl]
    tauto
  case defined => exact hdefined

namespace NewNode

variable {n' : Netlist} {node : Node} {w : Width}

theorem ne_of_taken (h : NewNode n n' node w) (hs : n.isTaken signal = true) :
    signal ≠ node.output := by
  rintro rfl
  rw [h.free] at hs
  cases hs

theorem ne_of_defined (h : NewNode n n' node w) (hs : n.isDefined signal = true) :
    signal ≠ node.output :=
  h.ne_of_taken (isTaken_of_isDefined hs)

theorem width_of_taken (h : NewNode n n' node w) (hs : n.isTaken signal = true) :
    n'.width signal = n.width signal := by
  rw [h.width, if_neg (h.ne_of_taken hs)]

theorem width_of_defined (h : NewNode n n' node w) (hs : n.isDefined signal = true) :
    n'.width signal = n.width signal :=
  h.width_of_taken (isTaken_of_isDefined hs)

theorem mem_nodes (h : NewNode n n' node w) {m : Node} : m ∈ n'.nodes ↔ m ∈ n.nodes ∨ m = node := by
  rw [h.nodes, List.mem_append, List.mem_singleton]

end NewNode

end GateSynth.Netlist
