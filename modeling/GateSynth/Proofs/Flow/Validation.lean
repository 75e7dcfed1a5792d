import GateSynth.Proofs.Netlist.Cycles
import GateSynth.Proofs.Netlist.Readers
import GateSynth.Proofs.Verilog.Operations

/-!
# What validation decides

Of what `validate` looks at, the operations already see to the arities and to the single driver of a
signal. What they leave open is whether every signal that is read or put out has a source, whether the
stored wires are those of the fanins, and whether there is a cycle. Validation decides just this
(`Consistent.validate_eq_ok_iff`), and each of its errors says in which way it fails (`Fault`).
`Obtained` collects where a netlist may come from: a stored one, a source file, and operations after
either.
-/

namespace GateSynth

namespace Netlist

variable {n : Netlist} {node : Node} {e : NetlistError}

/-- The signal has a source: it is a primary input or the output of a node. -/
def Sourced (n : Netlist) (s : String) : Prop := s ∈ n.inputs ∨ ∃ node ∈ n.nodes, node.output = s

theorem isDefined_iff_sourced {s : String} : n.isDefined s = true ↔ n.Sourced s := by
  rw [isDefined_iff, or_comm, Sourced]

/-! ## The conditions -/

/-- The nodes can be ordered if there is no cycle; the order itself is not looked at. -/
theorem Coherent.topoOrder_passes_iff (hc : n.Coherent) :
    (n.topoOrder >>= fun _ => .ok ()) = .ok () ↔ ¬ n.Cyclic := by
  rw [← hc.topoOrder_isOk_iff_not_cyclic]
  cases h : n.topoOrder with
  | ok order => simp [bind, Except.bind]
  | error e => simp [bind, Except.bind]

/-- What validation asks of a netlist that operations have made. -/
theorem Consistent.validate_eq_ok_iff (hc : n.Consistent) :
    n.validate = .ok () ↔ (∀ node ∈ n.nodes, ∀ f ∈ node.fanins, n.Sourced f.signal) ∧
      (∀ s ∈ n.outputs, n.Sourced s) ∧ n.wires.Perm n.derivedWires ∧ ¬ n.Cyclic := by
  have hnodes : n.checkNodes [] n.nodes = .ok () ↔
      ∀ node ∈ n.nodes, ∀ f ∈ node.fanins, n.Sourced f.signal := by
    rw [checkNodes_eq_ok_iff (by simp)]
    simp only [isDefined_iff_sourced]
    exact ⟨fun h => h.2.1, fun h => ⟨hc.arity, h, hc.single, hc.undriven⟩⟩
  have houtputs : n.checkOutputs n.outputs = .ok () ↔ ∀ s ∈ n.outputs, n.Sourced s := by
    simp only [checkOutputs_eq_ok_iff, isDefined_iff_sourced]
  rw [validate, bind_eq_ok_iff, bind_eq_ok_iff, bind_eq_ok_iff, hnodes, houtputs,
    checkWires_eq_ok_iff]
  exact and_congr_right' (and_congr_right' (and_congr_right' hc.toCoherent.topoOrder_passes_iff))

/-! ## The faults -/

/-- What an error says is the case. Errors that are not listed are never those of validation: they
are about what the operations already see to. -/
inductive Fault (n : Netlist) : NetlistError → Prop
  /-- A node reads a signal without a source. -/
  | dangling {node : Node} {f : Fanin} (mem : node ∈ n.nodes) (reads : f ∈ node.fanins)
      (source : ¬ n.Sourced f.signal) : Fault n (.dangling node.id f.signal)
  /-- A primary output has no source. -/
  | undrivenOutput {s : String} (mem : s ∈ n.outputs) (source : ¬ n.Sourced s) :
      Fault n (.undrivenOutput s)
  /-- A wire of the fanins is not stored. -/
  | missingWire {w : Wire} (derived : w ∈ n.derivedWires) (stored : w ∉ n.wires) :
      Fault n (.inconsistentWires ("missing wire " ++ w.text))
  /-- A stored wire is none of the fanins. -/
  | strayWire {w : Wire} (stored : w ∈ n.wires) (derived : w ∉ n.derivedWires) :
      Fault n (.inconsistentWires ("stray wire " ++ w.text))
  /-- A wire is stored twice. -/
  | duplicateWires (twice : ¬ n.wires.Nodup) : Fault n (.inconsistentWires "duplicate wires")
  /-- There is a cycle. -/
  | cycle {node : Node} (mem : node ∈ n.nodes) (cyclic : n.Cyclic) :
      Fault n (.cycle node.id node.output)

theorem fault_of_checkFanins (hnode : node ∈ n.nodes) {signals : List String}
    (hsub : signals ⊆ node.faninSignals) (h : n.checkFanins node.id signals = .error e) :
    n.Fault e := by
  induction signals with
  | nil => cases h
  | cons s rest ih =>
    obtain ⟨hs, hrest⟩ := List.cons_subset.1 hsub
    rw [checkFanins] at h
    split at h
    · exact ih hrest h
    · next hdefined =>
      cases h
      obtain ⟨f, hf, rfl⟩ := List.mem_map.1 hs
      exact .dangling hnode hf (mt isDefined_iff_sourced.2 hdefined)

/-- The checks of a node that look at other things than its fanins pass. -/
theorem Consistent.fault_of_checkNode (hc : n.Consistent) {seen rest : List Node}
    (hsplit : n.nodes = seen ++ node :: rest) (h : n.checkNode seen node = .error e) :
    n.Fault e := by
  have hnode : node ∈ n.nodes := hsplit ▸ List.mem_append_right _ (.head _)
  rw [checkNode] at h
  rcases error_of_bind h with harity | ⟨_, -, h⟩
  · rw [checkArity_eq_ok_iff.2 (hc.arity node hnode)] at harity
    cases harity
  rcases error_of_bind h with hfanins | ⟨_, -, h⟩
  · exact fault_of_checkFanins hnode (List.Subset.refl _) hfanins
  · have hfree : seen.find? (fun earlier => earlier.output = node.output) = none := by
      refine List.find?_eq_none.2 fun earlier hearlier ho => ?_
      have hsingle := hc.single
      rw [hsplit, List.map_append, List.map_cons, List.nodup_append] at hsingle
      exact hsingle.2.2 _ (List.mem_map_of_mem hearlier) _ (.head _) (of_decide_eq_true ho)
    have hinput : n.isInput node.output = false :=
      Bool.eq_false_iff.2 (mt isInput_iff.1 (hc.undriven node hnode))
    rw [hfree, hinput] at h
    cases h

theorem Consistent.fault_of_checkNodes (hc : n.Consistent) {seen nodes : List Node}
    (hsplit : n.nodes = seen ++ nodes) (h : n.checkNodes seen nodes = .error e) : n.Fault e := by
  induction nodes generalizing seen with
  | nil => cases h
  | cons node rest ih =>
    rcases error_of_bind h with hnode | ⟨_, -, h⟩
    · exact hc.fault_of_checkNode hsplit hnode
    · exact ih (by rw [hsplit, List.append_assoc]; rfl) h

theorem fault_of_checkOutputs {outputs : List String} (hsub : outputs ⊆ n.outputs)
    (h : n.checkOutputs outputs = .error e) : n.Fault e := by
  induction outputs with
  | nil => cases h
  | cons s rest ih =>
    obtain ⟨hs, hrest⟩ := List.cons_subset.1 hsub
    rw [checkOutputs] at h
    split at h
    · exact ih hrest h
    · next hdefined =>
      cases h
      exact .undrivenOutput hs (mt isDefined_iff_sourced.2 hdefined)

/-- A port of a node is the end of one wire. -/
theorem Coherent.nodup_derivedWires (hc : n.Coherent) : n.derivedWires.Nodup := by
  rw [derivedWires, List.nodup_flatMap]
  constructor
  · intro node _
    have hports : (nodeWires node).map Wire.port = List.range node.fanins.length :=
      List.ext_getElem (by simp [nodeWires]) fun i _ _ => by simp [nodeWires]
    exact List.Nodup.of_map Wire.port (hports ▸ List.nodup_range)
  · refine hc.pairwise_index.imp fun {a b} hlt => ?_
    intro w ha hb
    rw [(mem_nodeWires.1 ha).1.symm.trans (mem_nodeWires.1 hb).1] at hlt
    exact Nat.lt_irrefl _ hlt

theorem mem_sortedWires {w : Wire} {wires : List Wire} : w ∈ sortedWires wires ↔ w ∈ wires :=
  (List.mergeSort_perm wires Wire.le).mem_iff

/-- Wires that are refused are too few, too many, or stored twice. -/
theorem Coherent.fault_of_checkWires (hc : n.Coherent) (h : n.checkWires = .error e) :
    n.Fault e := by
  have hperm : ¬ n.wires.Perm n.derivedWires := by
    rw [← checkWires_eq_ok_iff, h]
    exact nofun
  rw [checkWires] at h
  split at h
  · cases h
  cases h
  rw [wireFault]
  split
  · next w hw =>
    have hmissing := List.find?_some hw
    refine .missingWire (mem_sortedWires.1 (List.mem_of_find?_eq_some hw)) fun hstored => ?_
    simp [mem_sortedWires.2 hstored] at hmissing
  · next hderived =>
    split
    · next w hw =>
      have hstray := List.find?_some hw
      refine .strayWire (mem_sortedWires.1 (List.mem_of_find?_eq_some hw)) fun hderived => ?_
      simp [mem_sortedWires.2 hderived] at hstray
    · next hstored =>
      refine .duplicateWires fun hnodup => hperm ?_
      refine (List.perm_ext_iff_of_nodup hnodup hc.nodup_derivedWires).2 fun w => ⟨?_, ?_⟩
      · intro hw
        simpa [mem_sortedWires] using List.find?_eq_none.1 hstored w (mem_sortedWires.2 hw)
      · intro hw
        simpa [mem_sortedWires] using List.find?_eq_none.1 hderived w (mem_sortedWires.2 hw)

theorem Coherent.fault_of_topoOrder (hc : n.Coherent) (h : n.topoOrder = .error e) :
    n.Fault e := by
  have hcyclic : n.Cyclic := by
    by_contra hcyclic
    obtain ⟨order, horder⟩ := hc.topoOrder_isOk_iff_not_cyclic.2 hcyclic
    rw [h] at horder
    cases horder
  obtain ⟨node, hnode, hreport, -⟩ := hc.topoOrder_of_cyclic hcyclic
  rw [h] at hreport
  cases hreport
  exact .cycle hnode hcyclic

/-- What an error of validation says is the case. -/
theorem Consistent.fault_of_validate (hc : n.Consistent) (h : n.validate = .error e) :
    n.Fault e := by
  rcases error_of_bind h with hnodes | ⟨_, -, h⟩
  · exact hc.fault_of_checkNodes rfl hnodes
  rcases error_of_bind h with houtputs | ⟨_, -, h⟩
  · exact fault_of_checkOutputs (List.Subset.refl _) houtputs
  rcases error_of_bind h with hwires | ⟨_, -, h⟩
  · exact hc.fault_of_checkWires hwires
  rcases error_of_bind h with horder | ⟨_, -, h⟩
  · exact hc.fault_of_topoOrder horder
  · cases h

/-! ## Where netlists come from -/

/-- The netlist is an empty one, a stored one, that of a source file, or comes from one of these by
operations. -/
inductive Obtained : Netlist → Prop
  | empty (name : String) : Obtained (.empty name)
  | stored {text : String} {n : Netlist} (read : ofJson text = .ok n) : Obtained n
  | elaborated {file : Verilog.SourceFile} {top : Option String} {n : Netlist}
      (run : Verilog.elaborate file top = .ok n) : Obtained n
  | operated {n : Netlist} (before : Obtained n) (op : Operation) : Obtained (n.perform op).1

theorem Obtained.built (h : n.Obtained) : n.Built := by
  induction h with
  | empty name => exact .empty name
  | stored hread =>
    obtain ⟨record, -, hrecord⟩ := Exchange.Codec.read_eq_ok hread
    exact .ofRecord hrecord
  | elaborated hrun => exact Verilog.built_of_elaborate hrun
  | operated _ op ih => exact ih.perform op

theorem Obtained.performAll (h : n.Obtained) (ops : List Operation) :
    (Operation.performAll perform ops n).1.Obtained := by
  induction ops generalizing n with
  | nil => exact h
  | cons op rest ih => exact ih (h.operated op)

/-- Validation accepts a netlist, wherever it comes from, if every signal that is read or put out has
a source, the stored wires are those of the fanins in some order, and there is no cycle. If it
refuses it, then what the error says is the case. -/
theorem validate_decides (h : n.Obtained) :
    (n.validate = .ok () ↔ (∀ node ∈ n.nodes, ∀ f ∈ node.fanins, n.Sourced f.signal) ∧
      (∀ s ∈ n.outputs, n.Sourced s) ∧ n.wires.Perm n.derivedWires ∧ ¬ n.Cyclic) ∧
    ∀ e, n.validate = .error e → n.Fault e :=
  have hc := h.built.consistent
  ⟨hc.validate_eq_ok_iff, fun _ => hc.fault_of_validate⟩

end Netlist

namespace StaleWires

/-- A buffer that reads another input than the stored wires say. -/
def netlist : Netlist where
  name := "stale"
  inputs := ["a", "b"]
  outputs := ["y"]
  widths := ⟨[("a", .one), ("b", .one), ("y", .one)]⟩
  arena := [some ⟨⟨0⟩, .op .buf, [.plain "b"], "y"⟩]
  wires := [⟨"a", ⟨0⟩, 0⟩]
  nextFresh := 0

theorem obtained : netlist.Obtained := by
  have hhistory : (Operation.performAll Netlist.perform [.addInput "a" 1, .addInput "b" 1,
      .addOutput "y" 1, .addNode (.op .buf) [.plain "a"] "y", .rebuildWires,
      .replaceNode ⟨0⟩ (.op .buf) [.plain "b"]] (.empty "stale")).1 = netlist := by decide
  rw [← hhistory]
  exact (Netlist.Obtained.empty _).performAll _

end StaleWires

/-- The wires are refused, and they are not those of the fanins. -/
theorem validate_decides_staleWires :
    StaleWires.netlist.Obtained ∧
      StaleWires.netlist.validate = .error (.inconsistentWires "missing wire b -> n0.0") ∧
      StaleWires.netlist.Fault (.inconsistentWires "missing wire b -> n0.0") ∧
      ¬ StaleWires.netlist.wires.Perm StaleWires.netlist.derivedWires := by
  have herror : StaleWires.netlist.validate =
      .error (.inconsistentWires "missing wire b -> n0.0") := by cbv
  obtain ⟨-, hfault⟩ := Netlist.validate_decides StaleWires.obtained
  exact ⟨StaleWires.obtained, herror, hfault _ herror, by decide⟩

end GateSynth
