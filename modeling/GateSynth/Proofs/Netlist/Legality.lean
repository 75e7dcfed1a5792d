import GateSynth.Netlist.Validate
import GateSynth.Proofs.Netlist.TopologicalOrder

/-!
# Legal netlists

`Legal` collects what `validate` asks of the nodes and ports of a netlist, and
`Coherent.validate_eq_ok_iff` says that it asks this and that the stored wires are those of the
fanins, no more. Rebuilding the wires settles the latter (`validate_rebuildWires`), so passes only
have to keep `Legal`.
-/

namespace GateSynth.Netlist

variable {n : Netlist}

/-- The netlist computes something: every node has its operands, every signal that is read or put
out has one source, and there is no loop. -/
structure Legal (n : Netlist) : Prop where
  /-- A node has as many fanins as its kind takes. -/
  arity : ∀ node ∈ n.nodes, ∀ k, node.kind.arity? = some k → k = node.fanins.length
  /-- What a node reads is defined. -/
  reads : ∀ node ∈ n.nodes, ∀ f ∈ node.fanins, n.isDefined f.signal = true
  /-- No two nodes drive one signal. -/
  single : (n.nodes.map Node.output).Nodup
  /-- No node drives a primary input. -/
  undriven : ∀ node ∈ n.nodes, node.output ∉ n.inputs
  /-- Every primary output is defined. -/
  driven : ∀ output ∈ n.outputs, n.isDefined output = true
  /-- There is no loop. -/
  acyclic : n.Acyclic

/-! ## The checks of validation -/

theorem checkFanins_eq_ok_iff {id : NodeId} {signals : List String} :
    n.checkFanins id signals = .ok () ↔ ∀ s ∈ signals, n.isDefined s = true := by
  induction signals with
  | nil => simp [checkFanins]
  | cons signal rest ih =>
    rw [checkFanins, List.forall_mem_cons]
    cases n.isDefined signal with
    | true => simpa using ih
    | false => simp

theorem checkOutputs_eq_ok_iff {outputs : List String} :
    n.checkOutputs outputs = .ok () ↔ ∀ o ∈ outputs, n.isDefined o = true := by
  induction outputs with
  | nil => simp [checkOutputs]
  | cons output rest ih =>
    rw [checkOutputs, List.forall_mem_cons]
    cases n.isDefined output with
    | true => simpa using ih
    | false => simp

/-- What validation asks of one node. -/
theorem checkNode_eq_ok_iff {seen : List Node} {node : Node} :
    n.checkNode seen node = .ok () ↔
      (∀ k, node.kind.arity? = some k → k = node.fanins.length) ∧
        (∀ f ∈ node.fanins, n.isDefined f.signal = true) ∧
        node.output ∉ seen.map Node.output ∧ node.output ∉ n.inputs := by
  rw [checkNode, bind_eq_ok_iff, bind_eq_ok_iff, checkArity_eq_ok_iff, checkFanins_eq_ok_iff,
    Node.faninSignals, List.forall_mem_map, ← isInput_iff]
  refine and_congr_right fun _ => and_congr_right fun _ => ?_
  cases hfind : seen.find? fun earlier => earlier.output = node.output with
  | some existing =>
    have hmem : node.output ∈ seen.map Node.output :=
      List.mem_map.2 ⟨existing, List.mem_of_find?_eq_some hfind, by simpa using List.find?_some hfind⟩
    simp [hmem, throw, throwThe, MonadExceptOf.throw, bind, Except.bind]
  | none =>
    have hmem : node.output ∉ seen.map Node.output := by
      rintro h
      obtain ⟨earlier, hearlier, ho⟩ := List.mem_map.1 h
      simpa [ho] using List.find?_eq_none.1 hfind earlier hearlier
    cases n.isInput node.output <;>
      simp [hmem, throw, throwThe, MonadExceptOf.throw, pure, Except.pure]

/-- What validation asks of the nodes of a list, after those of `seen`. -/
theorem checkNodes_eq_ok_iff {seen nodes : List Node} (hseen : (seen.map Node.output).Nodup) :
    n.checkNodes seen nodes = .ok () ↔
      (∀ node ∈ nodes, ∀ k, node.kind.arity? = some k → k = node.fanins.length) ∧
        (∀ node ∈ nodes, ∀ f ∈ node.fanins, n.isDefined f.signal = true) ∧
        ((seen ++ nodes).map Node.output).Nodup ∧ ∀ node ∈ nodes, node.output ∉ n.inputs := by
  induction nodes generalizing seen with
  | nil => simp [checkNodes, hseen]
  | cons node rest ih =>
    rw [checkNodes, bind_eq_ok_iff, checkNode_eq_ok_iff]
    simp only [List.forall_mem_cons]
    by_cases hmem : node.output ∈ seen.map Node.output
    · have hdup : ¬ ((seen ++ node :: rest).map Node.output).Nodup := by
        rw [List.map_append, List.map_cons, List.nodup_append]
        rintro ⟨-, -, hdisjoint⟩
        exact hdisjoint _ hmem _ (.head _) rfl
      tauto
    · have hseen' : ((seen ++ [node]).map Node.output).Nodup := by
        rw [List.map_append, List.nodup_append]
        refine ⟨hseen, by simp, fun a ha b hb => ?_⟩
        rw [List.map_cons, List.map_nil, List.mem_singleton] at hb
        rintro rfl
        exact hmem (hb ▸ ha)
      rw [ih hseen', List.append_assoc, List.singleton_append]
      tauto

/-! ## Validation -/

/-- Validation accepts the legal netlists whose stored wires are right. -/
theorem Coherent.validate_eq_ok_iff (hc : n.Coherent) :
    n.validate = .ok () ↔ n.Legal ∧ n.checkWires = .ok () := by
  rw [validate, bind_eq_ok_iff, bind_eq_ok_iff, bind_eq_ok_iff, checkNodes_eq_ok_iff (by simp),
    checkOutputs_eq_ok_iff]
  constructor
  · rintro ⟨⟨harity, hreads, hsingle, hundriven⟩, hdriven, hwires, horder⟩
    obtain ⟨order, horder, -⟩ := ok_of_bind horder
    exact ⟨⟨harity, hreads, hsingle, hundriven, hdriven, hc.acyclic_of_topoOrder hsingle horder⟩,
      hwires⟩
  · rintro ⟨h, hwires⟩
    obtain ⟨order, horder⟩ := hc.topoOrder_of_acyclic h.acyclic
    exact ⟨⟨h.arity, h.reads, h.single, h.undriven⟩, h.driven, hwires, by rw [horder]; rfl⟩

theorem Coherent.legal_of_validate (hc : n.Coherent) (h : n.validate = .ok ()) : n.Legal :=
  (hc.validate_eq_ok_iff.1 h).1

theorem checkWires_of_derived (h : n.wires = n.derivedWires) : n.checkWires = .ok () := by
  rw [checkWires, h]
  exact if_pos rfl

theorem checkWires_rebuildWires (n : Netlist) : n.rebuildWires.checkWires = .ok () :=
  checkWires_of_derived rfl

/-- What is left to check of a netlist whose wires are those of its fanins, as they come. -/
def validateDerived (n : Netlist) : Except NetlistError Unit := do
  n.checkNodes [] n.nodes
  n.checkOutputs n.outputs
  let _ ← n.topoOrder

theorem validate_of_derived (h : n.wires = n.derivedWires) : n.validate = n.validateDerived := by
  rw [validate, checkWires_of_derived h]
  rfl

theorem validate_rebuilt (n : Netlist) : n.rebuildWires.validate = n.rebuildWires.validateDerived :=
  validate_of_derived rfl

theorem Legal.rebuildWires (h : n.Legal) : n.rebuildWires.Legal :=
  ⟨h.arity, h.reads, h.single, h.undriven, h.driven, h.acyclic⟩

/-- With rebuilt wires a legal netlist is valid. -/
theorem Coherent.validate_rebuildWires (hc : n.Coherent) (h : n.Legal) :
    n.rebuildWires.validate = .ok () :=
  hc.rebuildWires.validate_eq_ok_iff.2 ⟨h.rebuildWires, checkWires_rebuildWires n⟩

/-- The nodes of a legal netlist can be ordered. -/
theorem Legal.topoOrder (h : n.Legal) (hc : n.Coherent) : ∃ order, n.topoOrder = .ok order :=
  hc.topoOrder_of_acyclic h.acyclic

/-! ## Sources -/

/-- In a legal netlist a defined signal is driven by one node or is a primary input, not both. -/
theorem Legal.source (h : n.Legal) {signal : String} (hs : n.isDefined signal = true) :
    (∃ node ∈ n.nodes, node.output = signal ∧ n.driver? signal = some node.id) ∨
      signal ∈ n.inputs ∧ n.driver? signal = none := by
  rcases isDefined_iff.1 hs with ⟨node, hnode, rfl⟩ | hin
  · exact .inl ⟨node, hnode, rfl, driver?_of_mem h.single hnode⟩
  · refine .inr ⟨hin, driver?_eq_none_iff.2 fun node hnode ho => ?_⟩
    exact h.undriven node hnode (ho ▸ hin)

end GateSynth.Netlist
