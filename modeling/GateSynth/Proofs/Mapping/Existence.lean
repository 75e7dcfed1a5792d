import GateSynth.Proofs.Library.Generic
import GateSynth.Proofs.Mapping.Correctness
import GateSynth.Proofs.Mapping.Outcomes

/-!
# When a mapping exists

Mapping succeeds exactly if the drivers of the primary outputs are coverable, and its only error
names a node in the cone of the outputs that has no match at all (`mapOnto_isOk_iff`). A cell whose
function is a single operator on its pins matches every node of this operator
(`nodeMatches_ne_nil_of_flat`), so the generic library covers every netlist whose cone consists of
operators, constants and instances of its own cells (`coverable_generic`).
-/

namespace GateSynth

open Netlist

variable {ν : Type} {lib : Library ν} {s : Subject}

/-! ## Cells of a single operator -/

namespace Occurrence

variable {o : Occurrence} {names signals : List String} {w : Width}

/-- Different pins that are not bound yet can be bound to any signals. -/
theorem exists_expandAll_pins (hnodup : names.Nodup) (hlength : names.length = signals.length)
    (hfree : ∀ name ∈ names, o.pins.find? name = none) :
    ∃ o' ∈ expandAll s w (names.map .pin) signals o,
      ∀ name, name ∈ names ∨ (o.pins.find? name).isSome → (o'.pins.find? name).isSome := by
  induction names generalizing signals o with
  | nil =>
    cases signals with
    | nil => exact ⟨o, by simp, fun name h => h.resolve_left List.not_mem_nil⟩
    | cons => cases hlength
  | cons name names ih =>
    cases signals with
    | nil => cases hlength
    | cons signal signals =>
      rw [List.nodup_cons] at hnodup
      rw [List.forall_mem_cons] at hfree
      let bound : Occurrence := { o with pins := o.pins.insert name signal }
      have hbind : o.bindPin name signal = [bound] := by
        rw [bindPin, hfree.1]
      have hother : ∀ other ∈ names, bound.pins.find? other = none := by
        intro other hmem
        rw [Table.find?_insert, if_neg, hfree.2 other hmem]
        rintro rfl
        exact hnodup.1 hmem
      obtain ⟨o', ho', hall⟩ := ih hnodup.2 (Nat.succ.inj hlength) hother
      refine ⟨o', ?_, fun other hmem => hall other ?_⟩
      · rw [List.map_cons, expandAll, expand, hbind, List.flatMap_singleton]
        exact ho'
      · by_cases heq : other = name
        · refine .inr ?_
          rw [Table.find?_insert, if_pos heq]
          rfl
        · refine hmem.imp (fun hmem => (List.mem_cons.1 hmem).resolve_left heq) fun hsome => ?_
          rwa [Table.find?_insert, if_neg heq]

theorem mem_operandOrders_self (kind : Kind) (operands : List String) :
    operands ∈ operandOrders kind operands := by
  unfold operandOrders
  split
  · exact .head _
  · exact .head _

end Occurrence

namespace Subject

variable {node : Node} {cell : Cell ν}

theorem nodeMatches_ne_nil (hgeneric : ∀ name init, node.kind ≠ .cell name init)
    (hcell : cell ∈ lib.lookup node.kind) {m : Match ν} (hm : m ∈ s.cellMatches node cell) :
    s.nodeMatches lib node ≠ [] := by
  rw [nodeMatches_of_not_cell hgeneric]
  obtain ⟨kept, hkept, -⟩ := exists_distinct (List.mem_flatMap.2 ⟨cell, hcell, hm⟩)
  exact List.ne_nil_of_mem hkept

/-- A cell that is just an operator matches every node of this operator. -/
theorem nodeMatches_ne_nil_of_flat (hs : s.WellFormed) (hnode : node ∈ s.netlist.nodes)
    {operator : Operator} (hkind : node.kind = .op operator) (hcell : cell ∈ lib.cells)
    (hflat : Library.Flat cell operator) : s.nodeMatches lib node ≠ [] := by
  have harity : operator.arity = node.fanins.length :=
    hs.legal.arity node hnode _ (by rw [hkind]; rfl)
  have hlength : cell.inputs.length = node.faninSignals.length := by
    rw [hflat.arity, harity, Node.faninSignals, List.length_map]
  obtain ⟨o, ho, hbound⟩ := Occurrence.exists_expandAll_pins (s := s)
    (w := s.netlist.width node.output) (o := .empty) hflat.nodup hlength fun _ _ => rfl
  have hexpand : o ∈ Occurrence.expand s (s.netlist.width node.output) cell.function node.output true
      .empty := by
    rw [hflat.function]
    exact Occurrence.mem_expand_op.2 ⟨node, _, Occurrence.operatorAt?_root hs hnode, hkind,
      by rw [List.length_map, hlength], Occurrence.mem_operandOrders_self _ _, ho⟩
  obtain ⟨leaves, hleaves⟩ := exists_mapM_some fun name hname => hbound name (.inl hname)
  have hlookup : cell ∈ lib.lookup node.kind := by
    rw [hkind]
    refine List.mem_filter.2 ⟨hcell, decide_eq_true ?_⟩
    rw [hflat.function]
    rfl
  have hm : ⟨node.id, cell, leaves, o.covered, o.init⟩ ∈ s.cellMatches node cell := by
    refine List.mem_filterMap.2 ⟨o, hexpand, ?_⟩
    rw [hleaves]
    rfl
  exact nodeMatches_ne_nil (by simp [hkind]) hlookup hm

/-- A cell for constants matches every constant. -/
theorem nodeMatches_ne_nil_of_const (hs : s.WellFormed) (hnode : node ∈ s.netlist.nodes)
    {value : Word} (hkind : node.kind = .const value) (hcell : cell ∈ lib.cells)
    (hfunction : cell.function = .const) (hinputs : cell.inputs = []) :
    s.nodeMatches lib node ≠ [] := by
  have hexpand : ⟨Table.empty, [], some value⟩ ∈
      Occurrence.expand s (s.netlist.width node.output) cell.function node.output true .empty := by
    rw [hfunction]
    exact Occurrence.mem_expand_const.2
      ⟨node, value, Occurrence.operatorAt?_root hs hnode, hkind, _, .head _, rfl⟩
  have hlookup : cell ∈ lib.lookup node.kind := by
    rw [hkind]
    refine List.mem_filter.2 ⟨hcell, decide_eq_true ?_⟩
    rw [hfunction]
    rfl
  have hm : ⟨node.id, cell, [], [], some value⟩ ∈ s.cellMatches node cell := by
    refine List.mem_filterMap.2 ⟨_, hexpand, ?_⟩
    rw [hinputs]
    rfl
  exact nodeMatches_ne_nil (by simp [hkind]) hlookup hm

/-- An instance of a cell of the library with a fanin for every pin matches. -/
theorem nodeMatches_ne_nil_of_cell {name : String} {init : Option Word}
    (hkind : node.kind = .cell name init) (hcell : lib.cell? name = some cell)
    (hlength : cell.inputs.length = node.fanins.length) : s.nodeMatches lib node ≠ [] := by
  rw [nodeMatches_of_cell hkind hcell hlength]
  exact List.cons_ne_nil _ _

/-- If every node of the cone has a match, then all of them are coverable. -/
theorem coverable_of_cone (hlib : lib.Checked) (hs : s.WellFormed)
    (h : ∀ node ∈ s.netlist.nodes, s.netlist.Cone node.id → s.nodeMatches lib node ≠ []) :
    ∀ node ∈ s.netlist.nodes, s.netlist.Cone node.id → s.Coverable lib node.id := by
  refine hs.leaves_induction hlib fun node hnode ih hcone => ?_
  obtain ⟨m, hm⟩ := List.exists_mem_of_ne_nil _ (h node hnode hcone)
  have htiles := tiles_of_nodeMatches hlib hs hnode hm
  refine .intro hnode hm (fun leaf hleaf => htiles.input_of_undriven hs hleaf)
    fun leaf hleaf d hd => ?_
  have hdcone := htiles.cone hs hnode hcone hleaf hd
  obtain ⟨c, hc, ho, rfl⟩ := driver?_eq_some hd
  exact ih m hm leaf hleaf c hc ho hdcone

end Subject

/-! ## Existence -/

/-- A node is an operator, a constant, or an instance of a generic cell with a fanin for every
pin. -/
def Node.IsGeneric (node : Node) : Prop :=
  (∀ name, node.kind ≠ .module name) ∧ ∀ name init, node.kind = .cell name init →
    ∃ cell, Library.generic.cell? name = some cell ∧ cell.inputs.length = node.fanins.length

/-- The generic library has a match for every such node. -/
theorem Node.IsGeneric.nodeMatches_ne_nil {node : Node} (hs : s.WellFormed)
    (hnode : node ∈ s.netlist.nodes) (h : node.IsGeneric) :
    s.nodeMatches Library.generic node ≠ [] := by
  cases hkind : node.kind with
  | op operator =>
    obtain ⟨cell, hcell, hflat⟩ := Library.exists_generic_operator operator
    exact Subject.nodeMatches_ne_nil_of_flat hs hnode hkind hcell hflat
  | const value =>
    obtain ⟨cell, hcell, hfunction, hinputs⟩ := Library.exists_generic_const
    exact Subject.nodeMatches_ne_nil_of_const hs hnode hkind hcell hfunction hinputs
  | module name => exact absurd hkind (h.1 name)
  | cell name init =>
    obtain ⟨cell, hcell, hlength⟩ := h.2 name init hkind
    exact Subject.nodeMatches_ne_nil_of_cell hkind hcell hlength

/-- The nodes of a cone of operators, constants and generic cells are coverable. -/
theorem Subject.coverable_generic {source : Netlist} {inverters : Subject.Inverters}
    (hl : source.Legal) (hs : s.WellFormed) (ht : Subject.Traced source s.netlist inverters [])
    (h : ∀ node ∈ source.nodes, source.Cone node.id → node.IsGeneric) :
    ∀ node ∈ s.netlist.nodes, s.netlist.Cone node.id → s.Coverable Library.generic node.id := by
  refine Subject.coverable_of_cone Library.checked_generic hs fun node hnode hcone => ?_
  refine Node.IsGeneric.nodeMatches_ne_nil hs hnode ?_
  rcases ht.cone hl hcone node hnode rfl with ⟨old, hold, hstands, hcone⟩ | ⟨x, hinverts, -⟩
  · have hold := h old hold hcone
    rw [Node.IsGeneric, hstands.kind, ← hstands.fanins.length_eq]
    exact hold
  · rw [Node.IsGeneric, hinverts.kind]
    exact ⟨nofun, nofun⟩

namespace Selection

variable [Quantity ν] {sel : Selection ν} {strategy : Strategy}

/-- The error for a demanded node names a node in the cone that has no match. -/
theorem unmappable_eq (hlib : lib.Checked) (hs : s.WellFormed) (hsel : sel.Settled s lib strategy)
    (hsound : sel.Sound s lib) {id : NodeId} (hid : s.netlist.Demanded sel.chosen? id)
    (hnone : sel.chosen? id = none) : ∃ node ∈ s.netlist.nodes, s.netlist.Cone node.id ∧
      s.nodeMatches lib node = [] ∧
      sel.unmappable s.netlist id = .unmappable node.id node.kind.text node.output := by
  have hcone := cone_of_demanded hlib hs hsound hid
  obtain ⟨node, hnode, rfl⟩ := hid.exists_node
  obtain ⟨culprit, hculprit, hblame, hmatches, hbelow⟩ := hsel.blame hlib hs node hnode hnone
  refine ⟨culprit, hculprit, hbelow hcone, hmatches, ?_⟩
  rw [unmappable, hblame]
  simp only [hs.coherent.node?_of_mem hculprit]

/-- A netlist with a subject graph is mapped exactly if what drives the outputs is coverable. -/
theorem mapOnto_isOk_iff_coverable {n : Netlist} (hlib : lib.Checked) (hs : s.WellFormed)
    (hsubject : Subject.ofNetlist n = .ok s) :
    (∃ r, n.mapOnto lib strategy = .ok r) ↔ ∀ o ∈ s.netlist.outputs, ∀ d,
      s.netlist.driver? o = some d → s.Coverable lib d := by
  obtain ⟨sel, order, hselect, -, hcases⟩ := mapOnto_cases hlib hs hsubject strategy
  rw [← demanded_chosen_iff hlib hs (settled_of_select hlib hs hselect)]
  rcases hcases with ⟨needed, r, hr, -, hchosen, -⟩ | ⟨id, herror, hdemand, hnone⟩
  · exact ⟨fun _ => hchosen, fun _ => ⟨r, hr⟩⟩
  · constructor
    · rintro ⟨r, hr⟩
      rw [hr] at herror
      cases herror
    · intro hchosen
      have hsome := hchosen id hdemand
      rw [hnone] at hsome
      cases hsome

end Selection

open Selection in
/-- Mapping a valid netlist succeeds exactly if what drives the outputs is coverable, and otherwise
blames a node in the cone of the outputs for which no cell fits. With the generic library it succeeds
whenever the cone consists of operators, constants and instances of generic cells. -/
theorem mapOnto_isOk_iff [Quantity ν] {n : Netlist} (hc : n.Coherent) (hvalid : n.validate = .ok ())
    (hlib : lib.Checked) (strategy : Strategy) :
    (∃ s, Subject.ofNetlist n = .ok s ∧
      ((∃ r, n.mapOnto lib strategy = .ok r) ↔ ∀ o ∈ s.netlist.outputs, ∀ d,
        s.netlist.driver? o = some d → s.Coverable lib d) ∧
      ∀ e, n.mapOnto lib strategy = .error e → ∃ node ∈ s.netlist.nodes, s.netlist.Cone node.id ∧
        s.nodeMatches lib node = [] ∧ e = .unmappable node.id node.kind.text node.output) ∧
    ((∀ node ∈ n.nodes, n.Cone node.id → node.IsGeneric) →
      ∃ r, n.mapOnto Library.generic strategy = .ok r) := by
  have hl := hc.legal_of_validate hvalid
  obtain ⟨s, inverters, hsubject, hfanout, ht⟩ := Subject.exists_ofNetlist hc hvalid
  have hs := ht.wellFormed hl hfanout
  refine ⟨⟨s, hsubject, mapOnto_isOk_iff_coverable hlib hs hsubject, fun e he => ?_⟩,
    fun hgeneric => ?_⟩
  · obtain ⟨sel, order, hselect, -, hcases⟩ := mapOnto_cases hlib hs hsubject strategy
    rcases hcases with ⟨needed, r, hr, -⟩ | ⟨id, herror, hdemand, hnone⟩
    · rw [he] at hr
      cases hr
    · obtain ⟨node, hnode, hcone, hmatches, hblame⟩ := unmappable_eq hlib hs
        (settled_of_select hlib hs hselect) (sound_of_select hselect) hdemand hnone
      refine ⟨node, hnode, hcone, hmatches, ?_⟩
      rw [← hblame]
      exact Except.error.inj (he.symm.trans herror)
  · have hcoverable := Subject.coverable_generic hl hs ht hgeneric
    refine (mapOnto_isOk_iff_coverable Library.checked_generic hs hsubject).2 fun o ho d hd => ?_
    have hcone : s.netlist.Cone d := .output ho hd
    obtain ⟨node, hnode, -, rfl⟩ := driver?_eq_some hd
    exact hcoverable node hnode hcone

/-- The compound cell and the inverter cover their netlist, and the generic cells do; without any
cell there is a node to blame. -/
theorem mapOnto_isOk_iff_andNor :
    AndNor.netlist.Coherent ∧ AndNor.netlist.validate = .ok () ∧ AndNor.library.Checked ∧
      (∃ s, Subject.ofNetlist AndNor.netlist = .ok s ∧ ∀ o ∈ s.netlist.outputs, ∀ d,
        s.netlist.driver? o = some d → s.Coverable AndNor.library d) ∧
      (∃ r, AndNor.netlist.mapOnto Library.generic .areaOptimal = .ok r) ∧
      ∃ id kind signal, AndNor.netlist.mapOnto (⟨"none", []⟩ : Library Nat) .delayOptimal =
        .error (.unmappable id kind signal) := by
  have hvalid : AndNor.netlist.validate = .ok () := by
    rw [Netlist.validate_of_derived (by decide)]
    decide
  have hlib := Library.checked_of_ofRecord AndNor.ofRecord_record
  have hnone : (⟨"none", []⟩ : Library Nat).Checked :=
    ⟨.nil, fun _ hcell => absurd hcell List.not_mem_nil⟩
  obtain ⟨⟨s, hsubject, hiff, -⟩, hgeneric⟩ :=
    mapOnto_isOk_iff AndNor.coherent hvalid hlib .areaOptimal
  obtain ⟨⟨_, -, -, herror⟩, -⟩ := mapOnto_isOk_iff AndNor.coherent hvalid hnone .delayOptimal
  refine ⟨AndNor.coherent, hvalid, hlib, ⟨s, hsubject, hiff.1 ?_⟩,
    hgeneric fun node hnode _ => ?_, ?_⟩
  · exact AndNor.exists_mapOnto
  · have hkind : ∃ operator, node.kind = .op operator := by
      rcases List.mem_pair.1 hnode with rfl | rfl
      · exact ⟨.and, rfl⟩
      · exact ⟨.nor, rfl⟩
    obtain ⟨operator, hkind⟩ := hkind
    exact ⟨fun name h => by simp [hkind] at h, fun name init h => by simp [hkind] at h⟩
  · cases hmap : AndNor.netlist.mapOnto (⟨"none", []⟩ : Library Nat) .delayOptimal with
    | ok r =>
      have hfails :
          (AndNor.netlist.mapOnto (⟨"none", []⟩ : Library Nat) .delayOptimal).isOk = false := by
        simp only [Netlist.mapOnto, Subject.ofNetlist_of_derived AndNor.wires_netlist,
          Selection.extract, Selection.assemble_eq]
        decide
      rw [hmap] at hfails
      cases hfails
    | error e =>
      obtain ⟨node, -, -, -, rfl⟩ := herror e hmap
      exact ⟨_, _, _, rfl⟩

end GateSynth
