import GateSynth.Mapping.Cover
import GateSynth.Proofs.Mapping.Regions

/-!
# Assembling the mapped netlist

The mapped netlist is known in full: its ports are those of the subject graph, its nodes are the
picked matches in the order in which they are placed, numbered from zero, and its width table lists
the ports and then the instances (`built`). A closed set of matches (`Placed`) makes it legal, so
nothing can go wrong once every demanded node has a match: mapping ends with this netlist, or with
the blame for a demanded node that has none (`mapOnto_cases`).
-/

namespace GateSynth

open Netlist

variable {ν : Type} {lib : Library ν} {s : Subject}

namespace Selection

/-- The widths that the source gives to some signals, in the order of the signals. -/
def widthTable (source : Netlist) (signals : List String) : Table String Width :=
  signals.foldl (fun t x => t.insert x (source.width x)) Table.empty

/-- The instance of a match at a place. -/
def instanceAt (place : Nat) (p : Node × Match ν) : Node :=
  ⟨⟨place⟩, p.2.kind, p.2.leaves.map Fanin.plain, p.1.output⟩

/-- The netlist with some ports of the source and the instances of some matches. -/
def built (source : Netlist) (inputs outputs : List String) (pairs : List (Node × Match ν)) :
    Netlist where
  name := source.name
  inputs := inputs
  outputs := outputs
  widths := widthTable source (inputs ++ outputs ++ pairs.map fun p => p.1.output)
  arena := pairs.mapIdx fun place p => some (instanceAt place p)
  wires := []
  nextFresh := 0

section
variable {source : Netlist} {inputs outputs signals : List String} {pairs : List (Node × Match ν)}
  {x : String}

theorem widthTable_concat (source : Netlist) (signals : List String) (x : String) :
    widthTable source (signals ++ [x]) = (widthTable source signals).insert x (source.width x) := by
  rw [widthTable, List.foldl_concat, widthTable]

theorem mem_keys_widthTable : x ∈ (widthTable source signals).keys ↔ x ∈ signals := by
  induction signals using List.reverseRecOn with
  | nil => exact Iff.rfl
  | append_singleton signals y ih =>
    rw [widthTable_concat, Table.mem_keys_insert, ih, List.mem_append, List.mem_singleton, or_comm]

theorem nodup_keys_widthTable (source : Netlist) (signals : List String) :
    (widthTable source signals).keys.Nodup := by
  induction signals using List.reverseRecOn with
  | nil => exact .nil
  | append_singleton signals y ih =>
    rw [widthTable_concat]
    exact Table.nodup_keys_insert ih

theorem find?_widthTable (hx : x ∈ signals) :
    (widthTable source signals).find? x = some (source.width x) := by
  induction signals using List.reverseRecOn with
  | nil => cases hx
  | append_singleton signals y ih =>
    rw [widthTable_concat, Table.find?_insert]
    split
    · next heq => rw [heq]
    · next hne =>
      refine ih ((List.mem_append.1 hx).resolve_right ?_)
      simpa using hne

/-- The table depends on the widths of the signals only. -/
theorem widthTable_congr {source' : Netlist} (h : ∀ x ∈ signals, source'.width x = source.width x) :
    widthTable source' signals = widthTable source signals := by
  induction signals using List.reverseRecOn with
  | nil => rfl
  | append_singleton signals y ih =>
    rw [widthTable_concat, widthTable_concat, h y (by simp),
      ih fun x hx => h x (List.mem_append_left _ hx)]

/-! ## The nodes of the mapped netlist -/

theorem nodes_built (source : Netlist) (inputs outputs : List String)
    (pairs : List (Node × Match ν)) :
    (built source inputs outputs pairs).nodes = pairs.mapIdx instanceAt := by
  have harena : (built source inputs outputs pairs).arena = (pairs.mapIdx instanceAt).map some := by
    refine List.ext_getElem? fun i => ?_
    rw [built, List.getElem?_mapIdx, List.getElem?_map, List.getElem?_mapIdx, Option.map_map]
    rfl
  rw [nodes, harena, List.filterMap_map]
  exact List.filterMap_some

/-- A node of the mapped netlist is the instance of one of the matches. -/
theorem mem_nodes_built {k : Node} (h : k ∈ (built source inputs outputs pairs).nodes) :
    ∃ p ∈ pairs, ∃ place, k = instanceAt place p := by
  rw [nodes_built, List.mem_mapIdx] at h
  obtain ⟨i, hi, rfl⟩ := h
  exact ⟨pairs[i], List.getElem_mem hi, i, rfl⟩

theorem map_output_nodes_built (source : Netlist) (inputs outputs : List String)
    (pairs : List (Node × Match ν)) :
    (built source inputs outputs pairs).nodes.map Node.output = pairs.map fun p => p.1.output := by
  refine List.ext_getElem? fun i => ?_
  rw [nodes_built, List.getElem?_map, List.getElem?_mapIdx, List.getElem?_map, Option.map_map]
  rfl

theorem isDefined_built :
    (built source inputs outputs pairs).isDefined x = true ↔
      x ∈ pairs.map (fun p => p.1.output) ∨ x ∈ inputs := by
  rw [isDefined_iff, ← List.mem_map, map_output_nodes_built]
  exact Iff.rfl

theorem coherent_built (hinputs : inputs.Nodup) (houtputs : outputs.Nodup) :
    (built source inputs outputs pairs).Coherent where
  place {i node} h := by
    rw [built, List.getElem?_mapIdx] at h
    obtain ⟨p, -, hp⟩ := Option.map_eq_some_iff.1 h
    cases hp
    rfl
  widths_nodup := nodup_keys_widthTable source _
  inputs_nodup := hinputs
  outputs_nodup := houtputs

/-- Ports and instances have the widths that they have in the source. -/
theorem width_built (h : x ∈ inputs ∨ x ∈ outputs ∨ x ∈ pairs.map fun p => p.1.output) :
    (built source inputs outputs pairs).width x = source.width x := by
  have hmem : x ∈ inputs ++ outputs ++ pairs.map fun p => p.1.output := by
    simpa only [List.mem_append, or_assoc] using h
  rw [width, built, find?_widthTable hmem]
  rfl

/-! ## Building step by step -/

theorem declareWidth_width_eq (n source : Netlist) (x : String) :
    n.declareWidth x (source.width x).bits = .ok (n.setWidth x (source.width x)) := by
  rw [declareWidth, Width.ofNat?_bits]

theorem addInput_built (hx : x ∉ inputs) :
    (built source inputs [] ([] : List (Node × Match ν))).addInput x (source.width x).bits =
      .ok (built source (inputs ++ [x]) [] ([] : List (Node × Match ν))) := by
  have hinput : (built source inputs [] ([] : List (Node × Match ν))).isInput x = false := by
    rw [← Bool.not_eq_true, isInput_iff]
    exact hx
  rw [addInput, hinput, declareWidth_width_eq]
  simp [built, driver?, driverNode?, nodes, setWidth, widthTable_concat, bind, Except.bind, pure,
    Except.pure]

theorem addOutput_built (hx : x ∉ outputs) :
    (built source inputs outputs ([] : List (Node × Match ν))).addOutput x (source.width x).bits =
      .ok (built source inputs (outputs ++ [x]) ([] : List (Node × Match ν))) := by
  have houtput : (built source inputs outputs ([] : List (Node × Match ν))).isOutput x = false := by
    rw [← Bool.not_eq_true, isOutput_iff]
    exact hx
  rw [addOutput, houtput, declareWidth_width_eq]
  simp [built, setWidth, ← List.append_assoc, widthTable_concat, bind, Except.bind, pure,
    Except.pure]

theorem addPorts_inputs (inputs : List String) {ports : List String}
    (h : (inputs ++ ports).Nodup) :
    addPorts source addInput ports (built source inputs [] ([] : List (Node × Match ν))) =
      .ok (built source (inputs ++ ports) [] ([] : List (Node × Match ν))) := by
  induction ports generalizing inputs with
  | nil => rw [List.append_nil, addPorts]
  | cons x ports ih =>
    have hx : x ∉ inputs := fun hmem => (List.nodup_append.1 h).2.2 x hmem x (.head _) rfl
    rw [List.append_cons] at h ⊢
    rw [addPorts, addInput_built hx]
    exact ih _ h

theorem addPorts_outputs (outputs : List String) {ports : List String}
    (h : (outputs ++ ports).Nodup) :
    addPorts source addOutput ports (built source inputs outputs ([] : List (Node × Match ν))) =
      .ok (built source inputs (outputs ++ ports) ([] : List (Node × Match ν))) := by
  induction ports generalizing outputs with
  | nil => rw [List.append_nil, addPorts]
  | cons x ports ih =>
    have hx : x ∉ outputs := fun hmem => (List.nodup_append.1 h).2.2 x hmem x (.head _) rfl
    rw [List.append_cons] at h ⊢
    rw [addPorts, addOutput_built hx]
    exact ih _ h

/-- The instance of a match comes behind those that are there. -/
theorem addNode_built (source : Netlist) (outputs : List String) {node : Node} (m : Match ν)
    (hinput : node.output ∉ inputs) (hnew : node.output ∉ pairs.map fun p => p.1.output) :
    ∃ id, ((built source inputs outputs pairs).setWidth node.output
        (source.width node.output)).addNode m.kind (m.leaves.map Fanin.plain) node.output =
      .ok (built source inputs outputs (pairs ++ [(node, m)]), id) := by
  have hfree : ((built source inputs outputs pairs).setWidth node.output
      (source.width node.output)).isDefined node.output = false := by
    have hbuilt : ¬ (built source inputs outputs pairs).isDefined node.output = true :=
      fun hdef => (isDefined_built.1 hdef).elim hnew hinput
    exact Bool.not_eq_true _ ▸ hbuilt
  have harity : ∀ k, m.kind.arity? = some k → k = (m.leaves.map Fanin.plain).length := nofun
  obtain ⟨n', id, hadd⟩ := addNode_isOk harity hfree
  refine ⟨id, hadd.trans ?_⟩
  obtain ⟨-, -, -, rfl⟩ := addNode_eq_ok hadd
  simp [built, setWidth, ← List.append_assoc, widthTable_concat, List.mapIdx_concat, instanceAt]

end

section
variable {sel : Selection ν} {source mapped : Netlist} {needed order : List NodeId} {id : NodeId}
  {pairs : List (Node × Match ν)}

/-- A node that is needed, with its match. -/
def placement? (sel : Selection ν) (source : Netlist) (needed : List NodeId) (id : NodeId) :
    Option (Node × Match ν) :=
  if id ∈ needed then
    match source.node? id, sel.chosen? id with
    | some node, some m => some (node, m)
    | _, _ => none
  else none

/-- The nodes of an order that are needed, with their matches. -/
def placements (sel : Selection ν) (source : Netlist) (needed order : List NodeId) :
    List (Node × Match ν) :=
  order.filterMap (sel.placement? source needed)

theorem placement?_eq_some_iff {p : Node × Match ν} :
    sel.placement? source needed id = some p ↔
      id ∈ needed ∧ source.node? id = some p.1 ∧ sel.chosen? id = some p.2 := by
  rw [placement?]
  split
  · next hid =>
    split
    · next node m hnode hm =>
      rw [hnode, hm]
      simp [hid, Prod.ext_iff]
    · next hnone =>
      simp only [reduceCtorEq, hid, true_and, false_iff, not_and]
      exact fun hnode hm => hnone _ _ hnode hm
  · next hid => simp [hid]

theorem addInstances_cons_of_none (h : sel.placement? source needed id = none)
    (rest : List NodeId) (mapped : Netlist) :
    sel.addInstances source needed (id :: rest) mapped =
      sel.addInstances source needed rest mapped := by
  rw [addInstances]
  by_cases hid : id ∈ needed
  · rw [if_pos hid]
    cases hnode : source.node? id with
    | none => rfl
    | some node =>
      cases hm : sel.chosen? id with
      | none => rfl
      | some m =>
        have hplace : sel.placement? source needed id = some (node, m) :=
          placement?_eq_some_iff.2 ⟨hid, hnode, hm⟩
        rw [h] at hplace
        cases hplace
  · rw [if_neg hid]

theorem addInstances_cons_of_some {node : Node} {m : Match ν} {id' : NodeId} {mapped' : Netlist}
    (h : sel.placement? source needed id = some (node, m))
    (hadd : (mapped.setWidth node.output (source.width node.output)).addNode m.kind
      (m.leaves.map Fanin.plain) node.output = .ok (mapped', id')) (rest : List NodeId) :
    sel.addInstances source needed (id :: rest) mapped =
      sel.addInstances source needed rest mapped' := by
  obtain ⟨hid, hnode, hm⟩ := placement?_eq_some_iff.1 h
  rw [addInstances, if_pos hid]
  simp only [hnode, hm, hadd, bind, Except.bind]

/-- The instances of an order are put behind those that are there. -/
theorem addInstances_built
    (hinput : ∀ p ∈ sel.placements source needed order, p.1.output ∉ source.inputs)
    (hnodup : ((pairs ++ sel.placements source needed order).map fun p => p.1.output).Nodup) :
    sel.addInstances source needed order (built source source.inputs source.outputs pairs) =
      .ok (built source source.inputs source.outputs
        (pairs ++ sel.placements source needed order)) := by
  induction order generalizing pairs with
  | nil => rw [placements, List.filterMap_nil, List.append_nil, addInstances]
  | cons id rest ih =>
    cases hplace : sel.placement? source needed id with
    | none =>
      have htail : sel.placements source needed (id :: rest) = sel.placements source needed rest :=
        List.filterMap_cons_none hplace
      rw [htail] at hinput hnodup ⊢
      rw [addInstances_cons_of_none hplace, ih hinput hnodup]
    | some p =>
      obtain ⟨node, m⟩ := p
      have htail : sel.placements source needed (id :: rest) =
          (node, m) :: sel.placements source needed rest := List.filterMap_cons_some hplace
      rw [htail] at hinput hnodup ⊢
      rw [List.forall_mem_cons] at hinput
      have hnew : node.output ∉ pairs.map fun p => p.1.output := by
        rw [List.map_append, List.nodup_append] at hnodup
        exact fun hmem => hnodup.2.2 _ hmem _ (.head _) rfl
      obtain ⟨id', hadd⟩ := addNode_built source source.outputs m hinput.1 hnew
      rw [List.append_cons] at hnodup ⊢
      rw [addInstances_cons_of_some hplace hadd, ih hinput.2 hnodup]

end

/-! ## Closed sets of matches -/

/-- Matches of different nodes, among them the drivers of all outputs and of all leaves. -/
structure Placed (s : Subject) (lib : Library ν) (pairs : List (Node × Match ν)) : Prop where
  node : ∀ p ∈ pairs, p.1 ∈ s.netlist.nodes
  isMatch : ∀ p ∈ pairs, p.2 ∈ s.nodeMatches lib p.1
  nodup : (pairs.map Prod.fst).Nodup
  outputs : ∀ o ∈ s.netlist.outputs, ∀ d ∈ s.netlist.nodes, d.output = o → ∃ p ∈ pairs, p.1 = d
  leaves : ∀ p ∈ pairs, ∀ leaf ∈ p.2.leaves, ∀ d ∈ s.netlist.nodes, d.output = leaf →
    ∃ q ∈ pairs, q.1 = d

/-- The netlist of the instances of some matches. -/
def assembled (source : Netlist) (pairs : List (Node × Match ν)) : Netlist :=
  (built source source.inputs source.outputs pairs).rebuildWires

section
variable {pairs : List (Node × Match ν)} (hlib : lib.Checked) (hs : s.WellFormed)
  (h : Placed s lib pairs)
include hs h

theorem Placed.nodup_outputs : (pairs.map fun p => p.1.output).Nodup := by
  have hmap : (pairs.map fun p => p.1.output) = (pairs.map Prod.fst).map Node.output := by
    rw [List.map_map]
    rfl
  rw [hmap]
  refine h.nodup.map_on fun a ha b hb ho => ?_
  obtain ⟨p, hp, rfl⟩ := List.mem_map.1 ha
  obtain ⟨q, hq, rfl⟩ := List.mem_map.1 hb
  exact List.inj_on_of_nodup_map hs.legal.single (h.node p hp) (h.node q hq) ho

theorem Placed.output_not_input {p : Node × Match ν} (hp : p ∈ pairs) :
    p.1.output ∉ s.netlist.inputs :=
  hs.legal.undriven p.1 (h.node p hp)

include hlib

/-- A closed set of matches makes a legal netlist. -/
theorem Placed.legal : (built s.netlist s.netlist.inputs s.netlist.outputs pairs).Legal where
  arity k hk := by
    obtain ⟨p, -, place, rfl⟩ := mem_nodes_built hk
    exact nofun
  reads k hk f hf := by
    obtain ⟨p, hp, place, rfl⟩ := mem_nodes_built hk
    obtain ⟨leaf, hleaf, rfl⟩ := List.mem_map.1 hf
    have htiles := Subject.tiles_of_nodeMatches hlib hs (h.node p hp) (h.isMatch p hp)
    refine isDefined_built.2 ?_
    cases hd : s.netlist.driver? leaf with
    | none => exact .inr (htiles.input_of_undriven hs hleaf hd)
    | some id =>
      obtain ⟨d, hd, ho, -⟩ := driver?_eq_some hd
      obtain ⟨q, hq, rfl⟩ := h.leaves p hp leaf hleaf d hd ho
      exact .inl (List.mem_map.2 ⟨q, hq, ho⟩)
  single := by
    rw [map_output_nodes_built]
    exact h.nodup_outputs hs
  undriven k hk := by
    obtain ⟨p, hp, place, rfl⟩ := mem_nodes_built hk
    exact h.output_not_input hs hp
  driven o ho := by
    refine isDefined_built.2 ?_
    rcases isDefined_iff.1 (hs.legal.driven o ho) with ⟨d, hd, hdo⟩ | hin
    · obtain ⟨p, hp, rfl⟩ := h.outputs o ho d hd hdo
      exact .inl (List.mem_map.2 ⟨p, hp, hdo⟩)
    · exact .inr hin
  acyclic := by
    obtain ⟨rank, hrank⟩ := hs.legal.acyclic.ranked
    have hranked : (built s.netlist s.netlist.inputs s.netlist.outputs pairs).Ranked rank := by
      intro k hk f hf
      obtain ⟨p, hp, place, rfl⟩ := mem_nodes_built hk
      obtain ⟨leaf, hleaf, rfl⟩ := List.mem_map.1 hf
      have htiles := Subject.tiles_of_nodeMatches hlib hs (h.node p hp) (h.isMatch p hp)
      exact htiles.rank_lt hs (h.node p hp) hrank hleaf
    exact hranked.acyclic

theorem Placed.legal_assembled : (assembled s.netlist pairs).Legal := (h.legal hlib hs).rebuildWires

end

theorem nodes_assembled (source : Netlist) (pairs : List (Node × Match ν)) :
    (assembled source pairs).nodes = pairs.mapIdx instanceAt :=
  nodes_built source source.inputs source.outputs pairs

theorem mem_nodes_assembled {source : Netlist} {pairs : List (Node × Match ν)} {k : Node}
    (h : k ∈ (assembled source pairs).nodes) : ∃ p ∈ pairs, ∃ place, k = instanceAt place p := by
  have hbuilt : k ∈ (built source source.inputs source.outputs pairs).nodes := h
  exact mem_nodes_built hbuilt

theorem coherent_assembled (hs : s.WellFormed) (pairs : List (Node × Match ν)) :
    (assembled s.netlist pairs).Coherent :=
  (coherent_built hs.coherent.inputs_nodup hs.coherent.outputs_nodup).rebuildWires

theorem Placed.validate_assembled {pairs : List (Node × Match ν)} (hlib : lib.Checked)
    (hs : s.WellFormed) (h : Placed s lib pairs) :
    (assembled s.netlist pairs).validate = .ok () :=
  (coherent_built hs.coherent.inputs_nodup hs.coherent.outputs_nodup).validate_rebuildWires
    (h.legal hlib hs)

end Selection

end GateSynth
