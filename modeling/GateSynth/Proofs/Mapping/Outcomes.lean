import GateSynth.Mapping.Basic
import GateSynth.Proofs.Mapping.Assembly
import GateSynth.Proofs.Mapping.Choices
import GateSynth.Proofs.Mapping.Demand

/-!
# How mapping ends

Nothing can go wrong in mapping a valid netlist once every demanded node has a match: the demanded
nodes with their matches are a closed set (`placed_placements`), the instances of a closed set can be
assembled (`extract_eq_ok`) and measured. So mapping ends with the netlist of these instances, or
with the blame for a demanded node that has no match (`mapOnto_cases`, `mapOnto_eq_ok`).
-/

namespace GateSynth

open Netlist

variable {ν : Type} {lib : Library ν} {s : Subject}

namespace Selection

/-! ## Measuring -/

theorem Placed.instanceCell {pairs : List (Node × Match ν)} (hlib : lib.Checked) (hs : s.WellFormed)
    (h : Placed s lib pairs) {p : Node × Match ν} (hp : p ∈ pairs) (place : Nat) :
    lib.instanceCell (instanceAt place p) = .ok p.2.cell := by
  have hcell := (Subject.computes_of_nodeMatches hlib hs.plain (h.node p hp) (h.isMatch p hp)).cell
  rw [Library.instanceCell, instanceAt]
  simp only [Match.kind, hcell]

theorem forall₂_mapIdx {α β : Type} {R : β → α → Prop} {f : Nat → α → β} {xs : List α}
    (h : ∀ i, ∀ x ∈ xs, R (f i x) x) : List.Forall₂ R (xs.mapIdx f) xs := by
  induction xs generalizing f with
  | nil => exact .nil
  | cons x xs ih =>
    rw [List.mapIdx_cons]
    exact .cons (h 0 x (.head _)) (ih fun i y hy => h (i + 1) y (.tail _ hy))

section
variable [Quantity ν] {mapped : Netlist} {arrivals : Arrivals ν}

theorem arrivalsAlong_isOk {n : Netlist} (h : ∀ k ∈ n.nodes, ∃ cell, lib.instanceCell k = .ok cell)
    (hc : n.Coherent) (order : List NodeId) (arrivals : Arrivals ν) :
    ∃ result, lib.arrivalsAlong n order arrivals = .ok result := by
  induction order generalizing arrivals with
  | nil => exact ⟨arrivals, rfl⟩
  | cons id rest ih =>
    rw [Library.arrivalsAlong]
    cases hnode : n.node? id with
    | none => exact ih arrivals
    | some k =>
      obtain ⟨cell, hcell⟩ := h k (hc.node?_eq_some_iff.1 hnode).1
      simp only [hcell, bind, Except.bind]
      exact ih _

theorem addArea_eq {nodes : List Node} {cells : List (Cell ν)} {area : ν}
    (h : List.Forall₂ (fun k cell => lib.instanceCell k = .ok cell) nodes cells) :
    lib.addArea nodes area = .ok (cells.foldl (fun a cell => Quantity.add a cell.area) area) := by
  induction h generalizing area with
  | nil => rfl
  | cons hcell _ ih =>
    rw [Library.addArea, hcell]
    exact ih

/-- The arrival times of the instances can be found. -/
theorem Placed.arrivals_isOk {pairs : List (Node × Match ν)} (hlib : lib.Checked)
    (hs : s.WellFormed) (h : Placed s lib pairs) :
    ∃ arrivals, lib.arrivals (assembled s.netlist pairs) = .ok arrivals := by
  have hc := coherent_assembled hs pairs
  obtain ⟨order, horder⟩ := (h.legal_assembled hlib hs).topoOrder hc
  rw [Library.arrivals, horder]
  refine arrivalsAlong_isOk (fun k hk => ?_) hc order _
  obtain ⟨p, hp, place, rfl⟩ := mem_nodes_assembled hk
  exact ⟨_, h.instanceCell hlib hs hp place⟩

/-- The area is that of the cells of the matches. -/
theorem Placed.totalArea {pairs : List (Node × Match ν)} (hlib : lib.Checked)
    (hs : s.WellFormed) (h : Placed s lib pairs) :
    lib.totalArea (assembled s.netlist pairs) =
      .ok ((pairs.map fun p => p.2.cell).foldl (fun a cell => Quantity.add a cell.area)
        Quantity.emptySum) := by
  refine addArea_eq ?_
  rw [nodes_assembled, List.forall₂_map_right_iff]
  exact forall₂_mapIdx fun place p hp => h.instanceCell hlib hs hp place

end

/-! ## Mapping as a whole -/

section
variable {sel : Selection ν} {needed order : List NodeId}

/-- What is demanded lies in the cone. -/
theorem cone_of_demanded (hlib : lib.Checked) (hs : s.WellFormed)
    {pick : NodeId → Option (Match ν)} (hpick : ∀ id m, pick id = some m →
      ∃ node, s.netlist.node? id = some node ∧ m ∈ s.nodeMatches lib node) {id : NodeId}
    (h : s.netlist.Demanded pick id) : s.netlist.Cone id := by
  induction h with
  | output ho hd => exact .output ho hd
  | leaf _ hm hleaf hd ih =>
    obtain ⟨node, hnode, hmatch⟩ := hpick _ _ hm
    obtain ⟨hmem, rfl⟩ := hs.coherent.node?_eq_some_iff.1 hnode
    exact (Subject.tiles_of_nodeMatches hlib hs hmem hmatch).cone hs hmem ih hleaf hd

theorem mem_placements {source : Netlist} {p : Node × Match ν} :
    p ∈ sel.placements source needed order ↔
      ∃ id ∈ order, id ∈ needed ∧ source.node? id = some p.1 ∧ sel.chosen? id = some p.2 := by
  simp only [placements, List.mem_filterMap, placement?_eq_some_iff]

/-- The demanded nodes are placed with their choices. -/
theorem mem_placements_iff (hs : s.WellFormed) (horder : s.netlist.topoOrder = .ok order)
    (hneeded : ∀ id, id ∈ needed ↔ s.netlist.Demanded sel.chosen? id) {p : Node × Match ν} :
    p ∈ sel.placements s.netlist needed order ↔ p.1 ∈ s.netlist.nodes ∧
      s.netlist.Demanded sel.chosen? p.1.id ∧ sel.chosen? p.1.id = some p.2 := by
  rw [mem_placements]
  constructor
  · rintro ⟨id, -, hid, hnode, hm⟩
    obtain ⟨hmem, rfl⟩ := hs.coherent.node?_eq_some_iff.1 hnode
    exact ⟨hmem, (hneeded _).1 hid, hm⟩
  · rintro ⟨hnode, hdemand, hm⟩
    have hmem : p.1.id ∈ order :=
      (hs.coherent.perm_of_topoOrder horder).mem_iff.2 (List.mem_map_of_mem hnode)
    exact ⟨p.1.id, hmem, (hneeded _).2 hdemand, hs.coherent.node?_of_mem hnode, hm⟩

/-- The demanded nodes with their matches are a closed set. -/
theorem placed_placements (hs : s.WellFormed) (hsel : sel.Sound s lib)
    (horder : s.netlist.topoOrder = .ok order)
    (hneeded : ∀ id, id ∈ needed ↔ s.netlist.Demanded sel.chosen? id)
    (hchosen : ∀ id, s.netlist.Demanded sel.chosen? id → (sel.chosen? id).isSome) :
    Placed s lib (sel.placements s.netlist needed order) := by
  have hplace : ∀ d ∈ s.netlist.nodes, s.netlist.Demanded sel.chosen? d.id →
      ∃ p ∈ sel.placements s.netlist needed order, p.1 = d := by
    intro d hd hdemand
    obtain ⟨m, hm⟩ := Option.isSome_iff_exists.1 (hchosen d.id hdemand)
    exact ⟨(d, m), (mem_placements_iff hs horder hneeded).2 ⟨hd, hdemand, hm⟩, rfl⟩
  refine ⟨fun p hp => ((mem_placements_iff hs horder hneeded).1 hp).1, fun p hp => ?_, ?_,
    fun o ho d hd hdo => hplace d hd ?_, fun p hp leaf hleaf d hd hdo => hplace d hd ?_⟩
  · obtain ⟨hnode, -, hm⟩ := (mem_placements_iff hs horder hneeded).1 hp
    obtain ⟨node, hnode', hmatch⟩ := hsel p.1.id p.2 hm
    rw [hs.coherent.node?_of_mem hnode] at hnode'
    cases hnode'
    exact hmatch
  · rw [placements, List.map_filterMap]
    refine List.Nodup.filterMap (fun a b node ha hb => ?_) (hs.coherent.nodup_of_topoOrder horder)
    obtain ⟨p, hp, rfl⟩ := Option.mem_map.1 ha
    obtain ⟨q, hq, heq⟩ := Option.mem_map.1 hb
    have hpid := (hs.coherent.node?_eq_some_iff.1 (placement?_eq_some_iff.1 hp).2.1).2
    have hqid := (hs.coherent.node?_eq_some_iff.1 (placement?_eq_some_iff.1 hq).2.1).2
    rw [← hpid, ← hqid, heq]
  · exact .output ho (hdo ▸ hs.driver?_output hd)
  · obtain ⟨-, hdemand, hm⟩ := (mem_placements_iff hs horder hneeded).1 hp
    exact .leaf hdemand hm hleaf (hdo ▸ hs.driver?_output hd)

theorem extract_eq_ok (hlib : lib.Checked) (hs : s.WellFormed)
    (horder : s.netlist.topoOrder = .ok order) (hrequired : sel.required s.netlist = .ok needed)
    (hplaced : Placed s lib (sel.placements s.netlist needed order)) :
    sel.extract s = .ok (assembled s.netlist (sel.placements s.netlist needed order)) := by
  have hinputs : addPorts s.netlist addInput s.netlist.inputs (Netlist.empty s.netlist.name) =
      .ok (built s.netlist s.netlist.inputs [] ([] : List (Node × Match ν))) :=
    addPorts_inputs [] hs.coherent.inputs_nodup
  have houtputs : addPorts s.netlist addOutput s.netlist.outputs
      (built s.netlist s.netlist.inputs [] ([] : List (Node × Match ν))) =
        .ok (built s.netlist s.netlist.inputs s.netlist.outputs ([] : List (Node × Match ν))) :=
    addPorts_outputs [] hs.coherent.outputs_nodup
  have hinstances : sel.addInstances s.netlist needed order
      (built s.netlist s.netlist.inputs s.netlist.outputs []) =
        .ok (built s.netlist s.netlist.inputs s.netlist.outputs
          ([] ++ sel.placements s.netlist needed order)) :=
    addInstances_built (fun p hp => hplaced.output_not_input hs hp) (hplaced.nodup_outputs hs)
  have hvalid := hplaced.validate_assembled hlib hs
  rw [List.nil_append] at hinstances
  have hassemble : sel.assemble s.netlist needed =
      .ok (assembled s.netlist (sel.placements s.netlist needed order)) := by
    rw [assemble, hinputs]
    simp only [bind, Except.bind, houtputs, horder, hinstances]
    rw [show (built s.netlist s.netlist.inputs s.netlist.outputs
      (sel.placements s.netlist needed order)).rebuildWires.validate = .ok () from hvalid]
    rfl
  rw [extract, hrequired]
  simp only [bind, Except.bind, hassemble]
  rfl

end

section
variable [Quantity ν] {strategy : Strategy}

/-- A netlist with a subject graph is mapped to the instances of the demanded nodes, or one of these
has no match and is to blame. -/
theorem mapOnto_cases {n : Netlist} (hlib : lib.Checked) (hs : s.WellFormed)
    (hsubject : Subject.ofNetlist n = .ok s) (strategy : Strategy) :
    ∃ sel order, s.select lib strategy = .ok sel ∧ s.netlist.topoOrder = .ok order ∧
      ((∃ needed r, n.mapOnto lib strategy = .ok r ∧
          (∀ id, id ∈ needed ↔ s.netlist.Demanded sel.chosen? id) ∧
          (∀ id, s.netlist.Demanded sel.chosen? id → (sel.chosen? id).isSome) ∧
          r.netlist = assembled s.netlist (sel.placements s.netlist needed order)) ∨
        ∃ id, n.mapOnto lib strategy = .error (sel.unmappable s.netlist id) ∧
          s.netlist.Demanded sel.chosen? id ∧ sel.chosen? id = none) := by
  obtain ⟨order, horder⟩ := hs.legal.topoOrder hs.coherent
  have hselect : s.select lib strategy = .ok (along s lib strategy order .empty) := by
    rw [Subject.select, horder]
    rfl
  refine ⟨_, order, hselect, horder, ?_⟩
  rcases required_cases (along s lib strategy order .empty) s.netlist with
    ⟨needed, hrequired, hneeded, hchosen⟩ | ⟨id, hrequired, hdemand, hnone⟩
  · refine .inl ⟨needed, ?_⟩
    have hplaced := placed_placements hs (sound_of_select hselect) horder hneeded hchosen
    obtain ⟨arrivals, harrivals⟩ := hplaced.arrivals_isOk hlib hs
    have hmap : ∃ r, n.mapOnto lib strategy = .ok r ∧ r.netlist = assembled s.netlist
        ((along s lib strategy order .empty).placements s.netlist needed order) := by
      rw [Netlist.mapOnto, hsubject]
      simp only [bind, Except.bind, hselect, extract_eq_ok hlib hs horder hrequired hplaced,
        harrivals, hplaced.totalArea hlib hs]
      exact ⟨_, rfl, rfl⟩
    obtain ⟨r, hr, hnetlist⟩ := hmap
    exact ⟨r, hr, hneeded, hchosen, hnetlist⟩
  · refine .inr ⟨id, ?_, hdemand, hnone⟩
    rw [Netlist.mapOnto, hsubject]
    simp only [bind, Except.bind, hselect, extract, hrequired]

/-- A mapping consists of the instances of the demanded nodes, with their choices. -/
theorem mapOnto_eq_ok {n : Netlist} {r : Mapping ν} (hc : n.Coherent) (hlib : lib.Checked)
    (h : n.mapOnto lib strategy = .ok r) :
    ∃ s sel needed order, Subject.ofNetlist n = .ok s ∧ s.WellFormed ∧
      s.select lib strategy = .ok sel ∧ s.netlist.topoOrder = .ok order ∧
      (∀ id, id ∈ needed ↔ s.netlist.Demanded sel.chosen? id) ∧
      (∀ id, s.netlist.Demanded sel.chosen? id → (sel.chosen? id).isSome) ∧
      r.netlist = assembled s.netlist (sel.placements s.netlist needed order) := by
  obtain ⟨s, hsubject, -⟩ := ok_of_bind h
  have hs := Subject.wellFormed_of_ofNetlist hc hsubject
  obtain ⟨sel, order, hselect, horder, hcases⟩ := mapOnto_cases hlib hs hsubject strategy
  rcases hcases with ⟨needed, r', hr', hneeded, hchosen, hnetlist⟩ | ⟨id, herror, -⟩
  · rw [h] at hr'
    cases hr'
    exact ⟨s, sel, needed, order, hsubject, hs, hselect, horder, hneeded, hchosen, hnetlist⟩
  · rw [h] at herror
    cases herror

/-- Every demanded node has a choice exactly if what drives the outputs is coverable. -/
theorem demanded_chosen_iff {sel : Selection ν} (hlib : lib.Checked) (hs : s.WellFormed)
    (hsel : sel.Settled s lib strategy) :
    (∀ id, s.netlist.Demanded sel.chosen? id → (sel.chosen? id).isSome) ↔
      ∀ o ∈ s.netlist.outputs, ∀ d, s.netlist.driver? o = some d → s.Coverable lib d := by
  constructor
  · intro h o ho d hd
    have hchosen := h d (.output ho hd)
    obtain ⟨node, hnode, -, rfl⟩ := driver?_eq_some hd
    exact (hsel.chosen?_isSome_iff hlib hs hnode).1 hchosen
  · intro h id hid
    induction hid with
    | output ho hd => exact hsel.chosen?_of_coverable hlib hs (h _ ho _ hd)
    | leaf hid hm hleaf hd _ =>
      obtain ⟨node, hnode, rfl⟩ := hid.exists_node
      exact hsel.chosen?_leaf hlib hs hnode hm hleaf hd

/-- What a mapping is said to measure is measured on its netlist. -/
theorem measures_of_mapOnto {n : Netlist} {r : Mapping ν} (h : n.mapOnto lib strategy = .ok r) :
    lib.totalArea r.netlist = .ok r.totalArea ∧ (∃ arrivals, lib.arrivals r.netlist = .ok arrivals ∧
      r.criticalArrival = Library.criticalArrival r.netlist arrivals) ∧
      r.cellUsage = r.netlist.statistics := by
  obtain ⟨s, -, h⟩ := ok_of_bind h
  obtain ⟨sel, -, h⟩ := ok_of_bind h
  obtain ⟨mapped, -, h⟩ := ok_of_bind h
  obtain ⟨arrivals, harrivals, h⟩ := ok_of_bind h
  obtain ⟨area, harea, h⟩ := ok_of_bind h
  cases h
  exact ⟨harea, ⟨arrivals, harrivals, rfl⟩, rfl⟩

end

end Selection

end GateSynth
