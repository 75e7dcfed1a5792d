import GateSynth.Proofs.Library.StoredForm
import GateSynth.Proofs.Mapping.ExactCosts
import GateSynth.Proofs.Mapping.Outcomes
import GateSynth.Proofs.Mapping.Tilings
import Mathlib.Algebra.BigOperators.Group.Finset.Basic
import Mathlib.Algebra.Group.Submonoid.BigOperators
import Mathlib.Algebra.Order.BigOperators.Group.List
import Mathlib.Algebra.Order.Monoid.Submonoid
import Mathlib.Tactic.Linarith

/-!
# Optimality of areas

What `areaOptimal` finds for a signal, its `worth`, is the least area of a match of its driver
together with the worths of the leaves that have no other reader (`Settled.worth_le`,
`Settled.worth_eq`). Summed over the matches of a tight cover, the worths of these leaves cancel
against those of the roots, and the worths of the other roots are left: they are a lower bound of
the area of the cover (`Tight.boundary_le`), and equal to it for the cover that is selected
(`Tight.boundary_eq`). The other roots are needed by every cover, so no cover has less area than the
selected one (`mapOnto_areaOptimal`).
-/

namespace GateSynth

open Netlist

variable {lib : Library ℚ} {s : Subject} {unit : ℚ}

namespace Selection

variable {sel : Selection ℚ} {node : Node} {m : Match ℚ} {pairs : List (Node × Match ℚ)}

/-- The area of what is selected for a signal, up to the signals that have other readers. -/
def worth (sel : Selection ℚ) (s : Subject) (x : String) : ℚ :=
  match sel.leafCost s x with
  | .ok cost => cost.area
  | .error _ => 0

/-- The area of a match with the worths of the leaves that have no other reader. -/
def bill (sel : Selection ℚ) (s : Subject) (m : Match ℚ) : ℚ :=
  m.cell.area + ((m.absorbed s).map (sel.worth s)).sum

/-! ## The area of a match -/

/-- Every signal that has no other reader is added once. -/
theorem addAreas_eq {worth : String → ℚ} {costs : List (String × String × Cost ℚ)}
    (h : ∀ c ∈ costs, c.2.2.area = worth c.2.1) (counted : List String) (area : ℚ) :
    addAreas s costs counted area = area + ∑ x ∈ (costs.map fun c => c.2.1).toFinset.filter
      (fun x => s.isAbsorbable x = true ∧ x ∉ counted), worth x := by
  induction costs generalizing counted area with
  | nil => simp [addAreas]
  | cons c rest ih =>
    obtain ⟨pin, leaf, cost⟩ := c
    rw [List.forall_mem_cons] at h
    rw [addAreas]
    split
    · next hnew =>
      rw [Bool.and_eq_true, Bool.not_eq_true', List.contains_eq_mem,
        decide_eq_false_iff_not] at hnew
      have hinsert : ((((pin, leaf, cost) :: rest).map fun c => c.2.1).toFinset.filter
          fun x => s.isAbsorbable x = true ∧ x ∉ counted) =
          insert leaf ((rest.map fun c => c.2.1).toFinset.filter
            fun x => s.isAbsorbable x = true ∧ x ∉ leaf :: counted) := by
        ext x
        by_cases hx : x = leaf
        · simp [hx, hnew]
        · simp [hx]
      rw [ih h.2, hinsert, Finset.sum_insert (by simp), ← h.1]
      exact add_assoc area cost.area _
    · next hold =>
      have hsame : ((((pin, leaf, cost) :: rest).map fun c => c.2.1).toFinset.filter
          fun x => s.isAbsorbable x = true ∧ x ∉ counted) =
          (rest.map fun c => c.2.1).toFinset.filter
            fun x => s.isAbsorbable x = true ∧ x ∉ counted := by
        ext x
        by_cases hx : x = leaf
        · have hnot : ¬ (s.isAbsorbable leaf = true ∧ leaf ∉ counted) := by simpa using hold
          simp [hx, hnot]
        · simp [hx]
      rw [ih h.2, hsame]

/-- The area in the cost of a match is its bill. -/
theorem area_of_costOf (hlength : m.leaves.length = m.cell.inputs.length) {cost : Cost ℚ}
    (h : sel.costOf s m = .ok cost) : cost.area = sel.bill s m := by
  rw [costOf] at h
  split at h
  · next costs hcosts =>
    cases h
    have hall := leafCosts_eq_ok hcosts
    have hworth : ∀ c ∈ costs, c.2.2.area = sel.worth s c.2.1 := by
      intro c hc
      obtain ⟨p, -, -, hleaf, hcost⟩ := exists_of_forall₂ hall hc
      rw [worth, hleaf, hcost]
    have hleaves : m.leaves = costs.map fun c => c.2.1 := by
      rw [← Subject.map_snd_pins hlength, ← List.forall₂_eq_eq_eq, List.forall₂_map_left_iff,
        List.forall₂_map_right_iff]
      exact hall.imp fun _ _ hc => hc.2.1.symm
    have hsum : ((m.absorbed s).map (sel.worth s)).sum =
        ∑ x ∈ m.leaves.toFinset.filter (fun x => s.isAbsorbable x = true ∧ x ∉ []),
          sel.worth s x := by
      rw [← List.sum_toFinset _ (m.nodup_absorbed s)]
      congr 1
      ext x
      simp [Match.mem_absorbed]
    rw [bill, hsum, hleaves]
    exact addAreas_eq hworth [] m.cell.area
  · cases h

/-! ## The worth of a signal -/

theorem worth_of_best (hs : s.WellFormed) (hnode : node ∈ s.netlist.nodes) {choice : Choice ℚ}
    (h : sel.best.find? node.id = some choice) : sel.worth s node.output = choice.cost.area := by
  simp only [worth, leafCost, hs.driver?_output hnode, cost?, h, Option.map_some]

theorem worth_of_none (hs : s.WellFormed) (hnode : node ∈ s.netlist.nodes)
    (h : sel.chosen? node.id = none) : sel.worth s node.output = 0 := by
  rw [chosen?, Option.map_eq_none_iff] at h
  simp only [worth, leafCost, hs.driver?_output hnode, cost?, h, Option.map_none]

section
variable (hlib : lib.Checked) (hs : s.WellFormed)
include hlib hs

/-- A signal is worth the bill of the match that is chosen for its driver. -/
theorem Settled.worth_eq {strategy : Strategy} (h : sel.Settled s lib strategy)
    (hnode : node ∈ s.netlist.nodes) (hm : sel.chosen? node.id = some m) :
    sel.worth s node.output = sel.bill s m := by
  obtain ⟨choice, hchoice, rfl⟩ := Option.map_eq_some_iff.1 hm
  obtain ⟨hmatch, hcost⟩ := h.choice hnode hchoice
  rw [worth_of_best hs hnode hchoice]
  exact area_of_costOf (Subject.length_leaves hlib hs hnode hmatch) hcost

/-- A bill lies where the areas of cells and the worths of what drives leaves lie. -/
theorem bill_mem {M : AddSubmonoid ℚ} (hcells : ∀ cell ∈ lib.cells, cell.area ∈ M)
    (hnode : node ∈ s.netlist.nodes) (hm : m ∈ s.nodeMatches lib node)
    (hleaves : ∀ x ∈ m.leaves, ∀ d ∈ s.netlist.nodes, d.output = x →
      sel.worth s d.output ∈ M) : sel.bill s m ∈ M := by
  refine add_mem (hcells _ (Subject.cell_mem_of_nodeMatches hlib hs hnode hm))
    (list_sum_mem fun a ha => ?_)
  obtain ⟨x, hx, rfl⟩ := List.mem_map.1 ha
  obtain ⟨hleaf, habsorb⟩ := Match.mem_absorbed.1 hx
  obtain ⟨d, hd, rfl⟩ := Subject.exists_driver habsorb
  exact hleaves _ hleaf d hd rfl

/-- The worths of signals lie where the areas of cells and their sums lie. -/
theorem Settled.worth_mem {strategy : Strategy} (h : sel.Settled s lib strategy)
    {M : AddSubmonoid ℚ} (hcells : ∀ cell ∈ lib.cells, cell.area ∈ M) :
    ∀ node ∈ s.netlist.nodes, sel.worth s node.output ∈ M := by
  refine hs.leaves_induction hlib fun node hnode ih => ?_
  cases hm : sel.chosen? node.id with
  | none =>
    rw [worth_of_none hs hnode hm]
    exact zero_mem M
  | some m =>
    obtain ⟨choice, hchoice, rfl⟩ := Option.map_eq_some_iff.1 hm
    obtain ⟨hmatch, -⟩ := h.choice hnode hchoice
    rw [h.worth_eq hlib hs hnode hm]
    exact bill_mem hlib hs hcells hnode hmatch fun x hx d hd hdx => ih _ hmatch x hx d hd hdx

/-- A signal is worth no more than the bill of any match of its driver that can be used. -/
theorem Settled.worth_le (hunit : Quantity.exactTolerance < unit)
    (hgrid : ∀ cell ∈ lib.cells, cell.area ∈ AddSubgroup.zmultiples unit)
    (h : sel.Settled s lib .areaOptimal) (hnode : node ∈ s.netlist.nodes)
    (hm : m ∈ s.nodeMatches lib node) (hleaves : ∀ leaf ∈ m.leaves, ∀ d,
      s.netlist.driver? leaf = some d → (sel.chosen? d).isSome) :
    sel.worth s node.output ≤ sel.bill s m := by
  obtain ⟨cost, hcost⟩ := (costOf_isOk_iff_of_nodeMatches hlib hs hnode hm).2 hleaves
  have harea : ∀ m ∈ s.nodeMatches lib node, ∀ cost, sel.costOf s m = .ok cost →
      cost.area = sel.bill s m := fun m hm cost hcost =>
    area_of_costOf (Subject.length_leaves hlib hs hnode hm) hcost
  have hkey : ∀ m ∈ s.nodeMatches lib node, ∀ cost, sel.costOf s m = .ok cost →
      cost.area ∈ (AddSubgroup.zmultiples unit).toAddSubmonoid := by
    intro m hm cost hcost
    rw [harea m hm cost hcost]
    exact bill_mem hlib hs hgrid hnode hm fun x _ d hd _ => h.worth_mem hlib hs hgrid d hd
  obtain ⟨choice, hchoice, hle⟩ := h.key_le hunit hnode hkey hm hcost
  rw [worth_of_best hs hnode hchoice, ← harea m hm cost hcost]
  exact hle

/-- A node of a closed set of matches has a choice. -/
theorem Placed.chosen?_isSome {strategy : Strategy} (h : Placed s lib pairs)
    (hsel : sel.Settled s lib strategy) : ∀ p ∈ pairs, (sel.chosen? p.1.id).isSome := by
  have hnodes : ∀ node ∈ s.netlist.nodes, ∀ p ∈ pairs, p.1 = node →
      (sel.chosen? node.id).isSome := by
    refine hs.leaves_induction hlib fun node hnode ih p hp hpn => ?_
    subst hpn
    refine (hsel.chosen?_isSome_iff_match hlib hs hnode).2 ⟨p.2, h.isMatch p hp, ?_⟩
    intro leaf hleaf d hd
    obtain ⟨d, hdnode, hdo, rfl⟩ := driver?_eq_some hd
    obtain ⟨q, hq, hqd⟩ := h.leaves p hp leaf hleaf d hdnode hdo
    exact ih p.2 (h.isMatch p hp) leaf hleaf d hdnode hdo q hq hqd
  exact fun p hp => hnodes p.1 (h.node p hp) p hp rfl

end

/-! ## The area of a cover -/

/-- The area of the cells of some matches. -/
def coverArea (pairs : List (Node × Match ℚ)) : ℚ := (pairs.map fun p => p.2.cell.area).sum

/-- The roots that are outputs or have several readers. -/
def boundary {ν : Type} (s : Subject) (pairs : List (Node × Match ν)) : List String :=
  (pairs.map fun p => p.1.output).filter fun x => !s.isAbsorbable x

theorem foldl_area_eq (cells : List (Cell ℚ)) (area : ℚ) :
    cells.foldl (fun a cell => Quantity.add a cell.area) area =
      area + (cells.map Cell.area).sum := by
  induction cells generalizing area with
  | nil => simp
  | cons cell rest ih =>
    rw [List.foldl_cons, ih, List.map_cons, List.sum_cons]
    exact add_assoc area cell.area _

section
variable (hlib : lib.Checked) (hs : s.WellFormed) (h : Tight s lib pairs)
include hlib hs h

/-- What is counted at the leaves with a single reader and on the boundary is counted once at every
root. -/
theorem Tight.sum_absorbed (f : String → ℚ) :
    (pairs.map fun p => ((p.2.absorbed s).map f).sum).sum + ((boundary s pairs).map f).sum =
      (pairs.map fun p => f p.1.output).sum := by
  have habsorbed : (pairs.map fun p => ((p.2.absorbed s).map f).sum).sum =
      (((pairs.map fun p => p.1.output).filter s.isAbsorbable).map f).sum := by
    rw [← ((h.perm_absorbed hlib hs).map f).sum_eq, List.map_flatMap, List.flatMap_def,
      List.sum_flatten, List.map_map]
    rfl
  have hparts := List.filter_append_perm s.isAbsorbable (pairs.map fun p => p.1.output)
  have hsplit := (hparts.map f).sum_eq
  rw [List.map_append, List.sum_append, List.map_map] at hsplit
  rw [habsorbed]
  exact hsplit

/-- The bills of a tight cover are its area and the worths of the roots that are not on its
boundary. -/
theorem Tight.sum_bill (sel : Selection ℚ) :
    (pairs.map fun p => sel.bill s p.2).sum + ((boundary s pairs).map (sel.worth s)).sum =
      coverArea pairs + (pairs.map fun p => sel.worth s p.1.output).sum := by
  rw [← h.sum_absorbed hlib hs (sel.worth s), ← add_assoc, coverArea, ← List.sum_map_add]
  rfl

/-- The boundary of a tight cover is worth no more than its area. -/
theorem Tight.boundary_le (hunit : Quantity.exactTolerance < unit)
    (hgrid : ∀ cell ∈ lib.cells, cell.area ∈ AddSubgroup.zmultiples unit)
    (hsel : sel.Settled s lib .areaOptimal) :
    ((boundary s pairs).map (sel.worth s)).sum ≤ coverArea pairs := by
  have hworth : (pairs.map fun p => sel.worth s p.1.output).sum ≤
      (pairs.map fun p => sel.bill s p.2).sum := by
    refine List.sum_le_sum fun p hp => ?_
    refine hsel.worth_le hlib hs hunit hgrid (h.node p hp) (h.isMatch p hp) ?_
    intro leaf hleaf d hd
    obtain ⟨d, hdnode, hdo, rfl⟩ := driver?_eq_some hd
    obtain ⟨q, hq, rfl⟩ := h.leaves p hp leaf hleaf d hdnode hdo
    exact h.chosen?_isSome hlib hs hsel q hq
  have hbill := h.sum_bill hlib hs sel
  linarith

/-- The boundary of a tight cover of chosen matches is worth its area. -/
theorem Tight.boundary_eq {strategy : Strategy} (hsel : sel.Settled s lib strategy)
    (hchosen : ∀ p ∈ pairs, sel.chosen? p.1.id = some p.2) :
    ((boundary s pairs).map (sel.worth s)).sum = coverArea pairs := by
  have hworth : (pairs.map fun p => sel.worth s p.1.output) =
      pairs.map fun p => sel.bill s p.2 :=
    List.map_congr_left fun p hp => hsel.worth_eq hlib hs (h.node p hp) (hchosen p hp)
  have hbill := h.sum_bill hlib hs sel
  rw [hworth] at hbill
  linarith

end

/-- No match is placed that is not demanded, so what is placed is a tight cover. -/
theorem tight_placements {needed order : List NodeId} (hs : s.WellFormed)
    (horder : s.netlist.topoOrder = .ok order)
    (hneeded : ∀ id, id ∈ needed ↔ s.netlist.Demanded sel.chosen? id)
    (hplaced : Placed s lib (sel.placements s.netlist needed order)) :
    Tight s lib (sel.placements s.netlist needed order) := by
  refine ⟨hplaced, fun p hp => ?_⟩
  obtain ⟨hnode, hdemand, -⟩ := (mem_placements_iff hs horder hneeded).1 hp
  have houtput : ∀ {x}, s.netlist.driver? x = some p.1.id → p.1.output = x := by
    intro x hx
    obtain ⟨d, hd, hdx, hid⟩ := driver?_eq_some hx
    rw [← hs.coherent.eq_of_id hd hnode hid, hdx]
  cases hdemand with
  | output ho hd => exact .inl (houtput hd ▸ ho)
  | leaf hreader hm hleaf hd =>
    obtain ⟨reader, hreadernode, rfl⟩ := hreader.exists_node
    exact .inr ⟨(reader, _),
      (mem_placements_iff hs horder hneeded).2 ⟨hreadernode, hreader, hm⟩, houtput hd ▸ hleaf⟩

/-- Of two covers the first has no more area if it is tight, consists of chosen matches, and lies in
the cone. -/
theorem coverArea_le {kept : List (Node × Match ℚ)} (hlib : lib.Checked) (hs : s.WellFormed)
    (hunit : Quantity.exactTolerance < unit)
    (hgrid : ∀ cell ∈ lib.cells, cell.area ∈ AddSubgroup.zmultiples unit)
    (hnonneg : ∀ cell ∈ lib.cells, cell.area ∈ AddSubmonoid.nonneg ℚ)
    (hsel : sel.Settled s lib .areaOptimal) (hkept : Tight s lib kept)
    (hchosen : ∀ p ∈ kept, sel.chosen? p.1.id = some p.2)
    (hcone : ∀ p ∈ kept, s.netlist.Cone p.1.id) (h : Placed s lib pairs) :
    coverArea kept ≤ coverArea pairs := by
  obtain ⟨tight, hsub, htight⟩ := h.exists_tight
  -- A root on the boundary lies in the cone, so it is a root of every cover.
  have hboundary : boundary s kept ⊆ boundary s tight := by
    intro x hx
    rw [boundary, List.mem_filter, List.mem_map] at hx
    obtain ⟨⟨p, hp, rfl⟩, habsorb⟩ := hx
    obtain ⟨q, hq, hqp⟩ := htight.exists_root hlib hs (hkept.node p hp) (hcone p hp)
      (by simpa using habsorb)
    rw [boundary, List.mem_filter, List.mem_map]
    exact ⟨⟨q, hq, by rw [hqp]⟩, habsorb⟩
  have hnodup : (boundary s kept).Nodup := (hkept.nodup_outputs hs).filter _
  obtain ⟨part, hperm, hpart⟩ := List.subperm_of_subset hnodup hboundary
  have hworth : ∀ a ∈ (boundary s tight).map (sel.worth s), 0 ≤ a := by
    intro a ha
    obtain ⟨x, hx, rfl⟩ := List.mem_map.1 ha
    obtain ⟨p, hp, rfl⟩ := List.mem_map.1 (List.mem_filter.1 hx).1
    exact hsel.worth_mem hlib hs hnonneg p.1 (htight.node p hp)
  have harea : ∀ a ∈ pairs.map (fun p => p.2.cell.area), 0 ≤ a := by
    intro a ha
    obtain ⟨p, hp, rfl⟩ := List.mem_map.1 ha
    exact hnonneg _ (Subject.cell_mem_of_nodeMatches hlib hs (h.node p hp) (h.isMatch p hp))
  calc coverArea kept
      = ((boundary s kept).map (sel.worth s)).sum :=
        (hkept.boundary_eq hlib hs hsel hchosen).symm
    _ = (part.map (sel.worth s)).sum := (hperm.map _).sum_eq.symm
    _ ≤ ((boundary s tight).map (sel.worth s)).sum := (hpart.map _).sum_le_sum hworth
    _ ≤ coverArea tight := htight.boundary_le hlib hs hunit hgrid hsel
    _ ≤ coverArea pairs := (hsub.map _).sum_le_sum harea

end Selection

open Selection in
/-- Mapping for area gives the least area that any cover has. -/
theorem mapOnto_areaOptimal {n : Netlist} {record : LibraryRecord ℚ} {r : Mapping ℚ}
    (hc : n.Coherent) (hlib : Library.ofRecord record = .ok lib)
    (hunit : Quantity.exactTolerance < unit)
    (hgrid : ∀ cell ∈ lib.cells, cell.area ∈ AddSubgroup.zmultiples unit)
    (h : n.mapOnto lib .areaOptimal = .ok r) :
    ∃ s, Subject.ofNetlist n = .ok s ∧
      IsLeast {area | ∃ pairs, Placed s lib pairs ∧ area = coverArea pairs} r.totalArea := by
  have hchecked := Library.checked_of_ofRecord hlib
  have hnonneg : ∀ cell ∈ lib.cells, cell.area ∈ AddSubmonoid.nonneg ℚ := fun cell hcell =>
    (of_decide_eq_true (Library.isPositive_area_of_ofRecord hlib cell hcell)).le
  obtain ⟨s, sel, needed, order, hsubject, hs, hselect, horder, hneeded, hchosen, hnetlist⟩ :=
    mapOnto_eq_ok hc hchecked h
  have hsound := sound_of_select hselect
  have hplaced := placed_placements hs hsound horder hneeded hchosen
  have harea : r.totalArea = coverArea (sel.placements s.netlist needed order) := by
    have htotal := (measures_of_mapOnto h).1
    rw [hnetlist, hplaced.totalArea hchecked hs, foldl_area_eq, List.map_map] at htotal
    rw [← Except.ok.inj htotal]
    exact zero_add _
  refine ⟨s, hsubject, ⟨_, hplaced, harea⟩, ?_⟩
  rintro area ⟨pairs, hpairs, rfl⟩
  rw [harea]
  refine coverArea_le hchecked hs hunit hgrid hnonneg (settled_of_select hchecked hs hselect)
    (tight_placements hs horder hneeded hplaced) (fun p hp => ?_) (fun p hp => ?_) hpairs
  · exact ((mem_placements_iff hs horder hneeded).1 hp).2.2
  · exact cone_of_demanded hchecked hs hsound ((mem_placements_iff hs horder hneeded).1 hp).2.1

namespace Halves

/-- A stored library in which the compound cell is smaller than the two gates that it replaces. -/
def record : LibraryRecord ℚ :=
  ⟨"halves",
    [⟨"INV", "NOT(A)", [⟨"A", .input⟩, ⟨"Y", .output⟩], 1 / 2, .uniform 1⟩,
      ⟨"AND2", "AND(A,B)", [⟨"A", .input⟩, ⟨"B", .input⟩, ⟨"Y", .output⟩], 3 / 2, .uniform 1⟩,
      ⟨"NAND2", "NOT(AND(A,B))", [⟨"A", .input⟩, ⟨"B", .input⟩, ⟨"Y", .output⟩], 1,
        .uniform 1⟩]⟩

/-- The library of the record. -/
def library : Library ℚ :=
  ⟨"halves",
    [⟨"INV", .op .not [.pin "A"], ["A"], "Y", 1 / 2, .uniform 1⟩,
      ⟨"AND2", .op .and [.pin "A", .pin "B"], ["A", "B"], "Y", 3 / 2, .uniform 1⟩,
      ⟨"NAND2", .op .not [.op .and [.pin "A", .pin "B"]], ["A", "B"], "Y", 1, .uniform 1⟩]⟩

/-- An inverter behind an AND gate. -/
def netlist : Netlist where
  name := "t"
  inputs := ["a", "b"]
  outputs := ["y"]
  widths := ⟨[("a", .one), ("b", .one), ("y", .one)]⟩
  arena := [some ⟨⟨0⟩, .op .and, [.plain "a", .plain "b"], "x"⟩,
    some ⟨⟨1⟩, .op .not, [.plain "x"], "y"⟩]
  wires := [⟨"a", ⟨0⟩, 0⟩, ⟨"b", ⟨0⟩, 1⟩, ⟨"x", ⟨1⟩, 0⟩]
  nextFresh := 0

theorem wires_netlist : netlist.wires = netlist.derivedWires := by decide

theorem coherent : netlist.Coherent := by
  refine ⟨fun {i node} h => ?_, by decide, by decide, by decide⟩
  match i, h with
  | 0, h | 1, h =>
    cases h
    rfl

theorem ofRecord_record : Library.ofRecord record = .ok library :=
  show Library.ofRecord library.toRecord = .ok library from
    Library.ofRecord_of_checks (by decide) (by decide) (by norm_num [library, Quantity.isPositive])
      (by decide) (by decide)

theorem area_mem_zmultiples :
    ∀ cell ∈ library.cells, cell.area ∈ AddSubgroup.zmultiples (1 / 2 : ℚ) := by
  simp only [library, List.forall_mem_cons, AddSubgroup.mem_zmultiples_iff]
  exact ⟨⟨1, by norm_num⟩, ⟨3, by norm_num⟩, ⟨2, by norm_num⟩, nofun⟩

end Halves

open Selection in
/-- The compound cell has area 1, and no cover has less. -/
theorem mapOnto_areaOptimal_halves :
    Halves.netlist.Coherent ∧ Library.ofRecord Halves.record = .ok Halves.library ∧
      Quantity.exactTolerance < 1 / 2 ∧
      (∀ cell ∈ Halves.library.cells, cell.area ∈ AddSubgroup.zmultiples (1 / 2 : ℚ)) ∧
      ∃ r, Halves.netlist.mapOnto Halves.library .areaOptimal = .ok r ∧
        ∃ s, Subject.ofNetlist Halves.netlist = .ok s ∧
          IsLeast {area | ∃ pairs, Placed s Halves.library pairs ∧ area = coverArea pairs} 1 := by
  have hunit : Quantity.exactTolerance < 1 / 2 := by norm_num [Quantity.exactTolerance]
  have hmap : (Halves.netlist.mapOnto Halves.library .areaOptimal).map Mapping.totalArea =
      .ok 1 := by
    simp only [Netlist.mapOnto, Subject.ofNetlist_of_derived Halves.wires_netlist,
      Selection.extract, Selection.assemble_eq]
    decide +kernel
  refine ⟨Halves.coherent, Halves.ofRecord_record, hunit, Halves.area_mem_zmultiples, ?_⟩
  cases hr : Halves.netlist.mapOnto Halves.library .areaOptimal with
  | ok r =>
    rw [hr] at hmap
    obtain ⟨s, hsubject, hleast⟩ := mapOnto_areaOptimal Halves.coherent Halves.ofRecord_record hunit
      Halves.area_mem_zmultiples hr
    rw [show r.totalArea = 1 from Except.ok.inj hmap] at hleast
    exact ⟨r, rfl, s, hsubject, hleast⟩
  | error e =>
    rw [hr] at hmap
    cases hmap

end GateSynth
