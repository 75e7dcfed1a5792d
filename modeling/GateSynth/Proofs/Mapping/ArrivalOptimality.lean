import GateSynth.Proofs.Mapping.AreaOptimality
import GateSynth.Proofs.Mapping.Arrivals

/-!
# Optimality of arrival times

What `delayOptimal` finds for a signal is no later than any match of its driver puts it out, if the
leaves of the match arrive when the selection says (`Settled.arrival_le`). A match puts out its
signal no later if its leaves arrive no later, so from the inputs up the selection is never later
than a cover (`Settled.arrival_le_of_timed`), however the matches of the cover share their leaves.
The mapping arrives when its selection says, hence no later than any cover
(`mapOnto_delayOptimal`).
-/

namespace GateSynth

open Netlist

variable {lib : Library ℚ} {s : Subject} {unit : ℚ}

/-! ## The latest of some times -/

theorem Quantity.max_eq (a b : ℚ) : Quantity.max a b = Max.max a b := (max_def_lt a b).symm

namespace Library

theorem latestOf_le_latestOf {times times' : List ℚ} (h : List.Forall₂ (· ≤ ·) times times') :
    latestOf times ≤ latestOf times' := by
  suffices hfold : ∀ a b : ℚ, a ≤ b → times.foldl Quantity.max a ≤ times'.foldl Quantity.max b from
    hfold _ _ le_rfl
  induction h with
  | nil => exact fun a b hab => hab
  | cons hle _ ih =>
    intro a b hab
    refine ih _ _ ?_
    rw [Quantity.max_eq, Quantity.max_eq]
    exact max_le_max hab hle

theorem latestOf_map_le {α : Type} {xs : List α} {f g : α → ℚ} (h : ∀ x ∈ xs, f x ≤ g x) :
    latestOf (xs.map f) ≤ latestOf (xs.map g) := by
  apply latestOf_le_latestOf
  rw [List.forall₂_map_left_iff, List.forall₂_map_right_iff, List.forall₂_same]
  exact h

/-- The latest of some times is zero or one of them. -/
theorem latestOf_mem {M : AddSubgroup ℚ} {times : List ℚ} (h : ∀ t ∈ times, t ∈ M) :
    latestOf times ∈ M := by
  suffices hfold : ∀ a ∈ M, times.foldl Quantity.max a ∈ M from hfold _ (zero_mem M)
  induction times with
  | nil => exact fun a ha => ha
  | cons t rest ih =>
    rw [List.forall_mem_cons] at h
    intro a ha
    refine ih h.2 _ ?_
    rw [Quantity.max_eq]
    rcases max_choice a t with hmax | hmax
    · rwa [hmax]
    · rw [hmax]
      exact h.1

end Library

/-- A match puts out its signal no later if its leaves arrive no later. -/
theorem Match.arrival_le_arrival {m : Match ℚ} {time time' : String → ℚ}
    (h : ∀ leaf ∈ m.leaves, time leaf ≤ time' leaf) : m.arrival time ≤ m.arrival time' :=
  Library.latestOf_map_le fun _ hp =>
    add_le_add_left (h _ (List.of_mem_zip hp).2) _

/-- The delays of a cell are multiples of a unit. -/
def Cell.OnGrid (unit : ℚ) (cell : Cell ℚ) : Prop :=
  ∀ pin delay, cell.delay? pin = some delay → delay ∈ AddSubgroup.zmultiples unit

/-- A cell is on the grid if the delays that it stores are. -/
theorem Cell.onGrid_of_delay {cell : Cell ℚ} (h : match cell.delay with
    | .uniform delay => delay ∈ AddSubgroup.zmultiples unit
    | .perPin delays => ∀ e ∈ delays.entries, e.2 ∈ AddSubgroup.zmultiples unit) :
    cell.OnGrid unit := by
  intro pin delay hdelay
  rw [delay?] at hdelay
  split at hdelay
  · split at hdelay
    · next d hcell =>
      cases hdelay
      rwa [hcell] at h
    · next delays hcell =>
      rw [hcell] at h
      exact h (pin, delay) (Table.mem_entries_of_find? hdelay)
  · cases hdelay

/-- A match puts out its signal at a multiple of the unit if its leaves arrive at such times. -/
theorem Match.arrival_mem {m : Match ℚ} {time : String → ℚ} (hcell : m.cell.OnGrid unit)
    (h : ∀ leaf ∈ m.leaves, time leaf ∈ AddSubgroup.zmultiples unit) :
    m.arrival time ∈ AddSubgroup.zmultiples unit := by
  refine Library.latestOf_mem fun t ht => ?_
  obtain ⟨⟨pin, leaf⟩, hp, rfl⟩ := List.mem_map.1 ht
  refine add_mem (h leaf (List.of_mem_zip hp).2) ?_
  cases hdelay : m.cell.delay? pin with
  | none => exact zero_mem _
  | some delay => exact hcell pin delay hdelay

namespace Selection

variable {sel : Selection ℚ} {node : Node} {m : Match ℚ} {pairs : List (Node × Match ℚ)}
  {time : String → ℚ}

section
variable (hlib : lib.Checked) (hs : s.WellFormed) (hgrid : ∀ cell ∈ lib.cells, cell.OnGrid unit)
include hlib hs hgrid

theorem match_arrival_mem (hnode : node ∈ s.netlist.nodes) (hm : m ∈ s.nodeMatches lib node)
    (hleaves : ∀ leaf ∈ m.leaves, ∀ d ∈ s.netlist.nodes, d.output = leaf →
      sel.arrival s d.output ∈ AddSubgroup.zmultiples unit) :
    m.arrival (sel.arrival s) ∈ AddSubgroup.zmultiples unit := by
  refine Match.arrival_mem (hgrid _ (Subject.cell_mem_of_nodeMatches hlib hs hnode hm))
    fun leaf hleaf => ?_
  cases hd : s.netlist.driver? leaf with
  | none =>
    rw [arrival_of_undriven hd]
    exact zero_mem _
  | some id =>
    obtain ⟨d, hdnode, rfl, -⟩ := driver?_eq_some hd
    exact hleaves _ hleaf d hdnode rfl

/-- The selection finds multiples of the unit. -/
theorem Settled.arrival_mem {strategy : Strategy} (h : sel.Settled s lib strategy) :
    ∀ node ∈ s.netlist.nodes, sel.arrival s node.output ∈ AddSubgroup.zmultiples unit := by
  refine hs.leaves_induction hlib fun node hnode ih => ?_
  cases hm : sel.chosen? node.id with
  | none =>
    rw [arrival_of_none hs hnode hm]
    exact zero_mem _
  | some m =>
    rw [h.arrival_eq hs hnode hm]
    obtain ⟨choice, hchoice, rfl⟩ := Option.map_eq_some_iff.1 hm
    obtain ⟨hmatch, -⟩ := h.choice hnode hchoice
    exact match_arrival_mem hlib hs hgrid hnode hmatch (ih _ hmatch)

/-- A signal is found to arrive no later than any usable match of its driver puts it out. -/
theorem Settled.arrival_le (hunit : Quantity.exactTolerance < unit)
    (h : sel.Settled s lib .delayOptimal) (hnode : node ∈ s.netlist.nodes)
    (hm : m ∈ s.nodeMatches lib node) (hleaves : ∀ leaf ∈ m.leaves, ∀ d,
      s.netlist.driver? leaf = some d → (sel.chosen? d).isSome) :
    sel.arrival s node.output ≤ m.arrival (sel.arrival s) := by
  obtain ⟨cost, hcost⟩ := (costOf_isOk_iff_of_nodeMatches hlib hs hnode hm).2 hleaves
  have hkey : ∀ m ∈ s.nodeMatches lib node, ∀ cost, sel.costOf s m = .ok cost →
      cost.arrival ∈ AddSubgroup.zmultiples unit := by
    intro m hm cost hcost
    rw [arrival_of_costOf hcost]
    exact match_arrival_mem hlib hs hgrid hnode hm fun _ _ d hd _ =>
      h.arrival_mem hlib hs hgrid d hd
  obtain ⟨choice, hchoice, hle⟩ := h.key_le hunit hnode hkey hm hcost
  rw [arrival_of_best hs hnode hchoice, ← arrival_of_costOf hcost]
  exact hle

/-- No output of a cover arrives before the time that the selection has found for it. -/
theorem Settled.arrival_le_of_timed (hunit : Quantity.exactTolerance < unit)
    (hsel : sel.Settled s lib .delayOptimal) (h : Placed s lib pairs) (ht : Timed s pairs time)
    {x : String} (hx : x ∈ s.netlist.outputs) : sel.arrival s x ≤ time x := by
  refine h.roots_induction (R := (· ≤ ·)) hlib hs le_rfl (fun _ => arrival_of_undriven) ht.undriven
    (fun p hp hleaves => ?_) x (h.outputs x hx)
  have husable : ∀ leaf ∈ p.2.leaves, ∀ d, s.netlist.driver? leaf = some d →
      (sel.chosen? d).isSome := by
    intro leaf hleaf d hd
    obtain ⟨d, hdnode, hdo, rfl⟩ := driver?_eq_some hd
    obtain ⟨q, hq, rfl⟩ := h.leaves p hp leaf hleaf d hdnode hdo
    exact h.chosen?_isSome hlib hs hsel q hq
  calc sel.arrival s p.1.output
      ≤ p.2.arrival (sel.arrival s) :=
        hsel.arrival_le hlib hs hgrid hunit (h.node p hp) (h.isMatch p hp) husable
    _ ≤ p.2.arrival time := Match.arrival_le_arrival hleaves
    _ = time p.1.output := (ht.root p hp).symm

end

end Selection

open Selection in
/-- Mapping for delay gives the least critical arrival that any cover has, so no later one than
mapping for area. Every cover has its times. -/
theorem mapOnto_delayOptimal {n : Netlist} {r : Mapping ℚ} (hc : n.Coherent) (hlib : lib.Checked)
    (hunit : Quantity.exactTolerance < unit) (hgrid : ∀ cell ∈ lib.cells, cell.OnGrid unit)
    (h : n.mapOnto lib .delayOptimal = .ok r) :
    ∃ s, Subject.ofNetlist n = .ok s ∧
      (∀ pairs, Placed s lib pairs → ∃ time, Timed s pairs time) ∧
      IsLeast {t | ∃ pairs time, Placed s lib pairs ∧ Timed s pairs time ∧
        t = Library.latestOf (s.netlist.outputs.map time)} r.criticalArrival ∧
      ∀ q, n.mapOnto lib .areaOptimal = .ok q → r.criticalArrival ≤ q.criticalArrival := by
  obtain ⟨s, sel, needed, order, hsubject, hs, hselect, horder, hneeded, hchosen, hnetlist⟩ :=
    mapOnto_eq_ok hc hlib h
  have hsel := settled_of_select hlib hs hselect
  have hplaced := placed_placements hs (sound_of_select hselect) horder hneeded hchosen
  obtain ⟨htimed, hcritical⟩ := criticalArrival_of_mapOnto hlib hs hsel hplaced h hnetlist
  have hleast : ∀ pairs time, Placed s lib pairs → Timed s pairs time →
      r.criticalArrival ≤ Library.latestOf (s.netlist.outputs.map time) := by
    intro pairs time hpairs htime
    rw [hcritical]
    exact Library.latestOf_map_le fun x hx =>
      hsel.arrival_le_of_timed hlib hs hgrid hunit hpairs htime hx
  refine ⟨s, hsubject, fun pairs hpairs => ?_, ⟨⟨_, _, hplaced, htimed, hcritical⟩, ?_⟩,
    fun q hq => ?_⟩
  · obtain ⟨arrivals, harrivals⟩ := hpairs.arrivals_isOk hlib hs
    exact ⟨_, hpairs.timed_of_arrivals hlib hs harrivals⟩
  · rintro t ⟨pairs, time, hpairs, htime, rfl⟩
    exact hleast pairs time hpairs htime
  · obtain ⟨s', sel', needed', order', hsubject', -, hselect', horder', hneeded', hchosen',
      hnetlist'⟩ := mapOnto_eq_ok hc hlib hq
    cases hsubject.symm.trans hsubject'
    have hplaced' := placed_placements hs (sound_of_select hselect') horder' hneeded' hchosen'
    obtain ⟨htimed', hcritical'⟩ := criticalArrival_of_mapOnto hlib hs
      (settled_of_select hlib hs hselect') hplaced' hq hnetlist'
    rw [hcritical']
    exact hleast _ _ hplaced' htimed'

namespace Halves

/-- A stored library in which the compound cell is smaller but slower than the two gates that it
replaces. -/
def slowRecord : LibraryRecord ℚ :=
  ⟨"slow",
    [⟨"INV", "NOT(A)", [⟨"A", .input⟩, ⟨"Y", .output⟩], 1, .uniform (1 / 2)⟩,
      ⟨"AND2", "AND(A,B)", [⟨"A", .input⟩, ⟨"B", .input⟩, ⟨"Y", .output⟩], 1, .uniform 1⟩,
      ⟨"NAND2", "NOT(AND(A,B))", [⟨"A", .input⟩, ⟨"B", .input⟩, ⟨"Y", .output⟩], 1,
        .perPin ⟨[("A", 3), ("B", 1)]⟩⟩]⟩

/-- The library of the record. -/
def slowLibrary : Library ℚ :=
  ⟨"slow",
    [⟨"INV", .op .not [.pin "A"], ["A"], "Y", 1, .uniform (1 / 2)⟩,
      ⟨"AND2", .op .and [.pin "A", .pin "B"], ["A", "B"], "Y", 1, .uniform 1⟩,
      ⟨"NAND2", .op .not [.op .and [.pin "A", .pin "B"]], ["A", "B"], "Y", 1,
        .perPin ⟨[("A", 3), ("B", 1)]⟩⟩]⟩

theorem ofRecord_slowRecord : Library.ofRecord slowRecord = .ok slowLibrary := by
  have hinverter : Cell.checkDelays "INV" ["A"] (.uniform (1 / 2 : ℚ)) = .ok () := by
    norm_num [Cell.checkDelays, Cell.checkDelay, Quantity.isNonNegative]
  have hdelays : ∀ cell ∈ slowLibrary.cells,
      Cell.checkDelays cell.name cell.inputs cell.delay = .ok () :=
    List.forall_mem_cons.2 ⟨hinverter, by decide⟩
  have hareas : ∀ cell ∈ slowLibrary.cells, Quantity.isPositive cell.area = true := by decide
  show Library.ofRecord slowLibrary.toRecord = .ok slowLibrary
  exact Library.ofRecord_of_checks (by decide) (by decide) hareas hdelays (by decide)

theorem onGrid_slowLibrary : ∀ cell ∈ slowLibrary.cells, cell.OnGrid (1 / 2) := by
  have hhalf : (1 / 2 : ℚ) ∈ AddSubgroup.zmultiples (1 / 2 : ℚ) := AddSubgroup.mem_zmultiples _
  have hone : (1 : ℚ) ∈ AddSubgroup.zmultiples (1 / 2 : ℚ) := ⟨2, by norm_num⟩
  have hthree : (3 : ℚ) ∈ AddSubgroup.zmultiples (1 / 2 : ℚ) := ⟨6, by norm_num⟩
  simp only [slowLibrary, List.forall_mem_cons]
  refine ⟨Cell.onGrid_of_delay hhalf, Cell.onGrid_of_delay hone, Cell.onGrid_of_delay ?_, nofun⟩
  simp only [List.forall_mem_cons]
  exact ⟨hthree, hone, nofun⟩

end Halves

open Selection in
/-- The two gates take 3/2, the compound cell 3. -/
theorem mapOnto_delayOptimal_halves :
    Halves.netlist.Coherent ∧ Halves.slowLibrary.Checked ∧ Quantity.exactTolerance < 1 / 2 ∧
      (∀ cell ∈ Halves.slowLibrary.cells, cell.OnGrid (1 / 2)) ∧
      ∃ r q, Halves.netlist.mapOnto Halves.slowLibrary .delayOptimal = .ok r ∧
        Halves.netlist.mapOnto Halves.slowLibrary .areaOptimal = .ok q ∧
        r.criticalArrival = 3 / 2 ∧ q.criticalArrival = 3 ∧
        ∃ s, Subject.ofNetlist Halves.netlist = .ok s ∧
          IsLeast {t | ∃ pairs time, Placed s Halves.slowLibrary pairs ∧ Timed s pairs time ∧
            t = Library.latestOf (s.netlist.outputs.map time)} (3 / 2) := by
  have hchecked := Library.checked_of_ofRecord Halves.ofRecord_slowRecord
  have hunit : Quantity.exactTolerance < 1 / 2 := by norm_num [Quantity.exactTolerance]
  have hdelay : (Halves.netlist.mapOnto Halves.slowLibrary .delayOptimal).map
      Mapping.criticalArrival = .ok (3 / 2) := by
    simp only [Netlist.mapOnto, Subject.ofNetlist_of_derived Halves.wires_netlist,
      Selection.extract, Selection.assemble_eq]
    decide +kernel
  have harea : (Halves.netlist.mapOnto Halves.slowLibrary .areaOptimal).map
      Mapping.criticalArrival = .ok 3 := by
    simp only [Netlist.mapOnto, Subject.ofNetlist_of_derived Halves.wires_netlist,
      Selection.extract, Selection.assemble_eq]
    decide +kernel
  cases hr : Halves.netlist.mapOnto Halves.slowLibrary .delayOptimal with
  | error e =>
    rw [hr] at hdelay
    cases hdelay
  | ok r =>
    cases hq : Halves.netlist.mapOnto Halves.slowLibrary .areaOptimal with
    | error e =>
      rw [hq] at harea
      cases harea
    | ok q =>
      rw [hr] at hdelay
      rw [hq] at harea
      obtain ⟨s, hsubject, -, hleast, -⟩ := mapOnto_delayOptimal Halves.coherent hchecked hunit
        Halves.onGrid_slowLibrary hr
      rw [show r.criticalArrival = 3 / 2 from Except.ok.inj hdelay] at hleast
      exact ⟨Halves.coherent, hchecked, hunit, Halves.onGrid_slowLibrary, r, q, rfl, rfl,
        Except.ok.inj hdelay, Except.ok.inj harea, s, hsubject, hleast⟩

end GateSynth
