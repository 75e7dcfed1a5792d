import GateSynth.Proofs.Mapping.Outcomes

/-!
# Arrival times of covers

When a signal arrives is fixed by the cover alone: undriven signals arrive at zero, and the root of
a match arrives when the latest of its leaves has come through its pin (`Timed`). Such times are
unique (`Timed.eq_at_output`). The times that are measured on the netlist
of a cover are of this kind (`Placed.timed_of_arrivals`), and so are those that the selection has
found for its choices (`Settled.timed`). So what is measured after mapping is what was selected.
-/

namespace GateSynth

open Netlist

variable {ν : Type} [Quantity ν] {lib : Library ν} {s : Subject}

/-- The time at which a match puts out its signal, by the times of its leaves. -/
def Match.arrival (m : Match ν) (time : String → ν) : ν :=
  Library.latestOf (m.pins.map fun (pin, leaf) =>
    Quantity.add (time leaf) ((m.cell.delay? pin).getD Quantity.zero))

theorem Match.arrival_congr {m : Match ν} {time time' : String → ν}
    (h : ∀ leaf ∈ m.leaves, time leaf = time' leaf) : m.arrival time = m.arrival time' := by
  rw [arrival, arrival]
  congr 1
  refine List.map_congr_left fun ⟨pin, leaf⟩ hp => ?_
  dsimp only
  rw [h leaf (List.of_mem_zip hp).2]

/-! ## Measured times -/

namespace Library

variable {n : Netlist} {order : List NodeId} {arrivals arrivals' : Arrivals ν} {x : String}

theorem arrivalsAlong_append {before after : List NodeId}
    (h : lib.arrivalsAlong n (before ++ after) arrivals = .ok arrivals') :
    ∃ middle, lib.arrivalsAlong n before arrivals = .ok middle ∧
      lib.arrivalsAlong n after middle = .ok arrivals' := by
  induction before generalizing arrivals with
  | nil => exact ⟨arrivals, rfl, h⟩
  | cons id before ih =>
    rw [List.cons_append, arrivalsAlong] at h
    rw [arrivalsAlong]
    split at h
    · next hnone => exact ih h
    · next node hnode =>
      obtain ⟨cell, hcell, h⟩ := ok_of_bind h
      simp only [hcell, bind, Except.bind]
      exact ih h

/-- A signal keeps its time while other signals get theirs. -/
theorem find?_arrivalsAlong (h : lib.arrivalsAlong n order arrivals = .ok arrivals')
    (hx : ∀ id ∈ order, ∀ node, n.node? id = some node → node.output ≠ x) :
    arrivals'.find? x = arrivals.find? x := by
  induction order generalizing arrivals with
  | nil =>
    cases h
    rfl
  | cons id rest ih =>
    rw [List.forall_mem_cons] at hx
    rw [arrivalsAlong] at h
    split at h
    · exact ih h hx.2
    · next node hnode =>
      obtain ⟨cell, -, h⟩ := ok_of_bind h
      rw [ih h hx.2, Table.find?_insert, if_neg (hx.1 node hnode).symm]

theorem outputArrival_congr {cell : Cell ν} {fanins : List Fanin}
    (h : ∀ f ∈ fanins, arrivals.find? f.signal = arrivals'.find? f.signal) :
    outputArrival cell arrivals fanins = outputArrival cell arrivals' fanins := by
  rw [outputArrival, outputArrival]
  congr 1
  refine List.map_congr_left fun ⟨pin, f⟩ hp => ?_
  dsimp only
  rw [h f (List.of_mem_zip hp).2]

section
variable (hc : n.Coherent) (h : lib.arrivals n = .ok arrivals)
include hc h

/-- A primary input arrives at zero; no other undriven signal has a time. -/
theorem find?_arrivals_of_undriven (hx : n.driver? x = none) :
    arrivals.find? x = if x ∈ n.inputs then some Quantity.zero else none := by
  obtain ⟨order, -, h⟩ := ok_of_bind h
  have hkeep : arrivals.find? x = (Table.ofList (n.inputs.map fun i => (i, Quantity.zero))).find? x :=
    find?_arrivalsAlong h fun id _ node hnode =>
      driver?_eq_none_iff.1 hx node (hc.node?_eq_some_iff.1 hnode).1
  rw [hkeep]
  split
  · next hinput =>
    refine Table.find?_ofList (List.mem_map_of_mem hinput) fun other hmem => ?_
    obtain ⟨i, -, hi⟩ := List.mem_map.1 hmem
    exact (Prod.ext_iff.1 hi).2.symm
  · next hinput =>
    rw [Table.find?_eq_none_iff, Table.mem_keys_ofList, List.map_map]
    simpa using hinput

/-- The output of an instance arrives when the latest of its fanins has come through its pin. -/
theorem find?_arrivals_output (hout : (n.nodes.map Node.output).Nodup) {k : Node}
    (hk : k ∈ n.nodes) : ∃ cell, lib.instanceCell k = .ok cell ∧
      arrivals.find? k.output = some (outputArrival cell arrivals k.fanins) := by
  obtain ⟨order, horder, h⟩ := ok_of_bind h
  have horder := ok_of_mapError horder
  have hmem : k.id ∈ order :=
    (hc.perm_of_topoOrder horder).mem_iff.2 (List.mem_map_of_mem hk)
  obtain ⟨before, after, hsplit⟩ := List.append_of_mem hmem
  have hnodup := hc.nodup_of_topoOrder horder
  rw [hsplit, List.nodup_append, List.nodup_cons] at hnodup
  obtain ⟨-, ⟨hafter, -⟩, hdisjoint⟩ := hnodup
  rw [hsplit] at h
  obtain ⟨early, -, hlate⟩ := arrivalsAlong_append h
  have hstep := hlate
  rw [arrivalsAlong, hc.node?_of_mem hk] at hstep
  obtain ⟨cell, hcell, hstep⟩ := ok_of_bind hstep
  refine ⟨cell, hcell, ?_⟩
  -- Nothing later drives the output, and its drivers have been treated before.
  have hkeep : arrivals.find? k.output = some (outputArrival cell early k.fanins) := by
    rw [find?_arrivalsAlong hstep fun id hid node hnode ho => ?_, Table.find?_insert_self]
    obtain ⟨hmem, rfl⟩ := hc.node?_eq_some_iff.1 hnode
    rw [List.inj_on_of_nodup_map hout hmem hk ho] at hid
    exact hafter hid
  rw [hkeep]
  congr 1
  refine outputArrival_congr fun f hf => (find?_arrivalsAlong hlate fun id hid node hnode ho => ?_).symm
  obtain ⟨hmem, rfl⟩ := hc.node?_eq_some_iff.1 hnode
  have hdriver := ho ▸ driver?_of_mem hout hmem
  have hbefore := hc.driversFirst_of_topoOrder horder _ _ _ hsplit k hk rfl f hf _ hdriver
  exact hdisjoint _ hbefore _ hid rfl

end

end Library

namespace Selection

variable {sel : Selection ν} {pairs : List (Node × Match ν)} {time time' : String → ν}

/-! ## The times of a cover -/

/-- The times at which the signals of a cover arrive. -/
structure Timed (s : Subject) (pairs : List (Node × Match ν)) (time : String → ν) : Prop where
  undriven : ∀ x, s.netlist.driver? x = none → time x = Quantity.zero
  root : ∀ p ∈ pairs, time p.1.output = p.2.arrival time

section
variable (hlib : lib.Checked) (hs : s.WellFormed) (h : Placed s lib pairs)
include hlib hs h

/-- Where two assignments of times stand in a relation that matches pass on to their roots, they do
so at every root. -/
theorem Placed.roots_induction {R : ν → ν → Prop} (hzero : R Quantity.zero Quantity.zero)
    (ht : ∀ x, s.netlist.driver? x = none → time x = Quantity.zero)
    (ht' : ∀ x, s.netlist.driver? x = none → time' x = Quantity.zero)
    (hstep : ∀ p ∈ pairs, (∀ leaf ∈ p.2.leaves, R (time leaf) (time' leaf)) →
      R (time p.1.output) (time' p.1.output)) :
    ∀ x, (∀ d ∈ s.netlist.nodes, d.output = x → ∃ p ∈ pairs, p.1 = d) → R (time x) (time' x) := by
  have hroots : ∀ node ∈ s.netlist.nodes, ∀ p ∈ pairs, p.1 = node →
      R (time node.output) (time' node.output) := by
    refine hs.leaves_induction hlib fun node hnode ih p hp hpn => ?_
    subst hpn
    refine hstep p hp fun leaf hleaf => ?_
    cases hd : s.netlist.driver? leaf with
    | none =>
      rw [ht leaf hd, ht' leaf hd]
      exact hzero
    | some id =>
      obtain ⟨d, hdnode, rfl, -⟩ := driver?_eq_some hd
      obtain ⟨q, hq, hqd⟩ := h.leaves p hp d.output hleaf d hdnode rfl
      exact ih p.2 (h.isMatch p hp) d.output hleaf d hdnode rfl q hq hqd
  intro x hx
  cases hd : s.netlist.driver? x with
  | none =>
    rw [ht x hd, ht' x hd]
    exact hzero
  | some id =>
    obtain ⟨d, hdnode, rfl, -⟩ := driver?_eq_some hd
    obtain ⟨p, hp, hpd⟩ := hx d hdnode rfl
    exact hroots d hdnode p hp hpd

/-- The times of a cover are unique at the outputs. -/
theorem Timed.eq_at_output (ht : Timed s pairs time) (ht' : Timed s pairs time') {x : String}
    (hx : x ∈ s.netlist.outputs) : time x = time' x := by
  refine h.roots_induction hlib hs rfl ht.undriven ht'.undriven (fun p hp hleaves => ?_) x
    (h.outputs x hx)
  rw [ht.root p hp, ht'.root p hp]
  exact Match.arrival_congr hleaves

/-- The times measured on the netlist of a cover are those of the cover. -/
theorem Placed.timed_of_arrivals {arrivals : Arrivals ν}
    (harrivals : lib.arrivals (assembled s.netlist pairs) = .ok arrivals) :
    Timed s pairs fun x => (arrivals.find? x).getD Quantity.zero := by
  have hc := coherent_assembled hs pairs
  constructor
  · intro x hx
    have hundriven : (assembled s.netlist pairs).driver? x = none := by
      refine driver?_eq_none_iff.2 fun k hk => ?_
      obtain ⟨p, hp, place, rfl⟩ := mem_nodes_assembled hk
      exact driver?_eq_none_iff.1 hx p.1 (h.node p hp)
    rw [Library.find?_arrivals_of_undriven hc harrivals hundriven]
    split <;> rfl
  · intro p hp
    obtain ⟨place, hplace, hget⟩ := List.getElem_of_mem hp
    have hk : instanceAt place p ∈ (assembled s.netlist pairs).nodes := by
      rw [nodes_assembled]
      exact List.mem_mapIdx.2 ⟨place, hplace, by rw [hget]⟩
    obtain ⟨cell, hcell, htime⟩ :=
      Library.find?_arrivals_output hc harrivals (h.legal_assembled hlib hs).single hk
    rw [h.instanceCell hlib hs hp place] at hcell
    cases hcell
    have hout : (instanceAt place p).output = p.1.output := rfl
    rw [hout] at htime
    rw [htime, Option.getD_some, Library.outputArrival, instanceAt, List.zip_map_right, List.map_map]
    rfl

/-- The critical arrival of the netlist of a cover is the latest time of an output. -/
theorem Placed.criticalArrival_eq {arrivals : Arrivals ν}
    (harrivals : lib.arrivals (assembled s.netlist pairs) = .ok arrivals)
    (ht : Timed s pairs time) :
    Library.criticalArrival (assembled s.netlist pairs) arrivals =
      Library.latestOf (s.netlist.outputs.map time) := by
  have hc := coherent_assembled hs pairs
  have hl := h.legal_assembled hlib hs
  have hfind : ∀ o ∈ s.netlist.outputs, arrivals.find? o = some (time o) := by
    intro o ho
    obtain ⟨t, hfound⟩ : ∃ t, arrivals.find? o = some t := by
      cases hd : (assembled s.netlist pairs).driver? o with
      | none =>
        have hinput : o ∈ (assembled s.netlist pairs).inputs :=
          (isDefined_iff.1 (hl.driven o ho)).resolve_left fun ⟨k, hk, hko⟩ =>
            driver?_eq_none_iff.1 hd k hk hko
        exact ⟨_, (Library.find?_arrivals_of_undriven hc harrivals hd).trans (if_pos hinput)⟩
      | some id =>
        obtain ⟨k, hk, rfl, -⟩ := driver?_eq_some hd
        obtain ⟨cell, -, htime⟩ := Library.find?_arrivals_output hc harrivals hl.single hk
        exact ⟨_, htime⟩
    have heq := (h.timed_of_arrivals hlib hs harrivals).eq_at_output hlib hs h ht ho
    rw [hfound, Option.getD_some] at heq
    rw [hfound, heq]
  rw [Library.criticalArrival]
  congr 1
  show s.netlist.outputs.filterMap arrivals.find? = _
  rw [← List.filterMap_eq_map]
  exact List.filterMap_congr hfind

end

/-! ## The times of the selection -/

/-- The time of what is selected for a signal. -/
def arrival (sel : Selection ν) (s : Subject) (x : String) : ν :=
  match sel.leafCost s x with
  | .ok cost => cost.arrival
  | .error _ => Quantity.zero

theorem latest_eq (cell : Cell ν) (costs : List (String × String × Cost ν)) (time : ν) :
    latest cell costs time = (costs.map fun c => Quantity.add c.2.2.arrival
      ((cell.delay? c.1).getD Quantity.zero)).foldl Quantity.max time := by
  induction costs generalizing time with
  | nil => rfl
  | cons c rest ih =>
    rw [latest, ih]
    rfl

/-- The time in the cost of a match is that of the match. -/
theorem arrival_of_costOf {m : Match ν} {cost : Cost ν} (h : sel.costOf s m = .ok cost) :
    cost.arrival = m.arrival (sel.arrival s) := by
  rw [costOf] at h
  split at h
  · next costs hcosts =>
    cases h
    show latest m.cell costs Quantity.zero = _
    rw [latest_eq, Match.arrival, Library.latestOf]
    congr 1
    rw [← List.forall₂_eq_eq_eq, List.forall₂_map_left_iff, List.forall₂_map_right_iff]
    refine (leafCosts_eq_ok hcosts).flip.imp fun c p hc => ?_
    obtain ⟨hpin, -, hleaf⟩ := hc
    simp only [arrival, hleaf, hpin]
  · cases h

theorem arrival_of_undriven {x : String} (h : s.netlist.driver? x = none) :
    sel.arrival s x = Quantity.zero := by
  simp only [arrival, leafCost, h]
  rfl

theorem arrival_of_best (hs : s.WellFormed) {node : Node} (hnode : node ∈ s.netlist.nodes)
    {choice : Choice ν} (h : sel.best.find? node.id = some choice) :
    sel.arrival s node.output = choice.cost.arrival := by
  simp only [arrival, leafCost, hs.driver?_output hnode, cost?, h, Option.map_some]

theorem arrival_of_none (hs : s.WellFormed) {node : Node} (hnode : node ∈ s.netlist.nodes)
    (h : sel.chosen? node.id = none) : sel.arrival s node.output = Quantity.zero := by
  rw [chosen?, Option.map_eq_none_iff] at h
  simp only [arrival, leafCost, hs.driver?_output hnode, cost?, h, Option.map_none]

/-- The signal of a node arrives when the match that is chosen for it puts it out. -/
theorem Settled.arrival_eq {strategy : Strategy} (h : sel.Settled s lib strategy)
    (hs : s.WellFormed) {node : Node} (hnode : node ∈ s.netlist.nodes) {m : Match ν}
    (hm : sel.chosen? node.id = some m) : sel.arrival s node.output = m.arrival (sel.arrival s) := by
  obtain ⟨choice, hchoice, rfl⟩ := Option.map_eq_some_iff.1 hm
  rw [arrival_of_best hs hnode hchoice]
  exact arrival_of_costOf (h.choice hnode hchoice).2

/-- The times that the selection has found are those of a cover of choices. -/
theorem Settled.timed {strategy : Strategy} (h : sel.Settled s lib strategy) (hs : s.WellFormed)
    (hnode : ∀ p ∈ pairs, p.1 ∈ s.netlist.nodes)
    (hchosen : ∀ p ∈ pairs, sel.chosen? p.1.id = some p.2) : Timed s pairs (sel.arrival s) :=
  ⟨fun _ hx => arrival_of_undriven hx, fun p hp => h.arrival_eq hs (hnode p hp) (hchosen p hp)⟩

/-- The critical arrival of a mapping is the latest time that the selection has found for an
output. -/
theorem criticalArrival_of_mapOnto {n : Netlist} {strategy : Strategy} {r : Mapping ν}
    {needed order : List NodeId} (hlib : lib.Checked) (hs : s.WellFormed)
    (hsel : sel.Settled s lib strategy)
    (hplaced : Placed s lib (sel.placements s.netlist needed order))
    (h : n.mapOnto lib strategy = .ok r)
    (hnetlist : r.netlist = assembled s.netlist (sel.placements s.netlist needed order)) :
    Timed s (sel.placements s.netlist needed order) (sel.arrival s) ∧
      r.criticalArrival = Library.latestOf (s.netlist.outputs.map (sel.arrival s)) := by
  have htimed : Timed s (sel.placements s.netlist needed order) (sel.arrival s) := by
    refine hsel.timed hs hplaced.node fun p hp => ?_
    obtain ⟨id, -, -, hnode, hm⟩ := mem_placements.1 hp
    rw [(hs.coherent.node?_eq_some_iff.1 hnode).2]
    exact hm
  obtain ⟨-, ⟨arrivals, harrivals, hcritical⟩, -⟩ := measures_of_mapOnto h
  rw [hnetlist] at harrivals hcritical
  exact ⟨htimed, hcritical.trans (hplaced.criticalArrival_eq hlib hs harrivals htimed)⟩

end Selection

end GateSynth
