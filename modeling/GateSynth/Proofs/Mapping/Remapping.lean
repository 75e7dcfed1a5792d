import GateSynth.Proofs.Mapping.Correctness
import GateSynth.Proofs.Mapping.Outcomes

/-!
# Mapping a mapped netlist

A mapped netlist is its own subject graph (`ofNetlist_of_plain`), and each of its instances matches
just its own cell (`nodeMatches_instance`). Its instances are numbered with the drivers first, so
they are taken in the order in which they stand (`topoOrder_assembled`), and all of them are demanded
(`demanded_instance`). Mapping it again therefore gives it back, whatever the strategy
(`mapOnto_of_mapOnto`).
-/

namespace GateSynth

open Netlist

variable {ν : Type} {lib : Library ν} {s : Subject}

/-! ## Netlists without inverted fanins -/

namespace Subject

variable {n : Netlist} {node : Node} {inverters : Inverters}

theorem straighten_of_plain {fanins : List Fanin} (h : ∀ f ∈ fanins, f.inverted = false) :
    straighten fanins n inverters = .ok (n, inverters, fanins) := by
  induction fanins with
  | nil => rfl
  | cons f rest ih =>
    rw [List.forall_mem_cons] at h
    rw [straighten, if_neg (by simp [h.1]), ih h.2]
    rfl

theorem straightenNodes_of_plain (hc : n.Coherent) {rest : List Node}
    (hrest : ∀ node ∈ rest, node ∈ n.nodes)
    (harity : ∀ node ∈ n.nodes, ∀ k, node.kind.arity? = some k → k = node.fanins.length)
    (hplain : ∀ node ∈ n.nodes, ∀ f ∈ node.fanins, f.inverted = false) :
    straightenNodes rest n inverters = .ok n := by
  induction rest with
  | nil => rfl
  | cons node rest ih =>
    rw [List.forall_mem_cons] at hrest
    have hnode := hrest.1
    have hreplace : n.replaceNode node.id node.kind node.fanins = .ok n := by
      rw [Netlist.replaceNode, checkArity_eq_ok_iff.2 (harity node hnode), hc.node?_of_mem hnode,
        hc.updateNode_self hnode]
      rfl
    rw [straightenNodes, straighten_of_plain (hplain node hnode)]
    simp only [bind, Except.bind, hreplace]
    exact ih hrest.2

/-- A valid netlist without inverted fanins whose wires are in order is its own subject graph. -/
theorem ofNetlist_of_plain (hc : n.Coherent) (hvalid : n.validate = .ok ())
    (hplain : ∀ node ∈ n.nodes, ∀ f ∈ node.fanins, f.inverted = false)
    (hwires : n.rebuildWires = n) : ofNetlist n = .ok ⟨n, n.fanout⟩ := by
  have hnodes : straightenNodes n.nodes n Table.empty = .ok n :=
    straightenNodes_of_plain hc (fun _ hnode => hnode) (hc.legal_of_validate hvalid).arity hplain
  rw [ofNetlist, hvalid, hnodes]
  show Except.ok (⟨n.rebuildWires, n.rebuildWires.fanout⟩ : Subject) = _
  rw [hwires]

end Subject

namespace Selection

/-! ## The instances as nodes -/

/-- The match of an instance: its own cell, on the signals that it reads. -/
def ownMatch (k : Node) (m : Match ν) : Match ν := ⟨k.id, m.cell, k.faninSignals, [], m.init⟩

/-- The subject graph of a mapped netlist. -/
abbrev assembledSubject (source : Netlist) (pairs : List (Node × Match ν)) : Subject :=
  ⟨assembled source pairs, (assembled source pairs).fanout⟩

theorem exists_instance (source : Netlist) {pairs : List (Node × Match ν)} {p : Node × Match ν}
    (hp : p ∈ pairs) : ∃ place, instanceAt place p ∈ (assembled source pairs).nodes := by
  obtain ⟨i, hi, rfl⟩ := List.getElem_of_mem hp
  rw [nodes_assembled]
  exact ⟨i, List.mem_mapIdx.2 ⟨i, hi, rfl⟩⟩

theorem leaves_ownMatch (place : Nat) (p : Node × Match ν) (m : Match ν) :
    (ownMatch (instanceAt place p) m).leaves = p.2.leaves := by
  rw [ownMatch, instanceAt, Node.faninSignals, List.map_map]
  exact List.map_id _

section
variable {pairs : List (Node × Match ν)} (hlib : lib.Checked) (hs : s.WellFormed)
  (h : Placed s lib pairs)
include hlib hs h

/-- A mapped netlist is its own subject graph. -/
theorem Placed.ofNetlist_assembled :
    Subject.ofNetlist (assembled s.netlist pairs) = .ok (assembledSubject s.netlist pairs) := by
  refine Subject.ofNetlist_of_plain (coherent_assembled hs pairs) (h.validate_assembled hlib hs)
    (fun k hk f hf => ?_) rfl
  obtain ⟨p, -, place, rfl⟩ := mem_nodes_assembled hk
  obtain ⟨leaf, -, rfl⟩ := List.mem_map.1 hf
  rfl

theorem Placed.wellFormed_assembled : (assembledSubject s.netlist pairs).WellFormed :=
  Subject.wellFormed_of_ofNetlist (coherent_assembled hs pairs) (h.ofNetlist_assembled hlib hs)

/-- An instance matches its own cell and nothing else. -/
theorem Placed.nodeMatches_instance {t : Subject} {p : Node × Match ν} (hp : p ∈ pairs)
    (place : Nat) :
    t.nodeMatches lib (instanceAt place p) = [ownMatch (instanceAt place p) p.2] := by
  have hcomputes := Subject.computes_of_nodeMatches hlib hs.plain (h.node p hp) (h.isMatch p hp)
  have hlength : p.2.cell.inputs.length = (instanceAt place p).fanins.length := by
    rw [instanceAt, List.length_map, hcomputes.leaves]
  exact Subject.nodeMatches_of_cell rfl hcomputes.cell hlength

end

/-! ## The order of the instances -/

section
variable {sel : Selection ν} {needed order : List NodeId}

/-- The matches stand in the order of their nodes. -/
theorem pairwise_placements (sel : Selection ν) (needed : List NodeId) (hs : s.WellFormed)
    (horder : s.netlist.topoOrder = .ok order) :
    (sel.placements s.netlist needed order).Pairwise fun p q =>
      order.idxOf p.1.id < order.idxOf q.1.id := by
  have hnodup := hs.coherent.nodup_of_topoOrder horder
  have hpairwise : order.Pairwise fun a b => order.idxOf a < order.idxOf b := by
    rw [List.pairwise_iff_getElem]
    intro i j hi hj hij
    rwa [hnodup.idxOf_getElem i hi, hnodup.idxOf_getElem j hj]
  refine List.Pairwise.filterMap _ (fun a b hab p hp q hq => ?_) hpairwise
  rw [(hs.coherent.node?_eq_some_iff.1 (placement?_eq_some_iff.1 hp).2.1).2,
    (hs.coherent.node?_eq_some_iff.1 (placement?_eq_some_iff.1 hq).2.1).2]
  exact hab

/-- The instances stand in an order in which they can be taken. -/
theorem topoOrder_assembled (hlib : lib.Checked) (hs : s.WellFormed)
    (horder : s.netlist.topoOrder = .ok order)
    (h : Placed s lib (sel.placements s.netlist needed order)) :
    (assembled s.netlist (sel.placements s.netlist needed order)).topoOrder =
      .ok (assembled s.netlist (sel.placements s.netlist needed order)).nodeIds := by
  have hc := coherent_assembled hs (sel.placements s.netlist needed order)
  have hrank := hs.coherent.ranked_placeIn hs.legal.single horder
  have hordered := pairwise_placements sel needed hs horder
  generalize sel.placements s.netlist needed order = pairs at h hc hordered ⊢
  refine hc.topoOrder_of_driversFirst fun before id after hsplit k hk hid f hf d hd => ?_
  obtain ⟨k', hk', ho, rfl⟩ := driver?_eq_some hd
  have hmem : k'.id ∈ before ++ id :: after := hsplit ▸ List.mem_map_of_mem hk'
  refine (List.mem_append.1 hmem).resolve_right fun hback => ?_
  -- Then the driver is not placed before its reader, although it lies below it.
  have hle : id.index ≤ k'.id.index := by
    have hpairwise : (assembled s.netlist pairs).nodeIds.Pairwise fun a b => a.index < b.index :=
      List.pairwise_map.2 hc.pairwise_index
    rw [hsplit, List.pairwise_append, List.pairwise_cons] at hpairwise
    rcases List.mem_cons.1 hback with heq | hafter
    · exact Nat.le_of_eq (congrArg NodeId.index heq.symm)
    · exact Nat.le_of_lt (hpairwise.2.1.1 _ hafter)
  rw [nodes_assembled, List.mem_mapIdx] at hk hk'
  obtain ⟨i, hi, rfl⟩ := hk
  obtain ⟨j, hj, rfl⟩ := hk'
  have hij : i ≤ j := by
    rw [← hid] at hle
    exact hle
  obtain ⟨leaf, hleaf, rfl⟩ := List.mem_map.1 hf
  have hp := List.getElem_mem hi
  have hq := List.getElem_mem hj
  have htiles := Subject.tiles_of_nodeMatches hlib hs (h.node _ hp) (h.isMatch _ hp)
  have hlt := htiles.rank_lt hs (h.node _ hp) hrank hleaf
  have hbelow : s.netlist.placeIn order leaf = order.idxOf pairs[j].1.id + 1 := by
    rw [← placeIn_output hs.legal.single (h.node _ hq)]
    exact congrArg _ ho.symm
  rw [placeIn_output hs.legal.single (h.node _ hp), hbelow] at hlt
  rcases Nat.eq_or_lt_of_le hij with rfl | hij
  · omega
  · have hbefore := List.pairwise_iff_getElem.1 hordered i j hi hj hij
    omega

end

/-! ## Every instance is demanded -/

section
variable {sel sel' : Selection ν} {pairs : List (Node × Match ν)}

/-- Every instance has its own match as its choice. -/
theorem chosen?_instance [Quantity ν] {strategy : Strategy} (hlib : lib.Checked)
    (hs : s.WellFormed) (h : Placed s lib pairs)
    (hsel : sel'.Settled (assembledSubject s.netlist pairs) lib strategy) {p : Node × Match ν}
    (hp : p ∈ pairs) {place : Nat} (hk : instanceAt place p ∈ (assembled s.netlist pairs).nodes) :
    sel'.chosen? (instanceAt place p).id = some (ownMatch (instanceAt place p) p.2) := by
  have hwf := h.wellFormed_assembled hlib hs
  have hown : ∀ q ∈ pairs, ∀ i, (assembledSubject s.netlist pairs).nodeMatches lib (instanceAt i q) =
      [ownMatch (instanceAt i q) q.2] := fun q hq i => h.nodeMatches_instance hlib hs hq i
  have hsome : ∀ k ∈ (assembled s.netlist pairs).nodes, (sel'.chosen? k.id).isSome := by
    refine hwf.leaves_induction hlib fun k hk ih => ?_
    obtain ⟨q, hq, i, rfl⟩ := mem_nodes_assembled hk
    have hmem : ownMatch (instanceAt i q) q.2 ∈
        (assembledSubject s.netlist pairs).nodeMatches lib (instanceAt i q) := by
      rw [hown q hq i]
      exact .head _
    refine (hsel.chosen?_isSome_iff_match hlib hwf hk).2 ⟨_, hmem, fun leaf hleaf d hd => ?_⟩
    obtain ⟨c, hc, ho, rfl⟩ := driver?_eq_some hd
    exact ih _ hmem leaf hleaf c hc ho
  obtain ⟨m, hm⟩ := Option.isSome_iff_exists.1 (hsome _ hk)
  obtain ⟨choice, hchoice, rfl⟩ := Option.map_eq_some_iff.1 hm
  have hmatch := (hsel.choice hk hchoice).1
  rw [hown p hp place, List.mem_singleton] at hmatch
  rw [hm, hmatch]

/-- The instance of a demanded node is demanded. -/
theorem demanded_instance (hlib : lib.Checked) (hs : s.WellFormed) (h : Placed s lib pairs)
    (hpairs : ∀ p ∈ pairs, sel.chosen? p.1.id = some p.2)
    (hchosen : ∀ p ∈ pairs, ∀ place, instanceAt place p ∈ (assembled s.netlist pairs).nodes →
      sel'.chosen? (instanceAt place p).id = some (ownMatch (instanceAt place p) p.2))
    {id : NodeId} (hid : s.netlist.Demanded sel.chosen? id) :
    ∃ p ∈ pairs, p.1.id = id ∧
      ∀ place, instanceAt place p ∈ (assembled s.netlist pairs).nodes →
        (assembled s.netlist pairs).Demanded sel'.chosen? (instanceAt place p).id := by
  have hsingle := (h.legal_assembled hlib hs).single
  induction hid with
  | output ho hd =>
    obtain ⟨c, hc, rfl, rfl⟩ := driver?_eq_some hd
    obtain ⟨p, hp, rfl⟩ := h.outputs _ ho c hc rfl
    exact ⟨p, hp, rfl, fun place hk => .output ho (driver?_of_mem hsingle hk)⟩
  | leaf _ hm hleaf hd ih =>
    obtain ⟨c, hc, rfl, rfl⟩ := driver?_eq_some hd
    obtain ⟨p, hp, rfl, hdemand⟩ := ih
    rw [hpairs p hp] at hm
    cases hm
    obtain ⟨q, hq, rfl⟩ := h.leaves p hp _ hleaf c hc rfl
    obtain ⟨i, hi⟩ := exists_instance s.netlist hp
    refine ⟨q, hq, rfl, fun place hk => .leaf (hdemand i hi) (hchosen p hp i hi) ?_
      (driver?_of_mem hsingle hk)⟩
    rwa [leaves_ownMatch]

end

/-! ## The same netlist again -/

theorem width_assembled {source : Netlist} {pairs : List (Node × Match ν)} {x : String}
    (h : x ∈ source.inputs ∨ x ∈ source.outputs ∨ x ∈ pairs.map fun p => p.1.output) :
    (assembled source pairs).width x = source.width x := by
  have hbuilt : (built source source.inputs source.outputs pairs).width x = source.width x :=
    width_built h
  exact hbuilt

/-- The instances with their own matches. -/
def ownPairs (pairs : List (Node × Match ν)) : List (Node × Match ν) :=
  pairs.mapIdx fun place p => (instanceAt place p, ownMatch (instanceAt place p) p.2)

theorem map_output_ownPairs (pairs : List (Node × Match ν)) :
    ((ownPairs pairs).map fun p => p.1.output) = pairs.map fun p => p.1.output := by
  refine List.ext_getElem? fun i => ?_
  rw [ownPairs, List.getElem?_map, List.getElem?_mapIdx, List.getElem?_map, Option.map_map]
  rfl

/-- The instance of the own match of an instance is this instance. -/
theorem instanceAt_ownMatch (place : Nat) (p : Node × Match ν) :
    instanceAt place (instanceAt place p, ownMatch (instanceAt place p) p.2) =
      instanceAt place p := by
  have hleaves := leaves_ownMatch place p p.2
  rw [instanceAt, hleaves]
  rfl

/-- The own matches of the instances make the same netlist again. -/
theorem assembled_ownPairs (source : Netlist) (pairs : List (Node × Match ν)) :
    assembled (assembled source pairs) (ownPairs pairs) = assembled source pairs := by
  have hwidths : widthTable (assembled source pairs) (source.inputs ++ source.outputs ++
      (ownPairs pairs).map fun p => p.1.output) =
        widthTable source (source.inputs ++ source.outputs ++ pairs.map fun p => p.1.output) := by
    rw [map_output_ownPairs]
    refine widthTable_congr fun x hx => width_assembled ?_
    rwa [List.mem_append, List.mem_append, or_assoc] at hx
  have harena : ((ownPairs pairs).mapIdx fun place p => some (instanceAt place p)) =
      pairs.mapIdx fun place p => some (instanceAt place p) := by
    refine List.ext_getElem? fun i => ?_
    rw [ownPairs, List.getElem?_mapIdx, List.getElem?_mapIdx, List.getElem?_mapIdx, Option.map_map]
    congr 1
    funext p
    exact congrArg some (instanceAt_ownMatch i p)
  have hbuilt : built (assembled source pairs) source.inputs source.outputs (ownPairs pairs) =
      built source source.inputs source.outputs pairs := by
    rw [built, hwidths, harena]
    rfl
  exact congrArg Netlist.rebuildWires hbuilt

theorem filterMap_mapIdx {α β γ : Type} {f : β → Option γ} {g : Nat → α → β} {h : Nat → α → γ}
    {xs : List α} (hf : ∀ i x, xs[i]? = some x → f (g i x) = some (h i x)) :
    (xs.mapIdx g).filterMap f = xs.mapIdx h := by
  induction xs generalizing g h with
  | nil => rfl
  | cons x xs ih =>
    rw [List.mapIdx_cons, List.mapIdx_cons, List.filterMap_cons_some (hf 0 x rfl),
      ih fun i y hy => hf (i + 1) y hy]

/-- If all instances are needed, they are placed with their own matches. -/
theorem placements_eq_ownPairs {source : Netlist} {pairs : List (Node × Match ν)}
    {sel : Selection ν} {needed : List NodeId} (hc : (assembled source pairs).Coherent)
    (h : ∀ p ∈ pairs, ∀ place, instanceAt place p ∈ (assembled source pairs).nodes →
      (instanceAt place p).id ∈ needed ∧
        sel.chosen? (instanceAt place p).id = some (ownMatch (instanceAt place p) p.2)) :
    sel.placements (assembled source pairs) needed (assembled source pairs).nodeIds =
      ownPairs pairs := by
  rw [placements, nodeIds, List.filterMap_map, nodes_assembled]
  refine filterMap_mapIdx fun i p hi => ?_
  have hk : instanceAt i p ∈ (assembled source pairs).nodes := by
    rw [nodes_assembled]
    refine List.mem_of_getElem? (i := i) ?_
    rw [List.getElem?_mapIdx, hi, Option.map_some]
  obtain ⟨hneeded, hm⟩ := h p (List.mem_of_getElem? hi) i hk
  exact placement?_eq_some_iff.2 ⟨hneeded, hc.node?_of_mem hk, hm⟩

/-- Mapping a mapped netlist gives it back. -/
theorem mapOnto_assembled [Quantity ν] {sel : Selection ν} {needed order : List NodeId}
    (hlib : lib.Checked) (hs : s.WellFormed) (hsel : sel.Sound s lib)
    (horder : s.netlist.topoOrder = .ok order)
    (hneeded : ∀ id, id ∈ needed ↔ s.netlist.Demanded sel.chosen? id)
    (hchosen : ∀ id, s.netlist.Demanded sel.chosen? id → (sel.chosen? id).isSome)
    (strategy : Strategy) :
    ∃ q, (assembled s.netlist (sel.placements s.netlist needed order)).mapOnto lib strategy = .ok q ∧
      q.netlist = assembled s.netlist (sel.placements s.netlist needed order) := by
  have hplaced := placed_placements hs hsel horder hneeded hchosen
  have htopo := topoOrder_assembled hlib hs horder hplaced
  have hpairs : ∀ p ∈ sel.placements s.netlist needed order,
      s.netlist.Demanded sel.chosen? p.1.id ∧ sel.chosen? p.1.id = some p.2 :=
    fun p hp => ((mem_placements_iff hs horder hneeded).1 hp).2
  generalize sel.placements s.netlist needed order = pairs at *
  have hwf := hplaced.wellFormed_assembled hlib hs
  obtain ⟨sel', order', hselect, horder', hcases⟩ :=
    mapOnto_cases hlib hwf (hplaced.ofNetlist_assembled hlib hs) strategy
  have hsettled := settled_of_select hlib hwf hselect
  have hown : ∀ p ∈ pairs, ∀ place, instanceAt place p ∈ (assembled s.netlist pairs).nodes →
      sel'.chosen? (instanceAt place p).id = some (ownMatch (instanceAt place p) p.2) :=
    fun p hp place hk => chosen?_instance hlib hs hplaced hsettled hp hk
  rcases hcases with ⟨needed', q, hq, hneeded', -, hnetlist⟩ | ⟨id, -, hid, hnone⟩
  · have hall : ∀ p ∈ pairs, ∀ place, instanceAt place p ∈ (assembled s.netlist pairs).nodes →
        (instanceAt place p).id ∈ needed' ∧
          sel'.chosen? (instanceAt place p).id = some (ownMatch (instanceAt place p) p.2) := by
      intro p hp place hk
      refine ⟨(hneeded' _).2 ?_, hown p hp place hk⟩
      obtain ⟨p', hp', hid, hdemand⟩ := demanded_instance hlib hs hplaced
        (fun p hp => (hpairs p hp).2) hown (hpairs p hp).1
      have hsame : p' = p := by
        have hnode : p'.1 = p.1 :=
          hs.coherent.eq_of_id (hplaced.node p' hp') (hplaced.node p hp) hid
        exact List.inj_on_of_nodup_map hplaced.nodup hp' hp hnode
      rw [hsame] at hdemand
      exact hdemand place hk
    have horder'' := htopo.symm.trans horder'
    cases horder''
    refine ⟨q, hq, hnetlist.trans ?_⟩
    rw [placements_eq_ownPairs (coherent_assembled hs pairs) hall, assembled_ownPairs]
  · obtain ⟨k, hk, rfl⟩ := hid.exists_node
    obtain ⟨p, hp, place, rfl⟩ := mem_nodes_assembled hk
    rw [hown p hp place hk] at hnone
    cases hnone

end Selection

open Selection in
/-- Mapping is done once: a mapped netlist is mapped to itself, for each strategy, and measures the
same. -/
theorem mapOnto_of_mapOnto [Quantity ν] {n : Netlist} {strategy : Strategy} {r : Mapping ν}
    (hc : n.Coherent) (hlib : lib.Checked) (h : n.mapOnto lib strategy = .ok r)
    (strategy' : Strategy) :
    ∃ q, r.netlist.mapOnto lib strategy' = .ok q ∧ q.netlist = r.netlist ∧
      q.totalArea = r.totalArea ∧ q.criticalArrival = r.criticalArrival ∧
      q.cellUsage = r.cellUsage := by
  obtain ⟨s, sel, needed, order, -, hs, hselect, horder, hneeded, hchosen, hnetlist⟩ :=
    mapOnto_eq_ok hc hlib h
  obtain ⟨q, hq, hqnetlist⟩ := mapOnto_assembled hlib hs (sound_of_select hselect) horder hneeded
    hchosen strategy'
  rw [← hnetlist] at hq hqnetlist
  obtain ⟨harea, ⟨arrivals, harrivals, harrival⟩, husage⟩ := measures_of_mapOnto h
  obtain ⟨harea', ⟨arrivals', harrivals', harrival'⟩, husage'⟩ := measures_of_mapOnto hq
  rw [hqnetlist] at harea' harrivals' harrival' husage'
  rw [harea] at harea'
  rw [harrivals] at harrivals'
  cases harrivals'
  refine ⟨q, hq, hqnetlist, (Except.ok.inj harea').symm, ?_, ?_⟩
  · rw [harrival', harrival]
  · rw [husage', husage]

/-- The compound cell stays when its netlist is mapped again. -/
theorem mapOnto_of_mapOnto_andNor :
    AndNor.netlist.Coherent ∧ AndNor.library.Checked ∧
      ∃ r, AndNor.netlist.mapOnto AndNor.library .areaOptimal = .ok r ∧
        ∃ q, r.netlist.mapOnto AndNor.library .delayOptimal = .ok q ∧ q.netlist = r.netlist ∧
          q.totalArea = r.totalArea := by
  have hlib := Library.checked_of_ofRecord AndNor.ofRecord_record
  obtain ⟨r, hr⟩ := AndNor.exists_mapOnto
  obtain ⟨q, hq, hnetlist, harea, -⟩ :=
    mapOnto_of_mapOnto AndNor.coherent hlib hr .delayOptimal
  exact ⟨AndNor.coherent, hlib, r, hr, q, hq, hnetlist, harea⟩

end GateSynth
