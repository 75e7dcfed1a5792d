import GateSynth.Proofs.Mapping.Regions

/-!
# Choices

What is chosen for a node depends on the nodes below it only, and these are chosen for before it.
So the finished selection satisfies at every node the equations by which it was made (`Settled`,
`settled_of_select`): the choice is the best of the usable matches, and where there is none the
blame is passed down to a node without any match (`Settled.blame`). A node has a choice exactly if
it is coverable (`Settled.chosen?_isSome_iff`).
-/

namespace GateSynth

open Netlist

variable {ν : Type} {lib : Library ν} {s : Subject}

namespace Subject

variable {node : Node} {m : Match ν}

/-- A node is coverable if it has a match whose leaves are primary inputs or driven by coverable
nodes. -/
inductive Coverable (s : Subject) (lib : Library ν) : NodeId → Prop
  | intro {node : Node} {m : Match ν} : node ∈ s.netlist.nodes → m ∈ s.nodeMatches lib node →
      (∀ leaf ∈ m.leaves, s.netlist.driver? leaf = none → leaf ∈ s.netlist.inputs) →
      (∀ leaf ∈ m.leaves, ∀ d, s.netlist.driver? leaf = some d → Coverable s lib d) →
      Coverable s lib node.id

/-- What holds of a node whenever it holds of everything that drives a leaf of a match of it, holds
of all nodes. -/
theorem WellFormed.leaves_induction (hs : s.WellFormed) (hlib : lib.Checked) {P : Node → Prop}
    (step : ∀ node ∈ s.netlist.nodes, (∀ m ∈ s.nodeMatches lib node, ∀ leaf ∈ m.leaves,
      ∀ d ∈ s.netlist.nodes, d.output = leaf → P d) → P node) :
    ∀ node ∈ s.netlist.nodes, P node := by
  obtain ⟨rank, hrank⟩ := hs.legal.acyclic.ranked
  intro node
  induction node using (measure fun node : Node => rank node.output).wf.induction with
  | _ node ih =>
    intro hnode
    refine step node hnode fun m hm leaf hleaf d hd ho => ih d ?_ hd
    have htiles := tiles_of_nodeMatches hlib hs hnode hm
    exact htiles.rank_lt hs hnode hrank (ho ▸ hleaf)

/-- The cell of a match is one of the library. -/
theorem cell_mem_of_nodeMatches (hlib : lib.Checked) (hs : s.WellFormed)
    (hnode : node ∈ s.netlist.nodes) (hm : m ∈ s.nodeMatches lib node) : m.cell ∈ lib.cells :=
  (Library.cell?_eq_some (computes_of_nodeMatches hlib hs.plain hnode hm).cell).1

/-- A match has a leaf for every pin. -/
theorem length_leaves (hlib : lib.Checked) (hs : s.WellFormed) (hnode : node ∈ s.netlist.nodes)
    (hm : m ∈ s.nodeMatches lib node) : m.leaves.length = m.cell.inputs.length :=
  (computes_of_nodeMatches hlib hs.plain hnode hm).leaves

theorem map_snd_pins (h : m.leaves.length = m.cell.inputs.length) :
    m.pins.map Prod.snd = m.leaves :=
  List.map_snd_zip (Nat.le_of_eq h)

end Subject

namespace Selection

variable {sel sel' : Selection ν} {strategy : Strategy} {id other : NodeId} {node : Node}
  {m : Match ν} {candidates : List (Match ν)} {pins : List (String × String)}

/-! ## What a choice depends on -/

/-- Two selections say the same about a node. -/
structure AgreesAt (sel sel' : Selection ν) (id : NodeId) : Prop where
  best : sel.best.find? id = sel'.best.find? id
  blocked : sel.blocked.find? id = sel'.blocked.find? id

theorem AgreesAt.refl (sel : Selection ν) (id : NodeId) : sel.AgreesAt sel id := ⟨rfl, rfl⟩

theorem AgreesAt.trans {sel'' : Selection ν} (h : sel.AgreesAt sel' id)
    (h' : sel'.AgreesAt sel'' id) : sel.AgreesAt sel'' id :=
  ⟨h.best.trans h'.best, h.blocked.trans h'.blocked⟩

/-- Where drivers come first, the nodes below a match are placed before its root. -/
theorem mem_before_of_leaf (hlib : lib.Checked) (hs : s.WellFormed) {order : List NodeId}
    (horder : s.netlist.topoOrder = .ok order) {before after : List NodeId}
    (hsplit : order = before ++ node.id :: after) (hnode : node ∈ s.netlist.nodes)
    (hm : m ∈ s.nodeMatches lib node) {leaf : String} (hleaf : leaf ∈ m.leaves) {d : NodeId}
    (hd : s.netlist.driver? leaf = some d) : d ∈ before := by
  have hnodup := hs.coherent.nodup_of_topoOrder horder
  have hrank := hs.coherent.ranked_placeIn hs.legal.single horder
  have hlt := (Subject.tiles_of_nodeMatches hlib hs hnode hm).rank_lt hs hnode hrank hleaf
  have hnot : node.id ∉ before := by
    intro hmem
    rw [hsplit, List.nodup_append] at hnodup
    exact hnodup.2.2 _ hmem _ (.head _) rfl
  rw [placeIn_output hs.legal.single hnode, placeIn, hd, Option.map_some, Option.getD_some, hsplit,
    List.idxOf_append_of_notMem hnot, List.idxOf_cons_self, Nat.add_zero] at hlt
  by_contra hd'
  rw [List.idxOf_append_of_notMem hd'] at hlt
  omega

section
variable [Quantity ν]

/-- Choosing for a node concerns this node only. -/
theorem agreesAt_choose (hne : other ≠ id) :
    (sel.choose s strategy id candidates).AgreesAt sel other := by
  rw [choose]
  split
  · exact ⟨by rw [Table.find?_insert, if_neg hne], rfl⟩
  · exact ⟨rfl, by rw [Table.find?_insert, if_neg hne]⟩

/-- Choosing along an order concerns the nodes of this order only. -/
theorem agreesAt_along {order : List NodeId} (hid : id ∉ order) :
    (along s lib strategy order sel).AgreesAt sel id := by
  induction order generalizing sel with
  | nil => exact .refl sel id
  | cons first rest ih =>
    rw [List.mem_cons, not_or] at hid
    exact (ih hid.2).trans (agreesAt_choose hid.1)

/-- Two selections agree about whatever drives one of some signals. -/
def AgreeBelow (s : Subject) (leaves : List String) (sel sel' : Selection ν) : Prop :=
  ∀ leaf ∈ leaves, ∀ d, s.netlist.driver? leaf = some d → sel.AgreesAt sel' d

theorem leafCost_congr {leaf : String}
    (h : ∀ d, s.netlist.driver? leaf = some d → sel.AgreesAt sel' d) :
    sel.leafCost s leaf = sel'.leafCost s leaf := by
  rw [leafCost, leafCost]
  cases hd : s.netlist.driver? leaf with
  | none => rfl
  | some d => simp only [cost?, (h d hd).best]

theorem leafCosts_congr (h : AgreeBelow s (pins.map Prod.snd) sel sel') :
    sel.leafCosts s pins = sel'.leafCosts s pins := by
  induction pins with
  | nil => rfl
  | cons p rest ih =>
    obtain ⟨pin, leaf⟩ := p
    rw [leafCosts, leafCosts, leafCost_congr (h leaf (.head _)),
      ih fun x hx => h x (.tail _ hx)]

theorem costOf_congr (h : AgreeBelow s (m.pins.map Prod.snd) sel sel') :
    sel.costOf s m = sel'.costOf s m := by
  rw [costOf, costOf, leafCosts_congr h]

theorem usable_congr (h : ∀ m ∈ candidates, AgreeBelow s (m.pins.map Prod.snd) sel sel') :
    sel.usable s candidates = sel'.usable s candidates := by
  refine List.filterMap_congr fun ⟨m, index⟩ hm => ?_
  have hmem : m ∈ candidates := (List.mem_zipIdx' hm).2 ▸ List.getElem_mem _
  simp only [costOf_congr (h m hmem)]

/-- The first leaf that cannot be covered is behind a match that cannot be used. -/
theorem leafCosts_eq_error {d : NodeId} (h : sel.leafCosts s pins = .error d) :
    ∃ leaf ∈ pins.map Prod.snd, s.netlist.driver? leaf = some d ∧ sel.cost? d = none := by
  induction pins with
  | nil => cases h
  | cons p rest ih =>
    obtain ⟨pin, leaf⟩ := p
    rw [leafCosts] at h
    split at h
    · next driver hleaf =>
      cases h
      rw [leafCost] at hleaf
      split at hleaf
      · cases hleaf
      · next hdriver =>
        split at hleaf
        · cases hleaf
        · next hnone =>
          cases hleaf
          exact ⟨leaf, .head _, hdriver, hnone⟩
    · split at h
      · next driver htail =>
        cases h
        obtain ⟨x, hx, hxd⟩ := ih htail
        exact ⟨x, .tail _ hx, hxd⟩
      · cases h

/-- The costs of the leaves are found one by one. -/
theorem leafCosts_eq_ok {costs : List (String × String × Cost ν)}
    (h : sel.leafCosts s pins = .ok costs) :
    List.Forall₂ (fun p c => c.1 = p.1 ∧ c.2.1 = p.2 ∧ sel.leafCost s p.2 = .ok c.2.2)
      pins costs := by
  induction pins generalizing costs with
  | nil =>
    cases h
    exact .nil
  | cons p rest ih =>
    obtain ⟨pin, leaf⟩ := p
    rw [leafCosts] at h
    split at h
    · cases h
    · next cost hcost =>
      split at h
      · cases h
      · next tail htail =>
        cases h
        exact .cons ⟨rfl, rfl, hcost⟩ (ih htail)

theorem costOf_eq_error {d : NodeId} (h : sel.costOf s m = .error d) :
    ∃ leaf ∈ m.pins.map Prod.snd, s.netlist.driver? leaf = some d ∧ sel.cost? d = none := by
  rw [costOf] at h
  split at h
  · cases h
  · next driver hdriver =>
    cases h
    exact leafCosts_eq_error hdriver

/-- A match can be used exactly if whatever drives a leaf has a choice. -/
theorem costOf_isOk_iff : (∃ cost, sel.costOf s m = .ok cost) ↔
    ∀ leaf ∈ m.pins.map Prod.snd, ∀ d, s.netlist.driver? leaf = some d →
      (sel.cost? d).isSome := by
  constructor
  · rintro ⟨cost, hcost⟩ leaf hleaf d hd
    rw [costOf] at hcost
    split at hcost
    · next costs hcosts =>
      obtain ⟨p, hp, rfl⟩ := List.mem_map.1 hleaf
      obtain ⟨c, -, -, -, hc⟩ := exists_of_forall₂ (leafCosts_eq_ok hcosts).flip hp
      rw [leafCost, hd] at hc
      dsimp only at hc
      split at hc
      · next found hfound =>
        rw [hfound]
        rfl
      · cases hc
    · cases hcost
  · intro h
    cases hcost : sel.costOf s m with
    | ok cost => exact ⟨cost, rfl⟩
    | error d =>
      obtain ⟨leaf, hleaf, hd, hnone⟩ := costOf_eq_error hcost
      have hsome := h leaf hleaf d hd
      rw [hnone] at hsome
      cases hsome

theorem blockers_congr (h : ∀ m ∈ candidates, AgreeBelow s (m.pins.map Prod.snd) sel sel') :
    sel.blockers s candidates = sel'.blockers s candidates := by
  refine List.filterMap_congr fun m hm => ?_
  rw [costOf_congr (h m hm)]
  cases hcost : sel'.costOf s m with
  | ok cost => rfl
  | error d =>
    obtain ⟨leaf, hleaf, hd, -⟩ := costOf_eq_error hcost
    simp only [blocker, (h m hm leaf hleaf d hd).blocked]

/-! ## Selections that are settled -/

/-- The selection satisfies the equations by which it was made, at every node. -/
structure Settled (sel : Selection ν) (s : Subject) (lib : Library ν) (strategy : Strategy) :
    Prop where
  best : ∀ node ∈ s.netlist.nodes, sel.best.find? node.id =
    (sel.usable s (s.nodeMatches lib node)).foldl (prefer strategy) none
  blocker : ∀ node ∈ s.netlist.nodes, sel.best.find? node.id = none → sel.blocker node.id =
    ((sel.blockers s (s.nodeMatches lib node)).head?).getD node.id

theorem along_append (before after : List NodeId) :
    along s lib strategy (before ++ after) sel =
      along s lib strategy after (along s lib strategy before sel) := by
  induction before generalizing sel with
  | nil => rfl
  | cons id before ih => exact ih

theorem along_cons_of_mem (hs : s.WellFormed) (hnode : node ∈ s.netlist.nodes)
    (rest : List NodeId) :
    along s lib strategy (node.id :: rest) sel =
      along s lib strategy rest (sel.choose s strategy node.id (s.nodeMatches lib node)) := by
  simp only [along, hs.coherent.node?_of_mem hnode]

/-- What is found at a node right after choosing for it. -/
theorem find?_choose (hbest : sel.best.find? id = none) :
    (sel.choose s strategy id candidates).best.find? id =
      (sel.usable s candidates).foldl (prefer strategy) none := by
  rw [choose]
  split
  · next choice hchoice => rw [hchoice, Table.find?_insert_self]
  · next hnone => rw [hnone, hbest]

theorem blocker_choose (hbest : (sel.choose s strategy id candidates).best.find? id = none) :
    (sel.choose s strategy id candidates).blocker id =
      ((sel.blockers s candidates).head?).getD id := by
  rw [choose] at hbest ⊢
  split at hbest
  · rw [Table.find?_insert_self] at hbest
    cases hbest
  · next hnone => simp only [blocker, Table.find?_insert_self, Option.getD_some]

/-- The selection is settled at the end. -/
theorem settled_of_select (hlib : lib.Checked) (hs : s.WellFormed)
    (h : s.select lib strategy = .ok sel) : sel.Settled s lib strategy := by
  obtain ⟨order, horder, h⟩ := ok_of_bind h
  cases h
  have horder := ok_of_mapError horder
  have hnodup := hs.coherent.nodup_of_topoOrder horder
  -- Cut the run at the node; nothing later concerns it or a node below it.
  have hcut : ∀ node ∈ s.netlist.nodes, ∃ sel₁ : Selection ν,
      sel₁.best.find? node.id = none ∧
      (along s lib strategy order .empty).AgreesAt
        (sel₁.choose s strategy node.id (s.nodeMatches lib node)) node.id ∧
      ∀ m ∈ s.nodeMatches lib node,
        AgreeBelow s (m.pins.map Prod.snd) (along s lib strategy order .empty) sel₁ := by
    intro node hnode
    have hmem : node.id ∈ order :=
      (hs.coherent.perm_of_topoOrder horder).mem_iff.2 (List.mem_map_of_mem hnode)
    obtain ⟨before, after, hsplit⟩ := List.append_of_mem hmem
    have hparts := hsplit ▸ hnodup
    rw [List.nodup_append, List.nodup_cons] at hparts
    obtain ⟨-, ⟨hafter, -⟩, hdisjoint⟩ := hparts
    have hbefore : node.id ∉ before := fun hmem => hdisjoint _ hmem _ (.head _) rfl
    refine ⟨along s lib strategy before .empty, (agreesAt_along hbefore).best, ?_,
      fun m hm leaf hleaf d hd => ?_⟩
    · rw [hsplit, along_append, along_cons_of_mem hs hnode]
      exact agreesAt_along hafter
    · rw [Subject.map_snd_pins (Subject.length_leaves hlib hs hnode hm)] at hleaf
      have hd := mem_before_of_leaf hlib hs horder hsplit hnode hm hleaf hd
      rw [hsplit, along_append]
      exact agreesAt_along fun hmem => hdisjoint _ hd _ hmem rfl
  refine ⟨fun node hnode => ?_, fun node hnode hnone => ?_⟩
  · obtain ⟨sel₁, hempty, hhere, hbelow⟩ := hcut node hnode
    rw [hhere.best, find?_choose hempty, usable_congr hbelow]
  · obtain ⟨sel₁, hempty, hhere, hbelow⟩ := hcut node hnode
    rw [hhere.best] at hnone
    rw [blocker, hhere.blocked, blockers_congr hbelow]
    exact blocker_choose hnone

/-! ## Which nodes have a choice -/

theorem costOf_of_mem_usable {choice : Choice ν} (h : choice ∈ sel.usable s candidates) :
    sel.costOf s choice.candidate = .ok choice.cost := by
  obtain ⟨⟨m, index⟩, -, hchoice⟩ := List.mem_filterMap.1 h
  dsimp only at hchoice
  split at hchoice
  · next cost hcost =>
    cases hchoice
    exact hcost
  · cases hchoice

/-- A match whose cost can be found is usable. -/
theorem exists_mem_usable (hm : m ∈ candidates) {cost : Cost ν}
    (hcost : sel.costOf s m = .ok cost) :
    ∃ choice ∈ sel.usable s candidates, choice.candidate = m ∧ choice.cost = cost := by
  obtain ⟨i, hi⟩ := List.mem_iff_getElem?.1 hm
  have hplace : (m, i) ∈ candidates.zipIdx := List.mem_zipIdx_iff_getElem?.2 hi
  refine ⟨⟨i, m, cost⟩, List.mem_filterMap.2 ⟨(m, i), hplace, ?_⟩, rfl, rfl⟩
  simp only [hcost]

theorem foldl_prefer_isSome (choices : List (Choice ν)) (kept : Choice ν) :
    (choices.foldl (prefer strategy) (some kept)).isSome := by
  induction choices generalizing kept with
  | nil => rfl
  | cons next rest ih =>
    rw [List.foldl_cons, prefer]
    split
    · exact ih next
    · exact ih kept

/-- Of some choices one is preferred. -/
theorem foldl_prefer_eq_none_iff {choices : List (Choice ν)} :
    choices.foldl (prefer strategy) none = none ↔ choices = [] := by
  cases choices with
  | nil => simp
  | cons first rest =>
    have hsome : (rest.foldl (prefer strategy) (some first)).isSome :=
      foldl_prefer_isSome rest first
    rw [List.foldl_cons, prefer]
    simp only [reduceCtorEq, iff_false]
    intro hnone
    rw [hnone] at hsome
    cases hsome

/-- A choice is a match of its node, at its cost. -/
theorem Settled.choice (h : sel.Settled s lib strategy) (hnode : node ∈ s.netlist.nodes)
    {choice : Choice ν} (hchoice : sel.best.find? node.id = some choice) :
    choice.candidate ∈ s.nodeMatches lib node ∧
      sel.costOf s choice.candidate = .ok choice.cost := by
  rw [h.best node hnode] at hchoice
  have husable := (mem_of_foldl_prefer hchoice).resolve_left nofun
  exact ⟨candidate_mem_of_usable husable, costOf_of_mem_usable husable⟩

section
variable (hlib : lib.Checked) (hs : s.WellFormed)
include hlib hs

/-- The cost of a match of a node is known exactly if whatever drives a leaf of it has a choice. -/
theorem costOf_isOk_iff_of_nodeMatches (hnode : node ∈ s.netlist.nodes)
    (hm : m ∈ s.nodeMatches lib node) :
    (∃ cost, sel.costOf s m = .ok cost) ↔ ∀ leaf ∈ m.leaves, ∀ d,
      s.netlist.driver? leaf = some d → (sel.chosen? d).isSome := by
  rw [costOf_isOk_iff, Subject.map_snd_pins (Subject.length_leaves hlib hs hnode hm)]
  simp only [cost?, chosen?, Option.isSome_map]

/-- A node has a choice exactly if one of its matches can be used. -/
theorem Settled.chosen?_isSome_iff_match (h : sel.Settled s lib strategy)
    (hnode : node ∈ s.netlist.nodes) :
    (sel.chosen? node.id).isSome ↔ ∃ m ∈ s.nodeMatches lib node, ∀ leaf ∈ m.leaves, ∀ d,
      s.netlist.driver? leaf = some d → (sel.chosen? d).isSome := by
  rw [chosen?, Option.isSome_map]
  constructor
  · intro hsome
    obtain ⟨choice, hchoice⟩ := Option.isSome_iff_exists.1 hsome
    obtain ⟨hm, hcost⟩ := h.choice hnode hchoice
    exact ⟨_, hm, (costOf_isOk_iff_of_nodeMatches hlib hs hnode hm).1 ⟨_, hcost⟩⟩
  · rintro ⟨m, hm, hleaves⟩
    obtain ⟨cost, hcost⟩ := (costOf_isOk_iff_of_nodeMatches hlib hs hnode hm).2 hleaves
    obtain ⟨choice, hmem, -⟩ := exists_mem_usable hm hcost
    rw [Option.isSome_iff_ne_none, h.best node hnode, ne_eq, foldl_prefer_eq_none_iff]
    exact List.ne_nil_of_mem hmem

/-- Whatever drives a leaf of a choice has a choice too. -/
theorem Settled.chosen?_leaf (h : sel.Settled s lib strategy) (hnode : node ∈ s.netlist.nodes)
    (hm : sel.chosen? node.id = some m) {leaf : String} (hleaf : leaf ∈ m.leaves) {d : NodeId}
    (hd : s.netlist.driver? leaf = some d) : (sel.chosen? d).isSome := by
  obtain ⟨choice, hchoice, rfl⟩ := Option.map_eq_some_iff.1 hm
  obtain ⟨hmatch, hcost⟩ := h.choice hnode hchoice
  exact (costOf_isOk_iff_of_nodeMatches hlib hs hnode hmatch).1 ⟨_, hcost⟩ leaf hleaf d hd

theorem Settled.coverable_of_chosen? (h : sel.Settled s lib strategy) :
    ∀ node ∈ s.netlist.nodes, (sel.chosen? node.id).isSome → s.Coverable lib node.id := by
  refine hs.leaves_induction hlib fun node hnode ih hsome => ?_
  obtain ⟨m, hm, hleaves⟩ := (h.chosen?_isSome_iff_match hlib hs hnode).1 hsome
  have htiles := Subject.tiles_of_nodeMatches hlib hs hnode hm
  refine .intro hnode hm (fun leaf hleaf => htiles.input_of_undriven hs hleaf)
    fun leaf hleaf d hd => ?_
  have hchosen := hleaves leaf hleaf d hd
  obtain ⟨c, hc, ho, rfl⟩ := driver?_eq_some hd
  exact ih m hm leaf hleaf c hc ho hchosen

theorem Settled.chosen?_of_coverable (h : sel.Settled s lib strategy) (hid : s.Coverable lib id) :
    (sel.chosen? id).isSome := by
  induction hid with
  | intro hnode hm _ _ ih => exact (h.chosen?_isSome_iff_match hlib hs hnode).2 ⟨_, hm, ih⟩

/-- A node has a choice exactly if it is coverable. -/
theorem Settled.chosen?_isSome_iff (h : sel.Settled s lib strategy)
    (hnode : node ∈ s.netlist.nodes) :
    (sel.chosen? node.id).isSome ↔ s.Coverable lib node.id :=
  ⟨h.coverable_of_chosen? hlib hs node hnode, h.chosen?_of_coverable hlib hs⟩

/-- The blame for a node without a choice goes to a node without any match, and if the one lies in
the cone then so does the other. -/
theorem Settled.blame (h : sel.Settled s lib strategy) :
    ∀ node ∈ s.netlist.nodes, sel.chosen? node.id = none → ∃ culprit ∈ s.netlist.nodes,
      sel.blocker node.id = culprit.id ∧ s.nodeMatches lib culprit = [] ∧
        (s.netlist.Cone node.id → s.netlist.Cone culprit.id) := by
  refine hs.leaves_induction hlib fun node hnode ih hnone => ?_
  rw [chosen?, Option.map_eq_none_iff] at hnone
  have hblocker := h.blocker node hnode hnone
  have hunusable := h.best node hnode
  rw [hnone, eq_comm, foldl_prefer_eq_none_iff] at hunusable
  cases hmatches : s.nodeMatches lib node with
  | nil =>
    rw [hmatches] at hblocker
    exact ⟨node, hnode, hblocker, hmatches, fun hcone => hcone⟩
  | cons m rest =>
    have hm : m ∈ s.nodeMatches lib node := hmatches ▸ .head _
    cases hcost : sel.costOf s m with
    | ok cost =>
      obtain ⟨choice, hchoice, -⟩ := exists_mem_usable hm hcost
      rw [hunusable] at hchoice
      cases hchoice
    | error d =>
      -- The first match is to blame, and behind it what drives its first unusable leaf.
      obtain ⟨leaf, hleaf, hd, hdnone⟩ := costOf_eq_error hcost
      rw [Subject.map_snd_pins (Subject.length_leaves hlib hs hnode hm)] at hleaf
      obtain ⟨c, hc, ho, rfl⟩ := driver?_eq_some hd
      have hcnone : sel.chosen? c.id = none := by
        rw [cost?, Option.map_eq_none_iff] at hdnone
        rw [chosen?, hdnone, Option.map_none]
      obtain ⟨culprit, hculprit, hblame, hnomatch, hcone⟩ := ih m hm leaf hleaf c hc ho hcnone
      refine ⟨culprit, hculprit, ?_, hnomatch, fun hroot => hcone ?_⟩
      · rw [hblocker, hmatches, blockers, List.filterMap_cons, hcost]
        exact hblame
      · exact (Subject.tiles_of_nodeMatches hlib hs hnode hm).cone hs hnode hroot hleaf hd

end

end

end Selection

end GateSynth
