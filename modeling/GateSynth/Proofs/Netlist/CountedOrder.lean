import GateSynth.Netlist.CountedOrder
import GateSynth.Proofs.Netlist.Cycles

/-!
# Counting finds the same order

`Tallied` says what the counts and the queue stand for: the count of a node is the number of drivers
that it waits for, and the queue holds the nodes that wait for nothing, each once. To take the
lowest from the queue and settle its readers is therefore to take the first that waits for nothing
and release the others (`Tallied.place`), and so both ways of ordering give the same answer
(`Coherent.countedOrder_eq`). No count is taken below zero, because a port that is due is counted
(`Tallied.pos_of_due`), and the queue is empty in the end (`Coherent.ready_of_drain`).
-/

namespace GateSynth.Netlist

variable {n : Netlist} {left : List Waiting} {ids due : List NodeId} {q : Queue} {id low : NodeId}
  {steps : Nat} {readers : Table NodeId (List NodeId)}

/-! ## The lowest identifier -/

theorem lowest?_eq_none_iff : lowest? ids = none ↔ ids = [] := by
  cases ids with
  | nil => exact iff_of_true rfl rfl
  | cons id rest =>
    rw [lowest?]
    cases lowest? rest with
    | none => simp
    | some low => by_cases hle : id.index ≤ low.index <;> simp [hle]

theorem lowest?_spec (h : lowest? ids = some low) :
    low ∈ ids ∧ ∀ id ∈ ids, low.index ≤ id.index := by
  induction ids generalizing low with
  | nil => cases h
  | cons first rest ih =>
    rw [lowest?] at h
    cases hrest : lowest? rest with
    | none =>
      rw [hrest] at h
      cases h
      rw [lowest?_eq_none_iff.1 hrest]
      simp
    | some other =>
      obtain ⟨hmem, hle⟩ := ih hrest
      simp only [hrest] at h
      split at h
      · next hfirst =>
        cases h
        refine ⟨.head _, List.forall_mem_cons.2 ⟨Nat.le_refl _, fun id hid => ?_⟩⟩
        exact hfirst.trans (hle id hid)
      · next hfirst =>
        cases h
        exact ⟨.tail _ hmem, List.forall_mem_cons.2 ⟨Nat.le_of_not_le hfirst, hle⟩⟩

/-- The lowest of the nodes that pass a test is the first one where they are sorted. -/
theorem lowest?_eq_find? (hsorted : left.Pairwise fun a b => a.id.index < b.id.index)
    {test : Waiting → Bool} (hids : ∀ id, id ∈ ids ↔ ∃ w ∈ left, test w = true ∧ w.id = id) :
    lowest? ids = (left.find? test).map Waiting.id := by
  cases hfind : left.find? test with
  | none =>
    refine lowest?_eq_none_iff.2 (List.eq_nil_iff_forall_not_mem.2 fun id hid => ?_)
    obtain ⟨w, hw, htest, -⟩ := (hids id).1 hid
    exact List.find?_eq_none.1 hfind w hw htest
  | some w =>
    have hw : w.id ∈ ids :=
      (hids _).2 ⟨w, List.mem_of_find?_eq_some hfind, List.find?_some hfind, rfl⟩
    cases hlow : lowest? ids with
    | none => exact absurd (lowest?_eq_none_iff.1 hlow ▸ hw) List.not_mem_nil
    | some low =>
      obtain ⟨hmem, hle⟩ := lowest?_spec hlow
      obtain ⟨v, hv, htest, rfl⟩ := (hids low).1 hmem
      have hindex := Nat.le_antisymm (hle _ hw) (index_le_of_find? hsorted hfind hv htest)
      exact congrArg some (congrArg NodeId.mk hindex)

/-! ## What the counts stand for -/

/-- The counts are those of the nodes that are left, apart from the ports that are due to be
settled. -/
structure Tallied (left : List Waiting) (due : List NodeId) (q : Queue) : Prop where
  counts : ∀ w ∈ left, q.pending.find? w.id = some (w.drivers.length + due.count w.id)
  placed : ∀ id ∉ left.map Waiting.id, ∀ count, q.pending.find? id = some count → count = 0
  due : ∀ id ∈ due, id ∈ left.map Waiting.id
  distinct : q.ready.Nodup
  ready : ∀ id, id ∈ q.ready ↔ id ∈ left.map Waiting.id ∧ q.pending.find? id = some 0

/-- The readers of the nodes that are left are noted, once for each port. -/
structure Noted (readers : Table NodeId (List NodeId)) (left : List Waiting) : Prop where
  ports : ∀ d ∈ left.map Waiting.id, ∀ w ∈ left,
    (readersOf readers d).count w.id = w.drivers.count d
  left : ∀ d ∈ left.map Waiting.id, ∀ id ∈ readersOf readers d, id ∈ left.map Waiting.id

/-- A port that is due is still counted. -/
theorem Tallied.pos_of_due (h : Tallied left due q) (hid : id ∈ due) :
    ∃ count, q.pending.find? id = some count ∧ 0 < count := by
  obtain ⟨w, hw, rfl⟩ := List.mem_map.1 (h.due id hid)
  exact ⟨_, h.counts w hw, Nat.add_pos_right _ (List.count_pos_iff.2 hid)⟩

theorem Tallied.find?_pending (h : Tallied left [] q) {w : Waiting} (hw : w ∈ left) :
    q.pending.find? w.id = some w.drivers.length := h.counts w hw

/-- Where no port is due, the queue holds the nodes that wait for nothing. -/
theorem Tallied.mem_ready_iff (h : Tallied left [] q) :
    id ∈ q.ready ↔ ∃ w ∈ left, w.drivers.isEmpty = true ∧ w.id = id := by
  rw [h.ready]
  constructor
  · rintro ⟨hid, hzero⟩
    obtain ⟨w, hw, rfl⟩ := List.mem_map.1 hid
    rw [h.find?_pending hw, Option.some.injEq, List.length_eq_zero_iff] at hzero
    exact ⟨w, hw, List.isEmpty_iff.2 hzero, rfl⟩
  · rintro ⟨w, hw, hempty, rfl⟩
    rw [h.find?_pending hw, List.isEmpty_iff.1 hempty]
    exact ⟨List.mem_map_of_mem hw, rfl⟩

/-! ## Placing a node -/

/-- One port that is due is settled. -/
theorem Tallied.settle (h : Tallied left (id :: due) q) : Tallied left due (q.settle id) := by
  obtain ⟨c, hfound, hpos⟩ := h.pos_of_due (.head _)
  obtain ⟨c, rfl⟩ := Nat.exists_eq_add_one_of_ne_zero (Nat.ne_of_gt hpos)
  have hsettle : q.settle id =
      ⟨q.pending.insert id c, if c = 0 then id :: q.ready else q.ready⟩ := by
    simp only [Queue.settle, hfound, Nat.add_sub_cancel]
  have hnew : id ∉ q.ready := fun hready => by
    have hzero := ((h.ready id).1 hready).2
    rw [hfound] at hzero
    exact absurd (Option.some.inj hzero) (Nat.succ_ne_zero c)
  rw [hsettle]
  constructor
  case counts =>
    intro w hw
    have hcount := h.counts w hw
    rw [Table.find?_insert]
    split
    · next heq =>
      rw [heq, hfound, List.count_cons_self, Option.some.injEq] at hcount
      exact congrArg some (heq ▸ Nat.succ.inj hcount)
    · next hne => rw [hcount, List.count_cons_of_ne (Ne.symm hne)]
  case placed =>
    intro other hother count
    have hne : other ≠ id := fun heq => hother (heq ▸ h.due id (.head _))
    rw [Table.find?_insert, if_neg hne]
    exact h.placed other hother count
  case due =>
    intro other hother
    exact h.due other (.tail _ hother)
  case distinct =>
    split
    · exact List.nodup_cons.2 ⟨hnew, h.distinct⟩
    · exact h.distinct
  case ready =>
    intro other
    rw [Table.find?_insert]
    by_cases heq : other = id
    · have hid := h.due id (.head _)
      by_cases hzero : c = 0 <;> simp [heq, hzero, hnew, hid]
    · by_cases hzero : c = 0 <;> simp [heq, hzero, h.ready]

/-- All ports that are due are settled, one after the other. -/
theorem Tallied.foldl_settle (h : Tallied left due q) :
    Tallied left [] (due.foldl Queue.settle q) := by
  induction due generalizing q with
  | nil => exact h
  | cons id rest ih => exact ih h.settle

theorem length_filter_add_count (drivers : List NodeId) (id : NodeId) :
    (drivers.filter (· ≠ id)).length + drivers.count id = drivers.length := by
  rw [List.length_eq_countP_add_countP (· == id) (l := drivers), Nat.add_comm, List.count,
    ← List.countP_eq_length_filter]
  simp

/-- Taking a node from the queue and settling its readers releases the others. -/
theorem Tallied.place (h : Tallied left [] q)
    (hnoted : Noted readers left) {w : Waiting} (hw : w ∈ left) (hnone : w.drivers = []) :
    Tallied (release w.id left) [] (q.place readers w.id) := by
  have hid := List.mem_map_of_mem (f := Waiting.id) hw
  have hself : w.id ∉ readersOf readers w.id := by
    rw [← List.count_eq_zero, hnoted.ports w.id hid w hw, hnone, List.count_nil]
  refine foldl_settle (q := ⟨q.pending, q.ready.erase w.id⟩) ⟨fun u hu => ?_,
    fun id hleft count => ?_, fun id hread => ?_, h.distinct.erase _, fun id => ?_⟩
  · obtain ⟨v, hv, hvid, -, hdrivers⟩ := of_mem_release hu
    rw [← hvid, h.find?_pending hv, hdrivers, hnoted.ports w.id hid v hv, length_filter_add_count]
  · rw [mem_map_id_release, not_and_or, not_ne_iff] at hleft
    rcases hleft with hleft | rfl
    · exact h.placed id hleft count
    · rw [h.find?_pending hw, hnone]
      exact fun hzero => (Option.some.inj hzero).symm
  · exact mem_map_id_release.2
      ⟨hnoted.left w.id hid id hread, fun heq => hself (heq ▸ hread)⟩
  · rw [h.distinct.mem_erase_iff, h.ready, mem_map_id_release]
    tauto

theorem Noted.release (h : Noted readers left) {w : Waiting} (hw : w ∈ left)
    (hnone : w.drivers = []) : Noted readers (release w.id left) := by
  refine ⟨fun d hd u hu => ?_, fun d hd id hread => ?_⟩
  · obtain ⟨hd, hne⟩ := mem_map_id_release.1 hd
    obtain ⟨v, hv, hvid, -, hdrivers⟩ := of_mem_release hu
    rw [← hvid, h.ports d hd v hv, hdrivers, List.count_filter (by simpa using hne)]
  · obtain ⟨hd, -⟩ := mem_map_id_release.1 hd
    refine mem_map_id_release.2 ⟨h.left d hd id hread, ?_⟩
    rintro rfl
    have hcount := h.ports d hd w hw
    rw [hnone, List.count_nil] at hcount
    exact List.count_eq_zero.1 hcount hread

/-! ## Placing all nodes -/

theorem keys_settle (q : Queue) (id : NodeId) : (q.settle id).pending.keys = q.pending.keys := by
  rw [Queue.settle]
  split
  · next hfound => rw [Table.keys_insert, if_pos (Table.mem_keys_of_find? hfound)]
  · rfl

theorem keys_place (q : Queue) (readers : Table NodeId (List NodeId)) (id : NodeId) :
    (q.place readers id).pending.keys = q.pending.keys := by
  have hfold : ∀ (due : List NodeId) (q : Queue),
      (due.foldl Queue.settle q).pending.keys = q.pending.keys := by
    intro due
    induction due with
    | nil => exact fun q => rfl
    | cons id rest ih => exact fun q => (ih _).trans (keys_settle q id)
  exact hfold _ _

/-- The queue gives out the nodes in the order in which the search finds them. -/
theorem drain_eq (hsorted : left.Pairwise fun a b => a.id.index < b.id.index)
    (h : Tallied left [] q) (hnoted : Noted readers left) : ∃ last,
      drain readers steps q = ((placeReady steps left).1, last) ∧
      Tallied (placeReady steps left).2 [] last ∧ last.pending.keys = q.pending.keys := by
  induction steps generalizing left q with
  | zero => exact ⟨q, rfl, h, rfl⟩
  | succ steps ih =>
    have hlow := lowest?_eq_find? hsorted fun _ => h.mem_ready_iff
    cases hfind : left.find? fun w => w.drivers.isEmpty with
    | none =>
      simp only [hfind, Option.map_none] at hlow
      exact ⟨q, by simp only [drain, hlow, placeReady, hfind], by simpa only [placeReady, hfind],
        rfl⟩
    | some w =>
      have hw := List.mem_of_find?_eq_some hfind
      have hnone : w.drivers = [] := by simpa using List.find?_some hfind
      simp only [hfind, Option.map_some] at hlow
      obtain ⟨last, hdrain, hlast, hkeys⟩ := ih (pairwise_release hsorted w.id)
        (h.place hnoted hw hnone) (hnoted.release hw hnone)
      refine ⟨last, ?_, ?_, hkeys.trans (keys_place q readers w.id)⟩
      · simp only [drain, hlow, placeReady, hfind, hdrain]
      · simpa only [placeReady, hfind] using hlast

/-! ## Counting -/

/-- The ports of the nodes of a list are counted. -/
structure Counted (t : Tally) (nodes : List Waiting) : Prop where
  pending : t.pending.entries = nodes.map fun w => (w.id, w.drivers.length)
  readers : ∀ d, readersOf t.readers d =
    nodes.flatMap fun w => List.replicate (w.drivers.count d) w.id

theorem foldl_tallyPort (reader : NodeId) (signals : List String)
    (noted : Table NodeId (List NodeId) × Nat) :
    (∀ d, readersOf (signals.foldl (n.tallyPort reader) noted).1 d =
      readersOf noted.1 d ++ List.replicate ((signals.filterMap n.driver?).count d) reader) ∧
    (signals.foldl (n.tallyPort reader) noted).2 =
      noted.2 + (signals.filterMap n.driver?).length := by
  induction signals generalizing noted with
  | nil => simp
  | cons signal rest ih =>
    obtain ⟨hreaders, hcount⟩ := ih (n.tallyPort reader noted signal)
    rw [List.foldl_cons, hcount]
    simp only [hreaders]
    rw [tallyPort]
    cases hdriver : n.driver? signal with
    | none => simp [hdriver]
    | some driver =>
      simp only [List.filterMap_cons_some hdriver, List.length_cons]
      refine ⟨fun d => ?_, by omega⟩
      rw [readersOf, Table.find?_insert]
      by_cases heq : d = driver
      · simp [heq, List.replicate_succ]
      · simp [heq, readersOf, List.count_cons_of_ne (Ne.symm heq)]

/-- One more node is counted. -/
theorem Counted.tallyNode {t : Tally} {nodes : List Waiting} (h : Counted t nodes) {node : Node}
    (hnew : node.id ∉ nodes.map Waiting.id) : Counted (n.tallyNode t node)
      (nodes ++ [⟨node.id, node.faninSignals.filterMap n.driver?⟩]) := by
  obtain ⟨hreaders, hcount⟩ := foldl_tallyPort (n := n) node.id node.faninSignals (t.readers, 0)
  have hkey : node.id ∉ t.pending.keys := by
    rw [Table.keys, h.pending, List.map_map]
    exact hnew
  constructor
  · show (t.pending.insert node.id _).entries = _
    rw [Table.insert_of_not_mem hkey, hcount, h.pending]
    simp
  · intro d
    show readersOf (node.faninSignals.foldl (n.tallyPort node.id) (t.readers, 0)).1 d = _
    rw [hreaders, h.readers]
    simp

/-- By induction on the nodes that are still to be counted. -/
theorem Counted.foldl_tallyNode {t : Tally} {before : List Waiting} (h : Counted t before)
    {nodes : List Node} (hnodup : (before.map Waiting.id ++ nodes.map Node.id).Nodup) :
    Counted (nodes.foldl n.tallyNode t) (before ++
      nodes.map fun node => ⟨node.id, node.faninSignals.filterMap n.driver?⟩) := by
  induction nodes generalizing t before with
  | nil => simpa using h
  | cons node rest ih =>
    have hnew : node.id ∉ before.map Waiting.id := fun hmem =>
      (List.nodup_append.1 hnodup).2.2 _ hmem _ (.head _) rfl
    have hrest := ih (h.tallyNode (n := n) hnew) (by simpa using hnodup)
    simpa using hrest

theorem Coherent.counted_tally (hc : n.Coherent) : Counted n.tally n.waiting := by
  have hempty : Counted ⟨Table.empty, Table.empty⟩ [] := ⟨rfl, fun d => rfl⟩
  exact hempty.foldl_tallyNode (by simpa [nodeIds] using hc.nodeIds_nodup)

theorem count_replicate_of_mem {nodes : List Waiting} (hnodup : (nodes.map Waiting.id).Nodup)
    (d : NodeId) {w : Waiting} (hw : w ∈ nodes) :
    (nodes.flatMap fun v => List.replicate (v.drivers.count d) v.id).count w.id =
      w.drivers.count d := by
  induction nodes with
  | nil => cases hw
  | cons v rest ih =>
    rw [List.map_cons, List.nodup_cons] at hnodup
    rw [List.flatMap_cons, List.count_append]
    rcases List.mem_cons.1 hw with rfl | hw
    · have hzero :
          (rest.flatMap fun v => List.replicate (v.drivers.count d) v.id).count w.id = 0 := by
        refine List.count_eq_zero.2 fun hmem => ?_
        obtain ⟨v, hv, hid⟩ := List.mem_flatMap.1 hmem
        exact hnodup.1 ((List.mem_replicate.1 hid).2 ▸ List.mem_map_of_mem hv)
      rw [hzero, List.count_replicate_self, Nat.add_zero]
    · have hne : v.id ≠ w.id := fun heq => hnodup.1 (heq ▸ List.mem_map_of_mem hw)
      rw [ih hnodup.2 hw, List.count_replicate, if_neg (by simpa using hne), Nat.zero_add]

theorem Counted.noted {t : Tally} (h : Counted t left) (hnodup : (left.map Waiting.id).Nodup) :
    Noted t.readers left := by
  refine ⟨fun d _ w hw => ?_, fun d _ id hid => ?_⟩
  · rw [h.readers, count_replicate_of_mem hnodup d hw]
  · rw [h.readers] at hid
    obtain ⟨w, hw, hid⟩ := List.mem_flatMap.1 hid
    exact (List.mem_replicate.1 hid).2 ▸ List.mem_map_of_mem hw

theorem mem_countedAs {pending : Table NodeId Nat} (hnodup : pending.keys.Nodup)
    {test : Nat → Bool} :
    id ∈ countedAs pending test ↔ ∃ count, pending.find? id = some count ∧ test count = true := by
  simp only [countedAs, List.mem_map, List.mem_filter, Table.find?_eq_some_iff hnodup]
  constructor
  · rintro ⟨e, ⟨he, htest⟩, rfl⟩
    exact ⟨e.2, he, htest⟩
  · rintro ⟨count, he, htest⟩
    exact ⟨_, ⟨he, htest⟩, rfl⟩

theorem Counted.keys {t : Tally} (h : Counted t left) : t.pending.keys = left.map Waiting.id := by
  rw [Table.keys, h.pending, List.map_map]
  rfl

/-- At the start no port is due, and the nodes without counted ports are queued. -/
theorem Counted.tallied {t : Tally} (h : Counted t left) (hnodup : (left.map Waiting.id).Nodup) :
    Tallied left [] ⟨t.pending, countedAs t.pending (· == 0)⟩ := by
  have hkeys : t.pending.keys.Nodup := h.keys ▸ hnodup
  refine ⟨fun w hw => ?_, fun id hid count hfound => ?_, nofun, ?_, fun id => ?_⟩
  · refine (Table.find?_eq_some_iff hkeys).2 ?_
    rw [h.pending]
    exact List.mem_map_of_mem hw
  · exact absurd (h.keys ▸ Table.mem_keys_of_find? hfound) hid
  · exact hkeys.sublist (List.filter_sublist.map Prod.fst)
  · rw [mem_countedAs hkeys, ← h.keys]
    simp only [beq_iff_eq, exists_eq_right]
    exact ⟨fun hzero => ⟨Table.mem_keys_of_find? hzero, hzero⟩, And.right⟩

/-- The lowest node with counted ports is the first of those that are left and wait. -/
theorem Tallied.lowest?_countedAs (h : Tallied left [] q)
    (hsorted : left.Pairwise fun a b => a.id.index < b.id.index) (hnodup : q.pending.keys.Nodup) :
    lowest? (countedAs q.pending (0 < ·)) =
      (left.find? fun w => !w.drivers.isEmpty).map Waiting.id := by
  refine lowest?_eq_find? hsorted fun id => ?_
  rw [mem_countedAs hnodup]
  constructor
  · rintro ⟨count, hfound, hpos⟩
    have hid : id ∈ left.map Waiting.id := by
      by_contra hid
      exact Nat.ne_of_gt (of_decide_eq_true hpos) (h.placed id hid count hfound)
    obtain ⟨w, hw, rfl⟩ := List.mem_map.1 hid
    rw [h.find?_pending hw, Option.some.injEq] at hfound
    refine ⟨w, hw, ?_, rfl⟩
    simpa [← hfound, List.length_pos_iff] using hpos
  · rintro ⟨w, hw, hwaits, rfl⟩
    exact ⟨_, h.find?_pending hw, by simpa [List.length_pos_iff] using hwaits⟩

/-! ## The same answer -/

/-- What the queue gives out, and what is counted in the end. -/
theorem Coherent.drain_tally (hc : n.Coherent) : ∃ last,
    drain n.tally.readers n.tally.pending.size
        ⟨n.tally.pending, countedAs n.tally.pending (· == 0)⟩ =
      ((placeReady n.nodeCount n.waiting).1, last) ∧
    Tallied (placeReady n.nodeCount n.waiting).2 [] last ∧ last.pending.keys = n.nodeIds := by
  have hcounted := hc.counted_tally
  have hsize : n.tally.pending.size = n.nodeCount := by
    rw [Table.size, hcounted.pending, List.length_map, waiting, List.length_map, nodeCount]
  rw [hsize, ← map_id_waiting, ← hcounted.keys]
  exact drain_eq hc.pairwise_waiting (hcounted.tallied hc.nodup_waiting)
    (hcounted.noted hc.nodup_waiting)

/-- The steps are enough: the queue is empty in the end. -/
theorem Coherent.ready_of_drain (hc : n.Coherent) :
    (drain n.tally.readers n.tally.pending.size
      ⟨n.tally.pending, countedAs n.tally.pending (· == 0)⟩).2.ready = [] := by
  obtain ⟨last, hdrain, htallied, -⟩ := hc.drain_tally
  rw [hdrain]
  refine List.eq_nil_iff_forall_not_mem.2 fun id hid => ?_
  obtain ⟨w, hw, hempty, -⟩ := htallied.mem_ready_iff.1 hid
  exact placeReady_waits (by simp [waiting, nodeCount]) rfl w hw (List.isEmpty_iff.1 hempty)

/-- Counting and searching give the same order, and report the same node where there is none. -/
theorem Coherent.countedOrder_eq (hc : n.Coherent) : n.countedOrder = n.topoOrder := by
  obtain ⟨last, hdrain, htallied, hkeys⟩ := hc.drain_tally
  obtain ⟨order, stuck, hplace⟩ : ∃ order stuck,
      placeReady n.nodeCount n.waiting = (order, stuck) := ⟨_, _, rfl⟩
  rw [hplace] at hdrain htallied
  have hlength : order.length + stuck.length = last.pending.size := by
    have hsize : last.pending.size = last.pending.keys.length := (List.length_map _).symm
    rw [hsize, hkeys, ← (hc.perm_of_placeReady hplace).length_eq, List.length_append,
      List.length_map]
  simp only [countedOrder, hdrain, topoOrder, hplace]
  cases stuck with
  | nil => exact if_pos hlength
  | cons w rest =>
    have hwaits := placeReady_waits (by simp [waiting, nodeCount]) hplace w (.head _)
    rw [if_neg (by rw [List.length_cons] at hlength; omega),
      htallied.lowest?_countedAs (hc.pairwise_stuck hplace) (hkeys ▸ hc.nodeIds_nodup),
      List.find?_cons_of_pos (by simpa using hwaits), Option.map_some]

end GateSynth.Netlist
