import GateSynth.Proofs.Optimize.Joining

/-!
# Building a tree anew

`rebuild` puts another bracket over the same leaves in the place of a tree, as flat as can be, and
leaves all other nodes alone (`Rebuilt`, `rebuild_spec`). The signals that the other nodes read are
read as often as before (`Rebuilt.readCount_eq`), and the netlist stays in order (`Rebuilt.legal`).
-/

namespace GateSynth

open Netlist

namespace Balancing

variable {n n' : Netlist} {root d : Node} {t t' : Bracket} {others : List Node}

/-! ## Before -/

/-- The nodes of the netlist that are not in the tree. -/
def outside (n : Netlist) (t : Bracket) : List Node :=
  n.nodes.filter fun m => m ∉ t.nodes

theorem mem_outside {m : Node} : m ∈ outside n t ↔ m ∈ n.nodes ∧ m ∉ t.nodes := by
  rw [outside, List.mem_filter, decide_eq_true_eq]

theorem TreeAt.perm_outside (h : TreeAt n root t) (hl : n.Legal) (hc : n.Coherent)
    (hroot : root ∈ n.nodes) : n.nodes.Perm (t.nodes ++ outside n t) := by
  have hnodup : (t.nodes ++ outside n t).Nodup := by
    refine List.nodup_append.2 ⟨h.nodes_nodup hc hl hroot, hc.nodes_nodup.filter _,
      fun a ha b hb hab => ?_⟩
    exact (mem_outside.1 hb).2 (hab ▸ ha)
  refine (List.perm_ext_iff_of_nodup hc.nodes_nodup hnodup).2 fun m => ?_
  rw [List.mem_append, mem_outside]
  constructor
  · intro hm
    by_cases hmt : m ∈ t.nodes
    · exact .inl hmt
    · exact .inr ⟨hm, hmt⟩
  · rintro (hmt | ⟨hm, -⟩)
    · exact (h.like hroot hmt).1
    · exact hm

/-- A leaf reads no inner node of its tree: the one fanin that reads such a node joins it. -/
theorem TreeAt.leaf_ne (h : TreeAt n root t) (hc : n.Coherent) (hroot : root ∈ n.nodes) {g : Fanin}
    (hg : g ∈ t.leaves) (hd : d ∈ t.inner) : g.signal ≠ d.output := by
  intro hread
  obtain ⟨q, hq, f, hf, hj⟩ := h.joined hd
  obtain ⟨q', hq', hg'⟩ : ∃ q' ∈ t.nodes, g ∈ q'.fanins := by
    cases h with
    | mk hfanins hleft hright => exact (TreeAt.mk hfanins hleft hright).wired.leaf_read hg
  obtain ⟨hqm, hkind, hwidth⟩ := h.like hroot hq
  have hsame := hj.reader hc hqm hf (h.like hroot hq').1 hg' hread
  subst hsame
  obtain ⟨i, hi, rfl⟩ := List.getElem_of_mem hf
  obtain ⟨j, hj', rfl⟩ := List.getElem_of_mem hg'
  have hplace := reader_unique hj.once hqm (List.getElem?_eq_getElem hi) rfl hqm
    (List.getElem?_eq_getElem hj') (hread.trans hj.output)
  obtain ⟨-, rfl⟩ := hplace
  exact h.leaf_free hg { hj with kind := hj.kind.trans hkind, width := hj.width.trans hwidth }

/-- The leaves of a tree can be joined below its root. -/
theorem TreeAt.level (h : TreeAt n root t) (hl : n.Legal) (hc : n.Coherent)
    (hroot : root ∈ n.nodes) : Level n root.output (t.leaves.map .leaf) := by
  obtain ⟨rank, hrank⟩ := hl.acyclic.ranked
  have hfalls := h.falls hrank (fun _ _ _ _ _ hjoins => hjoins.mem) hroot
  have hread : ∀ g ∈ t.leaves, n.isDefined g.signal = true := by
    intro g hg
    obtain ⟨q, hq, hg'⟩ : ∃ q ∈ t.nodes, g ∈ q.fanins := by
      cases h with
      | mk hfanins hleft hright => exact (TreeAt.mk hfanins hleft hright).wired.leaf_read hg
    exact hl.reads q (h.like hroot hq).1 g hg'
  refine ⟨hc, fun m hm f hf => isTaken_of_isDefined (hl.reads m hm f hf),
    isTaken_of_isDefined (isDefined_of_node hroot), fun b hb => ?_, fun b hb => ?_, rank, hrank, ?_,
    fun b hb => ?_⟩
  · obtain ⟨g, hg, rfl⟩ := List.mem_map.1 hb
    exact isTaken_of_isDefined (hread g hg)
  · obtain ⟨g, -, rfl⟩ := List.mem_map.1 hb
    trivial
  · cases h with
    | @mk left _ _ _ hfanins _ _ =>
      have hlt := hrank root hroot left (by rw [hfanins]; exact .head _)
      omega
  · obtain ⟨g, hg, rfl⟩ := List.mem_map.1 hb
    exact hfalls.2 g hg

theorem dropNodes_without {m : Netlist} {gone ids : List NodeId} (h : Without n m gone)
    (hids : ∀ id ∈ ids, id ∉ gone ∧ id ∈ n.nodeIds) (hnodup : ids.Nodup) :
    Without n (dropNodes ids m) (ids.reverse ++ gone) := by
  induction ids generalizing m gone with
  | nil => exact h
  | cons id ids ih =>
    obtain ⟨hnot, hid⟩ := hids id (.head _)
    obtain ⟨hfirst, hrest⟩ := List.nodup_cons.1 hnodup
    obtain ⟨node, hnode, rfl⟩ := List.mem_map.1 hid
    have hstill : m.node? node.id = some node :=
      h.coherent.node?_of_mem (h.mem_nodes.2 ⟨hnode, hnot⟩)
    rw [dropNodes, hstill, List.reverse_cons, List.append_assoc]
    refine ih (h.drop hnode) (fun i hi => ⟨fun hmem => ?_, (hids i (.tail _ hi)).2⟩) hrest
    rcases List.mem_cons.1 hmem with rfl | hmem
    · exact hfirst hi
    · exact (hids i (.tail _ hi)).1 hmem

theorem length_arena_dropNodes (ids : List NodeId) (m : Netlist) :
    (dropNodes ids m).arena.length = m.arena.length := by
  induction ids generalizing m with
  | nil => rfl
  | cons id ids ih =>
    rw [dropNodes]
    split
    · next node _ =>
      have hdrop : ((m.eraseNode id).retireSignal node.output).arena.length = m.arena.length := by
        rw [retireSignal]
        split <;> exact List.length_set
      rw [ih, hdrop]
    · exact ih m

theorem Bracket.Wired.two_fanins {b : Bracket} (h : b.Wired) (hd : d ∈ b.nodes) :
    ∃ x y, d.fanins = [x, y] := by
  induction b with
  | leaf f => cases hd
  | join node l r ihl ihr =>
    obtain ⟨hfanins, hl, hr⟩ := h
    rcases List.mem_cons.1 hd with rfl | hd
    · exact ⟨_, _, hfanins⟩
    · exact (List.mem_append.1 hd).elim (ihl hl) (ihr hr)

/-! ## After -/

/-- Another bracket over the same leaves stands in the place of a tree. -/
structure Rebuilt (n n' : Netlist) (root : Node) (t t' : Bracket) (others : List Node) : Prop where
  coherent : n'.Coherent
  name : n'.name = n.name
  inputs : n'.inputs = n.inputs
  outputs : n'.outputs = n.outputs
  arena : n.arena.length ≤ n'.arena.length
  before : n.nodes.Perm (t.nodes ++ others)
  after : n'.nodes.Perm (t'.nodes ++ others)
  wired : t'.Wired
  leaves : t'.leaves = t.leaves
  depth : t'.depth ≤ minDepth t.leaves.length
  /-- The root has other fanins and is otherwise as it was. -/
  top : ∃ fanins l r, t' = .join { root with fanins } l r
  /-- The nodes below it are new and of its kind. -/
  kind : ∀ d ∈ t'.inner, d.kind = root.kind
  free : ∀ d ∈ t'.inner, n.isTaken d.output = false
  places : ∀ d ∈ t'.inner, n.arena.length ≤ d.id.index
  distinct : (t'.inner.map Node.output).Nodup
  width_new : ∀ d ∈ t'.inner, n'.width d.output = n.width root.output
  width : ∀ s, n.isTaken s = true → (∀ d ∈ t.inner, d.output ≠ s) → n'.width s = n.width s
  ranked : ∃ rank, n'.Ranked rank

/-- Rebuilding succeeds: the leaves are joined, the root reads the last two brackets, and the inner
nodes are dropped. -/
theorem rebuild_eq_ok (h : TreeAt n root t) (hl : n.Legal) (hc : n.Coherent)
    (hroot : root ∈ n.nodes) (hkind : root.kind.isAssociative = true) {tree : Tree}
    (hleaves : tree.leaves = t.leaves) :
    ∃ n₂ new l r, rebuild n root tree =
        .ok (dropNodes tree.internal (n₂.updateNode root.id root.kind [l.fanin, r.fanin])) ∧
      Added n n₂ new root.kind (n.width root.output) ∧ Level n₂ root.output [l, r] ∧
      Joined (t.leaves.map .leaf) [l, r] new ∧
      ∀ b ∈ [l, r], b.depth + 1 ≤ minDepth t.leaves.length := by
  have hlength : (t.leaves.map Bracket.leaf).length = t.inner.length + 2 := by
    rw [List.length_map, t.length_leaves, h.nodes_eq, List.length_cons]
  obtain ⟨n₂, new, l, r, hjoin, hadded, hlevel, hjoined, hdepth⟩ :=
    joinLevels_spec (w := n.width root.output) hkind (h.level hl hc hroot)
      (by rw [List.length_map]; exact Nat.le_add_right _ 2) (by omega)
  have hfanins : (t.leaves.map Bracket.leaf).map Bracket.fanin = t.leaves := by
    rw [List.map_map]
    exact (List.map_congr_left fun f _ => rfl).trans (List.map_id _)
  rw [hfanins] at hjoin
  have hroot₂ : root ∈ n₂.nodes := by
    rw [hadded.nodes]
    exact List.mem_append_left _ hroot
  have hreplace : n₂.replaceNode root.id root.kind [l.fanin, r.fanin] =
      .ok (n₂.updateNode root.id root.kind [l.fanin, r.fanin]) := by
    have hcheck : checkArity root.id root.kind [l.fanin, r.fanin] = .ok () :=
      checkArity_eq_ok_iff.2 fun k hk => by
        rw [arity_of_associative hkind] at hk
        cases hk
        rfl
    rw [replaceNode, hcheck, hadded.coherent.node?_of_mem hroot₂]
    rfl
  refine ⟨n₂, new, l, r, ?_, hadded, hlevel, hjoined, fun b hb => ?_⟩
  · rw [rebuild]
    dsimp only
    rw [hleaves, hjoin]
    show (n₂.replaceNode root.id root.kind [l.fanin, r.fanin] >>= _) = _
    rw [hreplace]
    rfl
  · have hle := hdepth 0 (fun b hb => by
      obtain ⟨g, -, rfl⟩ := List.mem_map.1 hb
      exact Nat.le_refl 0) b hb
    rw [Nat.zero_add, List.length_map] at hle
    exact hle

/-- The inner nodes are dropped behind the update of the root. -/
theorem dropNodes_inner (h : TreeAt n root t) (hl : n.Legal) (hc : n.Coherent)
    (hroot : root ∈ n.nodes) {n₂ : Netlist} (hc₂ : n₂.Coherent) (hsub : n.nodes ⊆ n₂.nodes)
    {fanins : List Fanin} {internal : List NodeId} (hinternal : internal.Perm (t.inner.map Node.id)) :
    Without (n₂.updateNode root.id root.kind fanins)
      (dropNodes internal (n₂.updateNode root.id root.kind fanins)) internal.reverse := by
  have hinner : ∀ d ∈ t.inner, d ∈ n.nodes := fun d hd =>
    (h.like hroot (by rw [h.nodes_eq]; exact .tail _ hd)).1
  have hids : ∀ id ∈ internal, id ∉ ([] : List NodeId) ∧
      id ∈ (n₂.updateNode root.id root.kind fanins).nodeIds := by
    intro id hid
    obtain ⟨d, hd, rfl⟩ := List.mem_map.1 (hinternal.mem_iff.1 hid)
    refine ⟨List.not_mem_nil, ?_⟩
    rw [nodeIds, hc₂.nodes_updateNode, List.map_map]
    refine List.mem_map.2 ⟨d, hsub (hinner d hd), ?_⟩
    rw [Function.comp_apply]
    split <;> rfl
  have hnodup : internal.Nodup := by
    refine hinternal.nodup_iff.2 (List.Nodup.map_on (fun a ha b hb hab => ?_) ?_)
    · exact hc.eq_of_id (hinner a ha) (hinner b hb) hab
    · have hnodes := h.nodes_nodup hc hl hroot
      rw [h.nodes_eq] at hnodes
      exact hnodes.of_cons
  have hwithout := dropNodes_without (Without.refl (hc₂.updateNode root.id root.kind fanins)) hids
    hnodup
  rwa [List.append_nil] at hwithout

section Replaced
variable {n₂ : Netlist} {new : List Node} {fanins : List Fanin} {gone : List NodeId}
  (h : TreeAt n root t) (hl : n.Legal) (hc : n.Coherent) (hroot : root ∈ n.nodes)
  (hadded : Added n n₂ new root.kind (n.width root.output))
  (hgone : ∀ {id}, id ∈ gone ↔ id ∈ t.inner.map Node.id)
  (hwithout : Without (n₂.updateNode root.id root.kind fanins) n' gone)

include h hroot in
theorem TreeAt.inner_mem (hd : d ∈ t.inner) : d ∈ n.nodes :=
  (h.like hroot (by rw [h.nodes_eq]; exact .tail _ hd)).1

include h hl hc hroot in
theorem TreeAt.root_notMem_inner : root ∉ t.inner := by
  have hnodes := h.nodes_nodup hc hl hroot
  rw [h.nodes_eq] at hnodes
  exact (List.nodup_cons.1 hnodes).1

include h hc hroot hgone in
theorem gone_iff {m : Node} (hm : m ∈ n.nodes) : m.id ∈ gone ↔ m ∈ t.inner := by
  rw [hgone, List.mem_map]
  refine ⟨fun ⟨d, hd, hid⟩ => ?_, fun hd => ⟨m, hd, rfl⟩⟩
  exact hc.eq_of_id (h.inner_mem hroot hd) hm hid ▸ hd

include hc hadded in
theorem new_id_ne {m e : Node} (hm : m ∈ new) (he : e ∈ n.nodes) : m.id ≠ e.id := by
  intro hid
  have hplace := hadded.places m hm
  have hlt := hc.index_lt he
  rw [← hid] at hlt
  omega

include h hl hc hroot hadded hgone hwithout in
/-- The nodes behind a rebuild: the root, the new ones and those outside the tree. -/
theorem mem_replaced (m : Node) :
    m ∈ n'.nodes ↔ m = { root with fanins } ∨ m ∈ new ∨ m ∈ outside n t := by
  have hroot₂ : root ∈ n₂.nodes := by
    rw [hadded.nodes]
    exact List.mem_append_left _ hroot
  have hgone' : ∀ {m}, m ∈ n.nodes → (m.id ∈ gone ↔ m ∈ t.inner) :=
    fun hm => gone_iff h hc hroot hgone hm
  rw [hwithout.mem_nodes, hadded.coherent.mem_nodes_updateNode hroot₂, hadded.nodes, List.mem_append,
    mem_outside, h.nodes_eq, List.mem_cons, not_or]
  constructor
  · rintro ⟨rfl | ⟨hm | hm, hid⟩, hstay⟩
    · exact .inl rfl
    · exact .inr (.inr ⟨hm, fun heq => hid (heq ▸ rfl), mt (hgone' hm).2 hstay⟩)
    · exact .inr (.inl hm)
  · rintro (rfl | hm | ⟨hm, hne, hout⟩)
    · exact ⟨.inl rfl, fun hid => h.root_notMem_inner hl hc hroot ((hgone' hroot).1 hid)⟩
    · refine ⟨.inr ⟨.inr hm, new_id_ne hc hadded hm hroot⟩, fun hid => ?_⟩
      obtain ⟨d, hd, heq⟩ := List.mem_map.1 (hgone.1 hid)
      exact new_id_ne hc hadded hm (h.inner_mem hroot hd) heq.symm
    · exact ⟨.inr ⟨.inl hm, fun hid => hne (hc.eq_of_id hm hroot hid)⟩, mt (hgone' hm).1 hout⟩

include h hl hc hroot hadded hgone hwithout in
theorem width_replaced {s : String} (hs : ∀ d ∈ t.inner, d.output ≠ s) :
    n'.width s = n₂.width s := by
  have hroot₂ : root ∈ n₂.nodes := by
    rw [hadded.nodes]
    exact List.mem_append_left _ hroot
  refine hwithout.width s fun m hm hid => ?_
  obtain ⟨d, hd, heq⟩ := List.mem_map.1 (hgone.1 hid)
  have hdn := h.inner_mem hroot hd
  rcases (hadded.coherent.mem_nodes_updateNode hroot₂).1 hm with rfl | ⟨hm, -⟩
  · have hsame := hc.eq_of_id hdn hroot heq
    exact absurd (hsame ▸ hd) (h.root_notMem_inner hl hc hroot)
  · have hsame : d = m := by
      refine hadded.coherent.eq_of_id ?_ hm heq
      rw [hadded.nodes]
      exact List.mem_append_left _ hdn
    exact hsame ▸ hs d hd

include h hl hc hroot hadded hgone hwithout in
theorem perm_replaced {inner : List Node} (hinner : inner.Perm new) :
    n'.nodes.Perm ({ root with fanins } :: inner ++ outside n t) := by
  have hperm : ({ root with fanins } :: inner ++ outside n t).Perm
      ({ root with fanins } :: (new ++ outside n t)) :=
    (hinner.append_right _).cons _
  refine .trans ?_ hperm.symm
  have hnodup : ({ root with fanins } :: (new ++ outside n t)).Nodup := by
    refine List.nodup_cons.2 ⟨fun hm => ?_, List.nodup_append.2 ⟨.of_map _ hadded.distinct,
      hc.nodes_nodup.filter _, fun a ha b hb hab => ?_⟩⟩
    · rcases List.mem_append.1 hm with hm | hm
      · exact new_id_ne hc hadded hm hroot rfl
      · obtain ⟨hm, hout⟩ := mem_outside.1 hm
        exact hout (hc.eq_of_id hm hroot rfl ▸ h.root_mem)
    · subst hab
      exact new_id_ne hc hadded ha (mem_outside.1 hb).1 rfl
  refine (List.perm_ext_iff_of_nodup hwithout.coherent.nodes_nodup hnodup).2 fun m => ?_
  rw [mem_replaced h hl hc hroot hadded hgone hwithout, List.mem_cons, List.mem_append]

end Replaced

/-- Building a tree anew succeeds. -/
theorem rebuild_spec (h : TreeAt n root t) (hl : n.Legal) (hc : n.Coherent) (hroot : root ∈ n.nodes)
    (hkind : root.kind.isAssociative = true) {tree : Tree} (hleaves : tree.leaves = t.leaves)
    (hinternal : tree.internal.Perm (t.inner.map Node.id)) :
    ∃ n' t', rebuild n root tree = .ok n' ∧ Rebuilt n n' root t t' (outside n t) := by
  obtain ⟨n₂, new, l, r, hrebuild, hadded, hlevel, hjoined, hdepth⟩ :=
    rebuild_eq_ok h hl hc hroot hkind hleaves
  have hsub : n.nodes ⊆ n₂.nodes := by
    rw [hadded.nodes]
    exact List.subset_append_left _ _
  have hwithout : Without (n₂.updateNode root.id root.kind [l.fanin, r.fanin]) _ _ :=
    dropNodes_inner h hl hc hroot hadded.coherent hsub hinternal
  have hgone : ∀ {id}, id ∈ tree.internal.reverse ↔ id ∈ t.inner.map Node.id := by
    intro id
    rw [List.mem_reverse, hinternal.mem_iff]
  have hinner : (l.nodes ++ r.nodes).Perm new := by
    have hnodes := hjoined.nodes
    have hnone : (t.leaves.map Bracket.leaf).flatMap Bracket.nodes = [] := by
      rw [List.flatMap_map]
      simp [Bracket.nodes]
    rw [hnone, List.append_nil] at hnodes
    simpa using hnodes
  have hwidth : ∀ {s}, (∀ d ∈ t.inner, d.output ≠ s) → _ :=
    fun hs => width_replaced h hl hc hroot hadded hgone hwithout hs
  obtain ⟨rank, hrank, -, hbelow⟩ := hlevel.ranked
  refine ⟨_, .join { root with fanins := [l.fanin, r.fanin] } l r, hrebuild, ?_⟩
  constructor
  case coherent => exact hwithout.coherent
  case name => exact hwithout.name.trans hadded.name
  case inputs => exact hwithout.inputs.trans hadded.inputs
  case outputs => exact hwithout.outputs.trans hadded.outputs
  case arena =>
    rw [length_arena_dropNodes]
    exact hadded.arena.trans (List.length_modify _ _ _).ge
  case before => exact h.perm_outside hl hc hroot
  case after => exact perm_replaced h hl hc hroot hadded hgone hwithout hinner
  case wired => exact ⟨rfl, hlevel.wired l (.head _), hlevel.wired r (.tail _ (.head _))⟩
  case leaves =>
    have hflat : (t.leaves.map Bracket.leaf).flatMap Bracket.leaves = t.leaves := by
      rw [List.flatMap_map]
      simp [Bracket.leaves]
    have hjoin := hjoined.leaves
    rw [hflat] at hjoin
    rw [Bracket.leaves]
    simpa using hjoin
  case depth =>
    have hl := hdepth l (.head _)
    have hr := hdepth r (.tail _ (.head _))
    simp only [Bracket.depth]
    omega
  case top => exact ⟨_, l, r, rfl⟩
  case kind => exact fun d hd => hadded.kind d (hinner.mem_iff.1 hd)
  case free => exact fun d hd => hadded.free d (hinner.mem_iff.1 hd)
  case places => exact fun d hd => hadded.places d (hinner.mem_iff.1 hd)
  case distinct => exact (hinner.map _).nodup_iff.2 hadded.distinct
  case width_new =>
    intro d hd
    have hd' := hinner.mem_iff.1 hd
    rw [hwidth fun e he heq => ?_, hadded.width, if_pos (List.mem_map_of_mem hd')]
    have hfree := hadded.free d hd'
    rw [← heq, isTaken_of_isDefined (isDefined_of_node (h.inner_mem hroot he))] at hfree
    cases hfree
  case width =>
    intro s hs hinnerOut
    rw [hwidth hinnerOut, hadded.width, if_neg fun hmem => ?_]
    obtain ⟨d, hd, rfl⟩ := List.mem_map.1 hmem
    rw [hadded.free d hd] at hs
    cases hs
  case ranked =>
    refine ⟨rank, fun m hm f hf => ?_⟩
    rcases (mem_replaced h hl hc hroot hadded hgone hwithout m).1 hm with rfl | hm | hm
    · rcases List.mem_cons.1 hf with rfl | hf
      · exact hbelow l (.head _)
      · rw [List.mem_singleton.1 hf]
        exact hbelow r (.tail _ (.head _))
    · refine hrank m ?_ f hf
      rw [hadded.nodes]
      exact List.mem_append_right _ hm
    · exact hrank m (hsub (mem_outside.1 hm).1) f hf

/-! ## What a rebuild leaves alone -/

namespace Rebuilt

theorem mem_before (h : Rebuilt n n' root t t' others) {m : Node} :
    m ∈ n.nodes ↔ m ∈ t.nodes ∨ m ∈ others := by
  rw [h.before.mem_iff, List.mem_append]

theorem mem_after (h : Rebuilt n n' root t t' others) {m : Node} :
    m ∈ n'.nodes ↔ m ∈ t'.nodes ∨ m ∈ others := by
  rw [h.after.mem_iff, List.mem_append]

/-- The root behind the rebuild. -/
theorem root_after (h : Rebuilt n n' root t t' others) :
    ∃ fanins, t'.nodes = { root with fanins } :: t'.inner ∧
      t'.fanin = .plain root.output := by
  obtain ⟨fanins, l, r, rfl⟩ := h.top
  exact ⟨fanins, rfl, rfl⟩

/-- New signals differ from those that were taken. -/
theorem new_ne (h : Rebuilt n n' root t t' others) {s : String} (hs : n.isTaken s = true)
    (hd : d ∈ t'.inner) : d.output ≠ s := by
  rintro rfl
  rw [h.free d hd] at hs
  cases hs

/-- A tree reads its leaves and its inner nodes, each once. -/
theorem count_reads {b : Bracket} {root : Node} {s : String} (hwired : b.Wired)
    (hfanin : b.fanin = .plain root.output) (houtputs : b.nodes.map Node.output =
      root.output :: b.inner.map Node.output) :
    (readsOf b.nodes).count s =
      (b.leaves.map Fanin.signal).count s + (b.inner.map Node.output).count s := by
  have hcount := hwired.reads.count_eq s
  rw [hfanin, houtputs, List.count_append, Fanin.plain, List.count_cons, List.count_cons] at hcount
  dsimp only at hcount
  omega

theorem readCount_before (h : Rebuilt n n' root t t' others) (ht : TreeAt n root t) (s : String) :
    n.readCount s = (t.leaves.map Fanin.signal).count s + (t.inner.map Node.output).count s +
      (readsOf others).count s := by
  have houtputs : t.nodes.map Node.output = root.output :: t.inner.map Node.output := by
    rw [ht.nodes_eq, List.map_cons]
  rw [readCount, (readsOf_perm h.before).count_eq, readsOf_append, List.count_append,
    count_reads ht.wired ht.fanin_eq houtputs]

theorem readCount_after (h : Rebuilt n n' root t t' others) (s : String) :
    n'.readCount s = (t.leaves.map Fanin.signal).count s + (t'.inner.map Node.output).count s +
      (readsOf others).count s := by
  obtain ⟨fanins, hnodes, hfanin⟩ := h.root_after
  have houtputs : t'.nodes.map Node.output = root.output :: t'.inner.map Node.output := by
    rw [hnodes, List.map_cons]
  rw [readCount, (readsOf_perm h.after).count_eq, readsOf_append, List.count_append,
    count_reads h.wired hfanin houtputs, h.leaves]

/-- Signals other than those of the inner nodes are read as often as before. -/
theorem readCount_eq (h : Rebuilt n n' root t t' others) (ht : TreeAt n root t) {s : String}
    (hold : ∀ d ∈ t.inner, d.output ≠ s) (hnew : ∀ d ∈ t'.inner, d.output ≠ s) :
    n'.readCount s = n.readCount s := by
  have hzero : ∀ {ds : List Node}, (∀ d ∈ ds, d.output ≠ s) → (ds.map Node.output).count s = 0 := by
    intro ds hds
    refine List.count_eq_zero.2 fun hmem => ?_
    obtain ⟨d, hd, hs⟩ := List.mem_map.1 hmem
    exact hds d hd hs
  rw [h.readCount_after, h.readCount_before ht, hzero hold, hzero hnew]

variable (h : Rebuilt n n' root t t' others) (ht : TreeAt n root t) (hl : n.Legal)
  (hc : n.Coherent) (hroot : root ∈ n.nodes)

include h hc in
theorem others_notMem {m : Node} (hm : m ∈ others) : m ∉ t.nodes := by
  have hnodup := hc.nodes_nodup
  rw [h.before.nodup_iff, List.nodup_append] at hnodup
  exact fun hmt => hnodup.2.2 m hmt m hm rfl

include h ht hc hroot in
/-- The other nodes do not read the inner nodes of the tree. -/
theorem others_read {p : Node} (hp : p ∈ others) {f : Fanin} (hf : f ∈ p.fanins)
    (hd : d ∈ t.inner) : d.output ≠ f.signal := by
  intro hread
  refine h.others_notMem hc hp ?_
  exact ht.reader hc hroot hd (h.mem_before.2 (.inr hp)) hf hread.symm

include h ht hl hc hroot in
theorem others_output {p : Node} (hp : p ∈ others) (hd : d ∈ t.inner) : d.output ≠ p.output := by
  intro ho
  have hsame := List.inj_on_of_nodup_map hl.single (ht.inner_mem hroot hd)
    (h.mem_before.2 (.inr hp)) ho
  refine h.others_notMem hc hp ?_
  rw [ht.nodes_eq]
  exact .tail _ (hsame ▸ hd)

include ht hl hc hroot in
theorem root_output : ∀ d ∈ t.inner, d.output ≠ root.output := by
  intro d hd ho
  have hsame := List.inj_on_of_nodup_map hl.single (ht.inner_mem hroot hd) hroot ho
  exact ht.root_notMem_inner hl hc hroot (hsame ▸ hd)

include h ht in
/-- What is defined stays defined, up to the inner nodes of the tree. -/
theorem isDefined_after {s : String} (hs : n.isDefined s = true)
    (hinner : ∀ d ∈ t.inner, d.output ≠ s) : n'.isDefined s = true := by
  obtain ⟨fanins, hnodes, -⟩ := h.root_after
  rcases isDefined_iff.1 hs with ⟨m, hm, rfl⟩ | hin
  · rcases h.mem_before.1 hm with hm | hm
    · rw [ht.nodes_eq] at hm
      rcases List.mem_cons.1 hm with rfl | hm
      · have hmem : { m with fanins } ∈ n'.nodes :=
          h.mem_after.2 (.inl (hnodes ▸ List.mem_cons_self))
        have hdefined := isDefined_of_node hmem
        exact hdefined
      · exact absurd rfl (hinner m hm)
    · exact isDefined_of_node (h.mem_after.2 (.inr hm))
  · exact isDefined_of_input (h.inputs ▸ hin)

include ht hl hroot in
theorem leaf_defined {g : Fanin} (hg : g ∈ t.leaves) : n.isDefined g.signal = true := by
  obtain ⟨q, hq, hg'⟩ : ∃ q ∈ t.nodes, g ∈ q.fanins := by
    cases ht with
    | mk hfanins hleft hright => exact (TreeAt.mk hfanins hleft hright).wired.leaf_read hg
  exact hl.reads q (ht.like hroot hq).1 g hg'

include h ht hl hroot in
/-- Every signal has a single driver again. -/
theorem single_after : (n'.nodes.map Node.output).Nodup := by
  obtain ⟨fanins, hnodes, -⟩ := h.root_after
  have hsingle := hl.single
  rw [(h.before.map Node.output).nodup_iff, List.map_append, List.nodup_append] at hsingle
  rw [(h.after.map Node.output).nodup_iff, List.map_append, List.nodup_append]
  refine ⟨?_, hsingle.2.1, fun a ha b hb hab => ?_⟩
  · rw [hnodes, List.map_cons, List.nodup_cons]
    refine ⟨fun hmem => ?_, h.distinct⟩
    obtain ⟨d, hd, ho⟩ := List.mem_map.1 hmem
    exact h.new_ne (isTaken_of_isDefined (isDefined_of_node hroot)) hd ho
  · subst hab
    obtain ⟨m, hm, rfl⟩ := List.mem_map.1 ha
    rw [hnodes] at hm
    rcases List.mem_cons.1 hm with rfl | hm
    · exact hsingle.2.2 _ (List.mem_map_of_mem ht.root_mem) _ hb rfl
    · obtain ⟨e, he, ho⟩ := List.mem_map.1 hb
      have htaken := isTaken_of_isDefined (isDefined_of_node (h.mem_before.2 (.inr he)))
      exact h.new_ne htaken hm ho.symm

include h ht hl hc hroot in
/-- What a new node of the tree reads is a leaf or the output of another one. -/
theorem tree_read_defined {m : Node} (hm : m ∈ t'.nodes) {f : Fanin} (hf : f ∈ m.fanins) :
    n'.isDefined f.signal = true := by
  have hread : f.signal ∈ t'.fanin.signal :: readsOf t'.nodes :=
    .tail _ (mem_readsOf.2 ⟨m, hm, f, hf, rfl⟩)
  rw [h.wired.reads.mem_iff, List.mem_append, h.leaves] at hread
  rcases hread with hread | hread
  · obtain ⟨g, hg, hgs⟩ := List.mem_map.1 hread
    rw [← hgs]
    exact h.isDefined_after ht (leaf_defined ht hl hroot hg)
      fun d hd => (ht.leaf_ne hc hroot hg hd).symm
  · obtain ⟨d, hd, hds⟩ := List.mem_map.1 hread
    rw [← hds]
    exact isDefined_of_node (h.mem_after.2 (.inl hd))

include h ht hl hc hroot in
theorem legal (hkind : root.kind.isAssociative = true) : n'.Legal := by
  obtain ⟨fanins, hnodes, -⟩ := h.root_after
  obtain ⟨rank, hrank⟩ := h.ranked
  have htree : ∀ {m}, m ∈ t'.nodes → m = { root with fanins } ∨ m ∈ t'.inner := by
    intro m hm
    rw [hnodes] at hm
    exact List.mem_cons.1 hm
  constructor
  case arity =>
    intro m hm k hk
    rcases h.mem_after.1 hm with hm | hm
    · obtain ⟨x, y, hxy⟩ := h.wired.two_fanins hm
      have hmkind : m.kind = root.kind := by
        rcases htree hm with rfl | hm
        · rfl
        · exact h.kind m hm
      rw [hmkind, arity_of_associative hkind] at hk
      cases hk
      rw [hxy]
      rfl
    · exact hl.arity m (h.mem_before.2 (.inr hm)) k hk
  case reads =>
    intro m hm f hf
    rcases h.mem_after.1 hm with hm | hm
    · exact h.tree_read_defined ht hl hc hroot hm hf
    · exact h.isDefined_after ht (hl.reads m (h.mem_before.2 (.inr hm)) f hf)
        fun d hd => h.others_read ht hc hroot hm hf hd
  case single => exact h.single_after ht hl hroot
  case undriven =>
    intro m hm
    rw [h.inputs]
    rcases h.mem_after.1 hm with hm | hm
    · rcases htree hm with rfl | hm
      · exact hl.undriven root hroot
      · exact fun hin => h.new_ne (isTaken_of_isDefined (isDefined_of_input hin)) hm rfl
    · exact hl.undriven m (h.mem_before.2 (.inr hm))
  case driven =>
    intro o ho
    rw [h.outputs] at ho
    refine h.isDefined_after ht (hl.driven o ho) fun d hd hdo => ?_
    obtain ⟨q, -, g, -, hj⟩ := ht.joined hd
    exact hj.inner (hj.output ▸ hdo ▸ ho)
  case acyclic => exact hrank.acyclic

end Rebuilt

end Balancing

end GateSynth
