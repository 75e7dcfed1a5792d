import GateSynth.Proofs.Optimize.Rebuilding
import GateSynth.Proofs.Optimize.Weights

/-!
# Balancing trees

After a rebuild the new tree is as flat as can be and the trees of all other nodes are what they
were, so one tree less is too deep (`Rebuilt.deep`). The roots of a pass are visited from drivers to
readers with the fanout from before the pass, which is right about every node that no rebuild has
touched (`Underway`). When the pass is done no tree is too deep, and the netlist weighs what it did
(`Legal.balanceTrees_balanced`).
-/

namespace GateSynth

open Netlist

namespace Balancing

variable {n n' : Netlist} {root d p q : Node} {f : Fanin} {t t' b : Bracket} {others : List Node}

/-- The node is the root of a tree that is deeper than it needs to be. -/
structure Deep (n : Netlist) (root : Node) : Prop where
  mem : root ∈ n.nodes
  kind : root.kind.isAssociative = true
  top : ¬ Absorbed n root
  deep : ∃ t, TreeAt n root t ∧ minDepth t.leaves.length < t.depth

/-! ## Stored wires

Trees do not depend on the wires that are stored. -/

theorem joins_rebuildWires : Joins n.rebuildWires p f d ↔ Joins n p f d :=
  ⟨fun h => ⟨h.mem, h.output, h.plain, h.kind, h.width, h.once, h.inner⟩,
    fun h => ⟨h.mem, h.output, h.plain, h.kind, h.width, h.once, h.inner⟩⟩

theorem Grown.of_rebuildWires (h : Grown n.rebuildWires p f b) : Grown n p f b := by
  induction h with
  | leaf hnone => exact .leaf fun d hj => hnone d (joins_rebuildWires.2 hj)
  | join hjoins hfanins _ _ ihl ihr => exact .join (joins_rebuildWires.1 hjoins) hfanins ihl ihr

theorem Deep.of_rebuildWires (h : Deep n.rebuildWires q) : Deep n q := by
  obtain ⟨b, hb, hdeep⟩ := h.deep
  refine ⟨h.mem, h.kind, fun ⟨p, hp, f, hf, hj⟩ => ?_, b, ?_, hdeep⟩
  · exact h.top ⟨p, hp, f, hf, joins_rebuildWires.2 hj⟩
  · cases hb with
    | mk hfanins hleft hright => exact .mk hfanins hleft.of_rebuildWires hright.of_rebuildWires

/-! ## Trees behind a rebuild -/

namespace Rebuilt

variable (h : Rebuilt n n' root t t' others) (ht : TreeAt n root t) (hl : n.Legal)
  (hc : n.Coherent) (hroot : root ∈ n.nodes)

include h hl in
theorem new_ne_read (hm : p ∈ n.nodes) (hf : f ∈ p.fanins) (hd : d ∈ t'.inner) :
    d.output ≠ f.signal :=
  h.new_ne (isTaken_of_isDefined (hl.reads p hm f hf)) hd

include h ht hl hc hroot in
theorem width_others (hp : p ∈ others) : n'.width p.output = n.width p.output :=
  h.width _ (isTaken_of_isDefined (isDefined_of_node (h.mem_before.2 (.inr hp))))
    fun _ hd => h.others_output ht hl hc hroot hp hd

include h ht hl hc hroot in
theorem width_tree (hp : p ∈ t'.nodes) : n'.width p.output = n.width root.output := by
  obtain ⟨fanins, hnodes, -⟩ := h.root_after
  rw [hnodes] at hp
  rcases List.mem_cons.1 hp with rfl | hp
  · have hwidth := h.width root.output (isTaken_of_isDefined (isDefined_of_node hroot))
      (root_output ht hl hc hroot)
    exact hwidth
  · exact h.width_new p hp

include h in
theorem kind_tree (hp : p ∈ t'.nodes) : p.kind = root.kind := by
  obtain ⟨fanins, hnodes, -⟩ := h.root_after
  rw [hnodes] at hp
  rcases List.mem_cons.1 hp with rfl | hp
  · rfl
  · exact h.kind p hp

include h ht hl hc hroot in
/-- What the other nodes read is read as often as before. -/
theorem readCount_others (hp : p ∈ others) (hf : f ∈ p.fanins) :
    n'.readCount f.signal = n.readCount f.signal :=
  h.readCount_eq ht (fun _ hd => h.others_read ht hc hroot hp hf hd)
    fun _ hd => h.new_ne_read hl (h.mem_before.2 (.inr hp)) hf hd

include h ht hl hc hroot in
/-- The same nodes join the others. -/
theorem joins_iff (htop : ¬ Absorbed n root) (hp : p ∈ others) (hf : f ∈ p.fanins) :
    Joins n' p f d ↔ d ∈ others ∧ Joins n p f d := by
  have hpn := h.mem_before.2 (.inr hp)
  have hwidth := h.width_others ht hl hc hroot hp
  have hcount := h.readCount_others ht hl hc hroot hp hf
  constructor
  · rintro ⟨hm, ho, hplain, hkind, hw, honce, hinner⟩
    rcases h.mem_after.1 hm with hm | hm
    · obtain ⟨fanins, hnodes, -⟩ := h.root_after
      rw [h.width_tree ht hl hc hroot hm, hwidth] at hw
      rw [hnodes] at hm
      rcases List.mem_cons.1 hm with rfl | hm
      · exact absurd ⟨p, hpn, f, hf, hroot, ho, hplain, hkind, hw, hcount ▸ honce,
          h.outputs ▸ hinner⟩ htop
      · exact absurd ho (h.new_ne_read hl hpn hf hm)
    · rw [h.width_others ht hl hc hroot hm, hwidth] at hw
      exact ⟨hm, h.mem_before.2 (.inr hm), ho, hplain, hkind, hw, hcount ▸ honce,
        h.outputs ▸ hinner⟩
  · rintro ⟨hm, hj⟩
    refine ⟨h.mem_after.2 (.inr hm), hj.output, hj.plain, hj.kind, ?_, hcount ▸ hj.once,
      h.outputs.symm ▸ hj.inner⟩
    rw [h.width_others ht hl hc hroot hm, hwidth, hj.width]

include h ht hc hroot in
/-- What joins one of the others is one of them, if the root joins nothing. -/
theorem others_of_joins (htop : ¬ Absorbed n root) (hp : p ∈ others) (hf : f ∈ p.fanins)
    (hj : Joins n p f d) : d ∈ others := by
  rcases h.mem_before.1 hj.mem with hm | hm
  · rw [ht.nodes_eq] at hm
    rcases List.mem_cons.1 hm with rfl | hm
    · exact absurd ⟨p, h.mem_before.2 (.inr hp), f, hf, hj⟩ htop
    · exact absurd hj.output (h.others_read ht hc hroot hp hf hm)
  · exact hm

include h ht hl hc hroot in
theorem grown_before (htop : ¬ Absorbed n root) (hgrown : Grown n' p f b) (hp : p ∈ others)
    (hf : f ∈ p.fanins) : Grown n p f b := by
  induction hgrown with
  | leaf hnone =>
    refine .leaf fun d hj => hnone d ?_
    exact (h.joins_iff ht hl hc hroot htop hp hf).2
      ⟨h.others_of_joins ht hc hroot htop hp hf hj, hj⟩
  | join hjoins hfanins _ _ ihl ihr =>
    obtain ⟨hd, hj⟩ := (h.joins_iff ht hl hc hroot htop hp hf).1 hjoins
    exact .join hj hfanins (ihl hd (by rw [hfanins]; exact .head _))
      (ihr hd (by rw [hfanins]; exact .tail _ (.head _)))

include h ht hl hc hroot in
theorem treeAt_before (htop : ¬ Absorbed n root) (htree : TreeAt n' p b) (hp : p ∈ others) :
    TreeAt n p b := by
  cases htree with
  | mk hfanins hleft hright =>
    exact .mk hfanins
      (h.grown_before ht hl hc hroot htop hleft hp (by rw [hfanins]; exact .head _))
      (h.grown_before ht hl hc hroot htop hright hp (by rw [hfanins]; exact .tail _ (.head _)))

/-! ### The new tree -/

include h ht hl hc hroot in
/-- A new node joins the node of the tree that reads it. -/
theorem joins_new (hp : p ∈ t'.nodes) (hd : d ∈ t'.inner) :
    Joins n' p (.plain d.output) d := by
  obtain ⟨fanins, hnodes, -⟩ := h.root_after
  have hdt : d ∈ t'.nodes := by
    rw [hnodes]
    exact .tail _ hd
  refine ⟨h.mem_after.2 (.inl hdt), rfl, rfl, (h.kind_tree hdt).trans (h.kind_tree hp).symm, ?_, ?_,
    fun hout => ?_⟩
  · rw [h.width_tree ht hl hc hroot hdt, h.width_tree ht hl hc hroot hp]
  · have hleaves : (t.leaves.map Fanin.signal).count d.output = 0 := by
      refine List.count_eq_zero.2 fun hmem => ?_
      obtain ⟨g, hg, hread⟩ := List.mem_map.1 hmem
      exact h.new_ne (isTaken_of_isDefined (leaf_defined ht hl hroot hg)) hd hread.symm
    have hothers : (readsOf others).count d.output = 0 := by
      refine List.count_eq_zero.2 fun hmem => ?_
      obtain ⟨m, hm, f, hf, hread⟩ := mem_readsOf.1 hmem
      exact h.new_ne_read hl (h.mem_before.2 (.inr hm)) hf hd hread.symm
    show n'.readCount d.output = 1
    rw [h.readCount_after, hleaves, hothers,
      List.count_eq_one_of_mem h.distinct (List.mem_map_of_mem hd)]
  · rw [h.outputs] at hout
    exact h.new_ne (isTaken_of_isDefined (hl.driven _ hout)) hd rfl

include h ht hl hc hroot in
/-- Nothing joins a leaf: it would have joined before. -/
theorem leaf_free {g : Fanin} (hp : p ∈ t'.nodes) (hg : g ∈ t.leaves) : ¬ Joins n' p g d := by
  intro hj
  have htaken := isTaken_of_isDefined (leaf_defined ht hl hroot hg)
  have hw := hj.width
  rw [h.width_tree ht hl hc hroot hp] at hw
  have hcount : n'.readCount g.signal = n.readCount g.signal :=
    h.readCount_eq ht (fun _ hd => (ht.leaf_ne hc hroot hg hd).symm) fun _ hd => h.new_ne htaken hd
  rcases h.mem_after.1 hj.mem with hm | hm
  · obtain ⟨fanins, hnodes, -⟩ := h.root_after
    rw [hnodes] at hm
    rcases List.mem_cons.1 hm with rfl | hm
    · obtain ⟨rank, hrank⟩ := hl.acyclic.ranked
      have hlt := (ht.falls hrank (fun _ _ _ _ _ hjoins => hjoins.mem) hroot).2 g hg
      rw [← hj.output] at hlt
      exact Nat.lt_irrefl _ hlt
    · exact h.new_ne htaken hm hj.output
  · rw [h.width_others ht hl hc hroot hm] at hw
    exact ht.leaf_free hg ⟨h.mem_before.2 (.inr hm), hj.output, hj.plain,
      hj.kind.trans (h.kind_tree hp), hw, hcount ▸ hj.once, h.outputs ▸ hj.inner⟩

include h ht hl hc hroot in
theorem grown_after (hp : p ∈ t'.nodes) (hwired : b.Wired) (hnodes : b.nodes ⊆ t'.inner)
    (hleaves : b.leaves ⊆ t.leaves) : Grown n' p b.fanin b := by
  induction b generalizing p with
  | leaf g => exact .leaf fun d => h.leaf_free ht hl hc hroot hp (hleaves (.head _))
  | join node l r ihl ihr =>
    obtain ⟨hfanins, hl', hr'⟩ := hwired
    have hnode : node ∈ t'.inner := hnodes (.head _)
    have hmem : node ∈ t'.nodes := by
      obtain ⟨fanins, hroot', -⟩ := h.root_after
      rw [hroot']
      exact .tail _ hnode
    refine .join (h.joins_new ht hl hc hroot hp hnode) hfanins (ihl hmem hl' ?_ ?_)
      (ihr hmem hr' ?_ ?_)
    · exact fun m hm => hnodes (.tail _ (List.mem_append_left _ hm))
    · exact fun g hg => hleaves (List.mem_append_left _ hg)
    · exact fun m hm => hnodes (.tail _ (List.mem_append_right _ hm))
    · exact fun g hg => hleaves (List.mem_append_right _ hg)

include h ht hl hc hroot in
/-- The bracket that was built is the tree of the root. -/
theorem treeAt_after : ∃ fanins, t'.nodes = { root with fanins } :: t'.inner ∧
    TreeAt n' { root with fanins } t' := by
  obtain ⟨fanins, l, r, htop⟩ := h.top
  have hwired := h.wired
  have hleaves : t'.leaves ⊆ t.leaves := fun g hg => h.leaves ▸ hg
  have hgrown : ∀ {b}, b.Wired → b.nodes ⊆ t'.inner → b.leaves ⊆ t.leaves →
      Grown n' { root with fanins } b.fanin b :=
    h.grown_after ht hl hc hroot (by rw [htop]; exact .head _)
  rw [htop] at hwired hleaves hgrown ⊢
  obtain ⟨hfanins, hwl, hwr⟩ := hwired
  refine ⟨fanins, rfl, .mk hfanins (hgrown hwl ?_ ?_) (hgrown hwr ?_ ?_)⟩
  · exact List.subset_append_left _ _
  · exact fun g hg => hleaves (List.mem_append_left _ hg)
  · exact List.subset_append_right _ _
  · exact fun g hg => hleaves (List.mem_append_right _ hg)

include h ht hl hc hroot in
/-- Of the other nodes the same ones are parts of trees. -/
theorem absorbed_iff (hkind : root.kind.isAssociative = true) (htop : ¬ Absorbed n root)
    (hq : q ∈ others) : Absorbed n' q ↔ Absorbed n q := by
  obtain ⟨fanins, -, htree⟩ := h.treeAt_after ht hl hc hroot
  have hqn := h.mem_before.2 (.inr hq)
  constructor
  · rintro ⟨p, hp, f, hf, hj⟩
    rcases h.mem_after.1 hp with hp | hp
    · have hinner := htree.complete (h.legal ht hl hc hroot hkind) hp hf hj
      exact absurd rfl (h.new_ne (isTaken_of_isDefined (isDefined_of_node hqn)) hinner)
    · exact ⟨p, h.mem_before.2 (.inr hp), f, hf,
        ((h.joins_iff ht hl hc hroot htop hp hf).1 hj).2⟩
  · rintro ⟨p, hp, f, hf, hj⟩
    rcases h.mem_before.1 hp with hp | hp
    · refine absurd ?_ (h.others_notMem hc hq)
      rw [ht.nodes_eq]
      exact .tail _ (ht.complete hl hp hf hj)
    · exact ⟨p, h.mem_after.2 (.inr hp), f, hf,
        (h.joins_iff ht hl hc hroot htop hp hf).2 ⟨hq, hj⟩⟩

include h ht hl hc hroot in
/-- The trees that are too deep after a rebuild were so before, and the new one is not among
them. -/
theorem deep (hkind : root.kind.isAssociative = true) (htop : ¬ Absorbed n root)
    (hq : Deep n' q) : q ∈ others ∧ Deep n q := by
  obtain ⟨b, hb, hdeep⟩ := hq.deep
  rcases h.mem_after.1 hq.mem with hm | hm
  · exfalso
    obtain ⟨fanins, hnodes, htree⟩ := h.treeAt_after ht hl hc hroot
    have hroot' : { root with fanins } ∈ n'.nodes := h.mem_after.2 (.inl htree.root_mem)
    rw [hnodes] at hm
    rcases List.mem_cons.1 hm with rfl | hm
    · have hsame := hb.unique (h.legal ht hl hc hroot hkind).single htree
      have hflat := h.depth
      rw [← h.leaves] at hflat
      rw [hsame] at hdeep
      omega
    · exact hq.top (htree.absorbed hroot' hm)
  · exact ⟨hm, h.mem_before.2 (.inr hm), hq.kind,
      fun habsorbed => hq.top ((h.absorbed_iff ht hl hc hroot hkind htop hm).2 habsorbed), b,
      h.treeAt_before ht hl hc hroot htop hb hm, hdeep⟩

/-! ### What the rebuild keeps -/

include h ht hl hroot in
theorem width_port {port : String} (hport : port ∈ n.inputs ∨ port ∈ n.outputs) :
    n'.width port = n.width port := by
  rcases hport with hport | hport
  · refine h.width port (isTaken_of_isDefined (isDefined_of_input hport)) fun d hd ho => ?_
    exact hl.undriven d (ht.inner_mem hroot hd) (ho ▸ hport)
  · refine h.width port (isTaken_of_isDefined (hl.driven port hport)) fun d hd ho => ?_
    obtain ⟨q, -, g, -, hj⟩ := ht.joined hd
    exact hj.inner (hj.output ▸ ho ▸ hport)

include h in
theorem length_nodes : t'.nodes.length = t.nodes.length := by
  have hold := t.length_leaves
  have hnew := t'.length_leaves
  rw [h.leaves] at hnew
  omega

include h ht hl hc hroot in
theorem preserved (hkind : root.kind.isAssociative = true) : Preserved n n' := by
  refine ⟨h.coherent, h.legal ht hl hc hroot hkind, h.name, h.inputs, h.outputs,
    fun _ => h.width_port ht hl hroot, ?_⟩
  rw [nodeCount, nodeCount, h.before.length_eq, h.after.length_eq, List.length_append,
    List.length_append, h.length_nodes]

include h ht hl hc hroot in
theorem cost_eq (hkind : root.kind.isAssociative = true) : n'.cost = n.cost := by
  have htree : ∀ {m : Netlist} {nodes : List Node}, (∀ p ∈ nodes, p.kind = root.kind) →
      (nodes.map m.weight).sum = nodes.length * 4 := by
    intro m nodes hnodes
    rw [List.map_congr_left fun p hp => weight_of_associative (hnodes p hp ▸ hkind),
      List.map_const', List.sum_replicate_nat]
  have hothers : others.map n'.weight = others.map n.weight :=
    List.map_congr_left fun p hp => weight_congr h.outputs (h.width_others ht hl hc hroot hp)
  rw [cost, cost, (h.after.map _).sum_eq, (h.before.map _).sum_eq, List.map_append, List.map_append,
    List.sum_append, List.sum_append, hothers, htree fun _ hp => h.kind_tree hp,
    htree fun _ hp => (ht.like hroot hp).2.1, h.length_nodes]

include h ht hl hroot in
theorem constantPort (hkind : root.kind.isAssociative = true) {value : Word} {w : Width}
    {port : String} (hport : ConstantPort n value w port) : ConstantPort n' value w port := by
  refine hport.of_nodes h.outputs (fun _ ho => h.width_port ht hl hroot (.inr ho))
    fun m hm _ hother => ?_
  rcases h.mem_before.1 hm with hm | hm
  · rw [(ht.like hroot hm).2.1, hkind] at hother
    cases hother
  · exact h.mem_after.2 (.inr hm)

end Rebuilt

/-- Building one tree of a netlist in order anew. -/
inductive Rebuilds (n : Netlist) : Netlist → Prop
  | mk {root : Node} {t t' : Bracket} {n' : Netlist} (hl : n.Legal) (hc : n.Coherent)
      (hroot : root ∈ n.nodes) (hkind : root.kind.isAssociative = true) (htop : ¬ Absorbed n root)
      (ht : TreeAt n root t) (hr : Rebuilt n n' root t t' (outside n t)) : Rebuilds n n'

/-! ## The pass under way -/

variable {n₀ : Netlist} {order done rest : List NodeId} {P : Node → Prop}

/-- The roots of `rest` are still to be visited. The nodes of which `P` holds are as they were when
the fanout was computed, and so is who reads them and what they read. -/
structure Underway (n₀ n : Netlist) (P : Node → Prop) (rest : List NodeId) : Prop where
  preserved : Preserved n₀ n
  cost : n.cost = n₀.cost
  mem : ∀ p, P p → p ∈ n.nodes ∧ p ∈ n₀.nodes
  reads : ∀ p, P p → ∀ f ∈ p.fanins, n.readCount f.signal = n₀.readCount f.signal
  output : ∀ p, P p → n.readCount p.output = n₀.readCount p.output
  closed : ∀ p f d, P p → f ∈ p.fanins → Joins n p f d → P d
  waiting : ∀ p ∈ n₀.nodes, p.id ∈ rest → P p
  deep : ∀ q, Deep n q → q.id ∈ rest
  constantPort : ∀ value w port, ConstantPort n₀ value w port → ConstantPort n value w port

theorem Underway.start (hl : n.Legal) (hc : n.Coherent) (horder : n.topoOrder = .ok order) :
    Underway n n (· ∈ n.nodes) order :=
  ⟨.refl hc hl, rfl, fun _ hp => ⟨hp, hp⟩, fun _ _ _ _ => rfl, fun _ _ => rfl,
    fun _ _ _ _ _ hj => hj.mem, fun _ hp _ => hp,
    fun _ hq => (hc.perm_of_topoOrder horder).mem_iff.2 (List.mem_map_of_mem hq.mem),
    fun _ _ _ hport => hport⟩

/-- What comes later in an order is placed higher. -/
theorem mem_rest_iff (hl : n.Legal) (hc : n.Coherent) (horder : n.topoOrder = .ok order)
    (hsplit : order = done ++ root.id :: rest) (hroot : root ∈ n.nodes) (hp : p ∈ n.nodes) :
    p.id ∈ rest ↔ n.placeIn order root.output < n.placeIn order p.output := by
  have hnodup := hc.nodup_of_topoOrder horder
  have hmem : p.id ∈ order := (hc.perm_of_topoOrder horder).mem_iff.2 (List.mem_map_of_mem hp)
  rw [placeIn_output hl.single hroot, placeIn_output hl.single hp, Nat.add_lt_add_iff_right]
  rw [hsplit, List.nodup_append, List.nodup_cons] at hnodup
  obtain ⟨-, ⟨hlast, -⟩, hapart⟩ := hnodup
  have hplace : order.idxOf root.id = done.length := by
    rw [hsplit, List.idxOf_append_of_notMem fun hin => hapart _ hin _ (.head _) rfl,
      List.idxOf_cons_self, Nat.add_zero]
  rw [hplace]
  constructor
  · intro hrest
    have hne : root.id ≠ p.id := fun hid => hlast (hid ▸ hrest)
    rw [hsplit, List.idxOf_append_of_notMem fun hin => hapart _ hin _ (.tail _ hrest) rfl,
      List.idxOf_cons_ne _ hne]
    omega
  · intro hlt
    rw [hsplit, List.mem_append, List.mem_cons] at hmem
    rcases hmem with hin | hid | hin
    · have hle := List.idxOf_lt_length_of_mem hin
      rw [hsplit, List.idxOf_append_of_mem hin] at hlt
      omega
    · rw [hid, hplace] at hlt
      omega
    · exact hin

namespace Underway

variable (h : Underway n₀ n P (root.id :: rest)) (hl : n₀.Legal) (hc : n₀.Coherent)
  (horder : n₀.topoOrder = .ok order) (hsplit : order = done ++ root.id :: rest)
  (hroot : root ∈ n₀.nodes)

include h in
/-- The fanout is right about the fanins of the nodes that are as they were. -/
theorem agrees (hp : P p) : Agrees n n₀.fanout p := by
  intro f hf
  rw [singleConsumer?_iff (h.mem p hp).2 hf, h.reads p hp f hf, h.preserved.outputs]

include h hl hc horder hsplit hroot in
/-- The fanout is right about the readers of the root too: readers come later, so they are as they
were. -/
theorem agrees_readers (hp : p ∈ n.nodes) (hf : f ∈ p.fanins) (hread : f.signal = root.output) :
    n₀.fanout.singleConsumer? f.signal = some p.id ↔
      n.readCount f.signal = 1 ∧ f.signal ∉ n.outputs := by
  have hcount := h.output root (h.waiting root hroot (.head _))
  rw [hread, h.preserved.outputs, hcount]
  constructor
  · intro hsingle
    obtain ⟨honce, hinner, -⟩ := singleConsumer?_eq_some hsingle
    exact ⟨honce, hinner⟩
  · rintro ⟨honce, hinner⟩
    obtain ⟨q, hq, g, hg, hgread⟩ : ∃ q ∈ n₀.nodes, ∃ g ∈ q.fanins, g.signal = root.output := by
      have hpos : 0 < n₀.readCount root.output := by omega
      exact mem_readsOf.1 (List.count_pos_iff.1 hpos)
    have hlater : q.id ∈ rest := by
      refine (mem_rest_iff hl hc horder hsplit hroot hq).2 ?_
      rw [← hgread]
      exact hc.ranked_placeIn hl.single horder q hq g hg
    have hqn := (h.mem q (h.waiting q hq (.tail _ hlater))).1
    obtain ⟨i, hi⟩ := List.mem_iff_getElem?.1 hf
    obtain ⟨j, hj⟩ := List.mem_iff_getElem?.1 hg
    rw [(reader_unique (hcount.trans honce) hp hi hread hqn hj hgread).1, ← hgread]
    exact (singleConsumer?_iff hq hg).2 (hgread ▸ ⟨honce, hinner⟩)

include h hl hc horder hsplit hroot in
/-- The pass sees whether the root is part of another tree. -/
theorem isAbsorbed_iff : isAbsorbed n n₀.fanout root = true ↔ Absorbed n root :=
  Balancing.isAbsorbed_iff h.preserved.legal h.preserved.coherent
    (h.mem root (h.waiting root hroot (.head _))).1
    fun _ hp _ hf => h.agrees_readers hl hc horder hsplit hroot hp hf

include h hroot in
/-- The pass sees the tree of the root. -/
theorem collectTree_spec (ht : TreeAt n root t) :
    (collectTree n n₀.fanout root.id).leaves = t.leaves ∧
      (collectTree n n₀.fanout root.id).internal.Perm (t.inner.map Node.id) ∧
      (collectTree n n₀.fanout root.id).depth = t.depth :=
  Balancing.collectTree_spec h.preserved.legal h.preserved.coherent (fun m hm => (h.mem m hm).1)
    (fun _ hm => h.agrees hm) h.closed ht (h.waiting root hroot (.head _))

include h in
/-- A root whose tree is flat enough is done with. -/
theorem skip (hflat : ¬ Deep n root) (hmem : root ∈ n.nodes) : Underway n₀ n P rest where
  preserved := h.preserved
  cost := h.cost
  mem := h.mem
  reads := h.reads
  output := h.output
  closed := h.closed
  waiting p hp hid := h.waiting p hp (.tail _ hid)
  deep q hq := by
    rcases List.mem_cons.1 (h.deep q hq) with hid | hid
    · exact absurd (h.preserved.coherent.eq_of_id hq.mem hmem hid ▸ hq) hflat
    · exact hid
  constantPort := h.constantPort

include h hl hc horder hsplit hroot in
/-- Building the tree of the root anew touches no node that comes later. -/
theorem rebuilt (ht : TreeAt n root t) (hkind : root.kind.isAssociative = true)
    (htop : ¬ Absorbed n root) (hr : Rebuilt n n' root t t' others) :
    Underway n₀ n' (fun p => P p ∧ p ∈ others) rest := by
  have hP := h.waiting root hroot (.head _)
  obtain ⟨hmem, -⟩ := h.mem root hP
  have hcn := h.preserved.coherent
  have hln := h.preserved.legal
  constructor
  case preserved => exact h.preserved.trans (hr.preserved ht hln hcn hmem hkind)
  case cost => exact (hr.cost_eq ht hln hcn hmem hkind).trans h.cost
  case mem => exact fun p hp => ⟨hr.mem_after.2 (.inr hp.2), (h.mem p hp.1).2⟩
  case reads =>
    intro p hp f hf
    rw [hr.readCount_others ht hln hcn hmem hp.2 hf, h.reads p hp.1 f hf]
  case output =>
    intro p hp
    rw [← h.output p hp.1]
    refine hr.readCount_eq ht (fun _ hd => hr.others_output ht hln hcn hmem hp.2 hd)
      fun _ hd => hr.new_ne ?_ hd
    exact isTaken_of_isDefined (isDefined_of_node (h.mem p hp.1).1)
  case closed =>
    intro p f d hp hf hj
    obtain ⟨hd, hj⟩ := (hr.joins_iff ht hln hcn hmem htop hp.2 hf).1 hj
    exact ⟨h.closed p f d hp.1 hf hj, hd⟩
  case waiting =>
    intro p hp hid
    have hPp := h.waiting p hp (.tail _ hid)
    refine ⟨hPp, (hr.mem_before.1 (h.mem p hPp).1).resolve_left fun htree => ?_⟩
    have hlater := (mem_rest_iff hl hc horder hsplit hroot hp).1 hid
    rw [ht.nodes_eq] at htree
    rcases List.mem_cons.1 htree with rfl | hinner
    · omega
    · have hfalls := ht.falls
        (fun m hm => hc.ranked_placeIn hl.single horder m (h.mem m hm).2) h.closed hP
      have hlt := (hfalls.1 p hinner).2
      omega
  case deep =>
    intro q hq
    obtain ⟨hother, hdeep⟩ := hr.deep ht hln hcn hmem hkind htop hq
    rcases List.mem_cons.1 (h.deep q hdeep) with hid | hid
    · have hsame := hcn.eq_of_id hdeep.mem hmem hid
      exact absurd (hsame ▸ ht.root_mem) (hr.others_notMem hcn hother)
    · exact hid
  case constantPort =>
    exact fun value w port hport =>
      hr.constantPort ht hln hmem hkind (h.constantPort _ _ _ hport)

include h hl hc horder hsplit hroot in
/-- One visit: the tree of the root is built anew exactly if it is too deep. -/
theorem visit (k : Nat) :
    (¬ Deep n root ∧ balanceRoots n₀.fanout (root.id :: rest) n k =
        balanceRoots n₀.fanout rest n k ∧ Underway n₀ n P rest) ∨
      (Deep n root ∧ ∃ n' P', balanceRoots n₀.fanout (root.id :: rest) n k =
        balanceRoots n₀.fanout rest n' (k + 1) ∧ Rebuilds n n' ∧ Underway n₀ n' P' rest) := by
  obtain ⟨hmem, -⟩ := h.mem root (h.waiting root hroot (.head _))
  have hcn := h.preserved.coherent
  have hln := h.preserved.legal
  have habsorbed := h.isAbsorbed_iff hl hc horder hsplit hroot
  rw [balanceRoots, hcn.node?_of_mem hmem]
  dsimp only
  split
  · next hcond =>
    rw [Bool.and_eq_true, Bool.not_eq_true', Bool.eq_false_iff, ne_eq, habsorbed] at hcond
    obtain ⟨hkind, htop⟩ := hcond
    obtain ⟨t, ht⟩ := exists_treeAt hln hmem hkind
    obtain ⟨hleaves, hinternal, hdepth⟩ := h.collectTree_spec hroot ht
    rw [hleaves, hdepth]
    split
    · next hle =>
      have hflat : ¬ Deep n root := by
        rintro ⟨-, -, -, b, hb, hdeep⟩
        rw [hb.unique hln.single ht] at hdeep
        omega
      exact .inl ⟨hflat, rfl, h.skip hflat hmem⟩
    · next hgt =>
      obtain ⟨n', t', hrebuild, hrebuilt⟩ := rebuild_spec ht hln hcn hmem hkind hleaves hinternal
      rw [hrebuild]
      exact .inr ⟨⟨hmem, hkind, htop, t, ht, by omega⟩, n', _, rfl,
        .mk hln hcn hmem hkind htop ht hrebuilt,
        h.rebuilt hl hc horder hsplit hroot ht hkind htop hrebuilt⟩
  · next hcond =>
    rw [Bool.and_eq_true, Bool.not_eq_true', Bool.eq_false_iff, ne_eq, habsorbed] at hcond
    have hflat : ¬ Deep n root := fun hdeep => hcond ⟨hdeep.kind, hdeep.top⟩
    exact .inl ⟨hflat, rfl, h.skip hflat hmem⟩

end Underway

/-- The pass visits all roots, and counts those of trees that are too deep. -/
theorem balanceRoots_spec (hl : n₀.Legal) (hc : n₀.Coherent) (horder : n₀.topoOrder = .ok order)
    (hsplit : order = done ++ rest) (h : Underway n₀ n P rest) (k : Nat) :
    ∃ n' c P', balanceRoots n₀.fanout rest n k = (n', .ok c) ∧ Underway n₀ n' P' [] ∧
      Relation.ReflTransGen Rebuilds n n' ∧ k ≤ c ∧ (c = k → n' = n) ∧
      ((∀ q, ¬ Deep n q) → c = k) := by
  induction rest generalizing done n P k with
  | nil => exact ⟨n, k, P, rfl, h, .refl, Nat.le_refl k, fun _ => rfl, fun _ => rfl⟩
  | cons id rest ih =>
    have hid : id ∈ n₀.nodeIds := by
      rw [← (hc.perm_of_topoOrder horder).mem_iff, hsplit]
      exact List.mem_append_right _ (.head _)
    obtain ⟨root, hroot, rfl⟩ := List.mem_map.1 hid
    have hnext : order = (done ++ [root.id]) ++ rest := by
      rw [hsplit, List.append_assoc]
      rfl
    rcases h.visit hl hc horder hsplit hroot k with ⟨-, heq, h'⟩ | ⟨hdeep, n', P', heq, hstep, h'⟩
    · rw [heq]
      exact ih hnext h' k
    · rw [heq]
      obtain ⟨n'', c, P'', hrun, hend, hsteps, hle, -, -⟩ := ih hnext h' (k + 1)
      exact ⟨n'', c, P'', hrun, hend, .head hstep hsteps, by omega, fun hck => by omega,
        fun hnone => absurd hdeep (hnone root)⟩

end Balancing

namespace Netlist

variable {n n' : Netlist} {changes : Nat}

/-- What balancing leaves behind. -/
structure Balanced (n n' : Netlist) (changes : Nat) : Prop where
  preserved : Preserved n n'
  /-- Trees are built anew one by one. -/
  steps : Relation.ReflTransGen Balancing.Rebuilds n n'
  cost : n'.cost = n.cost
  flat : ∀ q, ¬ Balancing.Deep n' q
  same : changes = 0 → n' = n
  settled : (∀ q, ¬ Balancing.Deep n q) → changes = 0
  locked : n.Locked → n'.Locked

/-- Balancing succeeds, and no tree stays too deep. -/
theorem Legal.balanceTrees_balanced (hl : n.Legal) (hc : n.Coherent) :
    ∃ n' changes, n.balanceTrees = (n', .ok changes) ∧ Balanced n n' changes := by
  obtain ⟨order, horder⟩ := hl.topoOrder hc
  obtain ⟨n', c, P, hrun, hend, hsteps, -, hsame, hsettled⟩ :=
    Balancing.balanceRoots_spec hl hc horder (List.nil_append order).symm (.start hl hc horder) 0
  refine ⟨n', c, ?_, hend.preserved, hsteps, hend.cost, fun q hq => ?_, hsame, hsettled,
    fun hlocked => hlocked.imp hend.constantPort⟩
  · rw [balanceTrees, horder]
    exact hrun
  · have hnone := hend.deep q hq
    cases hnone

end Netlist

end GateSynth
