import GateSynth.Proofs.Optimize.BalancedValues
import Mathlib.Order.Bounds.Basic

/-!
# Balanced trees

No bracket over `k` fanins is less deep than `minDepth k`, the least `d` with `k ≤ 2 ^ d`
(`minDepth_isLeast`, `Bracket.minDepth_le`). A rebuild keeps which nodes are the roots of trees and
the leaves below each of them (`Rebuilt.sameTrees`), since it neither joins the tree that it builds
to another one nor takes a node of another one away. So when no tree is too deep, the trees are
those of the netlist before, each of the least depth that its leaves allow
(`balanceTrees_flattens`).
-/

namespace GateSynth

open Netlist

namespace Balancing

variable {n n' n'' : Netlist} {root q : Node} {t t' : Bracket} {others : List Node}

/-! ## The least depth -/

theorem minDepth_le_iff {k d : Nat} : minDepth k ≤ d ↔ k ≤ 2 ^ d := by
  rw [minDepth]
  split
  · next hsmall => exact iff_of_true (Nat.zero_le d) (hsmall.trans Nat.one_le_two_pow)
  · next hlarge =>
    have hlog := Nat.log2_lt (n := k - 1) (k := d) (by omega)
    omega

/-- With two-input nodes `k` fanins fit below a depth `d` if `k ≤ 2 ^ d`. -/
theorem minDepth_isLeast (k : Nat) : IsLeast {d | k ≤ 2 ^ d} (minDepth k) :=
  ⟨minDepth_le_iff.1 (Nat.le_refl _), fun _ hd => minDepth_le_iff.2 hd⟩

theorem Bracket.length_leaves_le (t : Bracket) : t.leaves.length ≤ 2 ^ t.depth := by
  induction t with
  | leaf f => exact Nat.le_refl 1
  | join node left right ihl ihr =>
    have hleft := ihl.trans (Nat.pow_le_pow_right Nat.two_pos (Nat.le_max_left _ right.depth))
    have hright := ihr.trans (Nat.pow_le_pow_right Nat.two_pos (Nat.le_max_right left.depth _))
    rw [leaves, depth, List.length_append, Nat.pow_succ]
    omega

theorem Bracket.minDepth_le (t : Bracket) : minDepth t.leaves.length ≤ t.depth :=
  minDepth_le_iff.2 t.length_leaves_le

/-! ## Roots -/

/-- The node is the root of a tree. -/
structure Top (n : Netlist) (root : Node) : Prop where
  mem : root ∈ n.nodes
  kind : root.kind.isAssociative = true
  free : ¬ Absorbed n root

/-- The trees of two netlists have the same roots, up to what these read, and the same leaves. -/
structure SameTrees (n n' : Netlist) : Prop where
  stays : ∀ root t, Top n root → TreeAt n root t → ∃ fanins t', Top n' { root with fanins } ∧
    TreeAt n' { root with fanins } t' ∧ t'.leaves = t.leaves
  old : ∀ root, Top n' root → ∃ fanins, Top n { root with fanins }

theorem SameTrees.refl (n : Netlist) : SameTrees n n :=
  ⟨fun root t htop ht => ⟨root.fanins, t, htop, ht, rfl⟩, fun root htop => ⟨root.fanins, htop⟩⟩

theorem SameTrees.trans (h : SameTrees n n') (h' : SameTrees n' n'') : SameTrees n n'' := by
  refine ⟨fun root t htop ht => ?_, fun root htop => ?_⟩
  · obtain ⟨fanins, t', htop', ht', hleaves⟩ := h.stays root t htop ht
    obtain ⟨fanins', t'', htop'', ht'', hleaves'⟩ := h'.stays _ t' htop' ht'
    exact ⟨fanins', t'', htop'', ht'', hleaves'.trans hleaves⟩
  · obtain ⟨fanins', htop'⟩ := h'.old root htop
    obtain ⟨fanins, htop⟩ := h.old _ htop'
    exact ⟨fanins, htop⟩

namespace Rebuilt

variable (h : Rebuilt n n' root t t' others) (ht : TreeAt n root t) (hl : n.Legal)
  (hc : n.Coherent) (hroot : root ∈ n.nodes) (hkind : root.kind.isAssociative = true)
  (htop : ¬ Absorbed n root)

include h ht hl hc hroot hkind htop in
/-- The root of the new tree is a root: it ranks above its tree, and the other nodes read it as they
did. -/
theorem top_root {fanins : List Fanin} (htree : TreeAt n' { root with fanins } t') :
    Top n' { root with fanins } := by
  have hmem : { root with fanins } ∈ n'.nodes := h.mem_after.2 (.inl htree.root_mem)
  refine ⟨hmem, hkind, fun ⟨p, hp, f, hf, hj⟩ => ?_⟩
  have hl' := h.legal ht hl hc hroot hkind
  rcases h.mem_after.1 hp with hp | hp
  · exact htree.root_notMem_inner hl' h.coherent hmem (htree.complete hl' hp hf hj)
  · obtain ⟨hother, -⟩ := (h.joins_iff ht hl hc hroot htop hp hf).1 hj
    have hsame := hc.eq_of_id (h.mem_before.2 (.inr hother)) hroot rfl
    exact h.others_notMem hc hother (hsame ▸ ht.root_mem)

include h ht hl hc hroot hkind htop in
/-- Building a tree anew keeps the roots and the leaves of all trees. -/
theorem sameTrees : SameTrees n n' := by
  have hl' := h.legal ht hl hc hroot hkind
  obtain ⟨fanins, hnodes, htree⟩ := h.treeAt_after ht hl hc hroot
  have htop' := h.top_root ht hl hc hroot hkind htop htree
  have habsorbed : ∀ {q}, q ∈ others → (Absorbed n' q ↔ Absorbed n q) :=
    fun hq => h.absorbed_iff ht hl hc hroot hkind htop hq
  refine ⟨fun q b hq hb => ?_, fun q hq => ?_⟩
  · rcases h.mem_before.1 hq.mem with hm | hm
    · rw [ht.nodes_eq] at hm
      rcases List.mem_cons.1 hm with rfl | hm
      · obtain rfl := hb.unique hl.single ht
        exact ⟨fanins, t', htop', htree, h.leaves⟩
      · exact absurd (ht.absorbed hroot hm) hq.free
    · have hmem := h.mem_after.2 (.inr hm)
      obtain ⟨b', hb'⟩ := exists_treeAt hl' hmem hq.kind
      have hsame := (h.treeAt_before ht hl hc hroot htop hb' hm).unique hl.single hb
      exact ⟨q.fanins, b', ⟨hmem, hq.kind, mt (habsorbed hm).1 hq.free⟩, hb', by rw [hsame]⟩
  · rcases h.mem_after.1 hq.mem with hm | hm
    · rw [hnodes] at hm
      rcases List.mem_cons.1 hm with rfl | hm
      · exact ⟨root.fanins, hroot, hkind, htop⟩
      · exact absurd (htree.absorbed htop'.mem hm) hq.free
    · exact ⟨q.fanins, h.mem_before.2 (.inr hm), hq.kind, mt (habsorbed hm).2 hq.free⟩

end Rebuilt

theorem sameTrees_of_steps (h : Relation.ReflTransGen Rebuilds n n') : SameTrees n n' := by
  induction h with
  | refl => exact .refl n
  | tail _ hstep ih =>
    cases hstep with
    | mk hl hc hroot hkind htop ht hr => exact ih.trans (hr.sameTrees ht hl hc hroot hkind htop)

/-! ## The fanout of the netlist itself -/

/-- The node is an AND, OR or XOR that is part of no tree above it. -/
def IsRoot (n : Netlist) (root : Node) : Prop :=
  root.kind.isAssociative = true ∧ isAbsorbed n n.fanout root = false

theorem isRoot_iff (hl : n.Legal) (hc : n.Coherent) (hroot : root ∈ n.nodes) :
    IsRoot n root ↔ Top n root := by
  have habsorbed : isAbsorbed n n.fanout root = true ↔ Absorbed n root :=
    isAbsorbed_iff hl hc hroot fun _ hp _ hf _ => singleConsumer?_iff hp hf
  rw [IsRoot, Bool.eq_false_iff, ne_eq, habsorbed]
  exact ⟨fun ⟨hkind, hfree⟩ => ⟨hroot, hkind, hfree⟩, fun h => ⟨h.kind, h.free⟩⟩

/-- Collecting finds the tree of a root. -/
theorem collectTree_eq (hl : n.Legal) (hc : n.Coherent) (hroot : root ∈ n.nodes)
    (ht : TreeAt n root t) :
    (collectTree n n.fanout root.id).leaves = t.leaves ∧
      (collectTree n n.fanout root.id).depth = t.depth := by
  obtain ⟨hleaves, -, hdepth⟩ := collectTree_spec (P := (· ∈ n.nodes)) hl hc (fun _ hm => hm)
    (fun _ hp _ hf => singleConsumer?_iff hp hf) (fun _ _ _ _ _ hj => hj.mem) ht hroot
  exact ⟨hleaves, hdepth⟩

/-- The same trees are collected. -/
theorem SameTrees.collectTree (h : SameTrees n n') (hl : n.Legal) (hc : n.Coherent)
    (hl' : n'.Legal) (hc' : n'.Coherent) (hroot : root ∈ n.nodes) (hisRoot : IsRoot n root) :
    ∃ fanins, { root with fanins } ∈ n'.nodes ∧ IsRoot n' { root with fanins } ∧
      (collectTree n' n'.fanout root.id).leaves = (collectTree n n.fanout root.id).leaves := by
  have htop := (isRoot_iff hl hc hroot).1 hisRoot
  obtain ⟨t, ht⟩ := exists_treeAt hl hroot htop.kind
  obtain ⟨fanins, t', htop', ht', hleaves⟩ := h.stays root t htop ht
  refine ⟨fanins, htop'.mem, (isRoot_iff hl' hc' htop'.mem).2 htop', ?_⟩
  rw [(collectTree_eq hl hc hroot ht).1, ← hleaves]
  exact (collectTree_eq hl' hc' htop'.mem ht').1

/-- A tree that is not too deep has the least depth. -/
theorem collectTree_depth (hl : n.Legal) (hc : n.Coherent) (hroot : root ∈ n.nodes)
    (hisRoot : IsRoot n root) (hflat : ¬ Deep n root) :
    (Balancing.collectTree n n.fanout root.id).depth =
      minDepth (Balancing.collectTree n n.fanout root.id).leaves.length := by
  have htop := (isRoot_iff hl hc hroot).1 hisRoot
  obtain ⟨t, ht⟩ := exists_treeAt hl hroot htop.kind
  obtain ⟨hleaves, hdepth⟩ := collectTree_eq hl hc hroot ht
  rw [hleaves, hdepth]
  refine Nat.le_antisymm (Nat.le_of_not_lt fun hdeep => hflat ?_) t.minDepth_le
  exact ⟨hroot, htop.kind, htop.free, t, ht, hdeep⟩

end Balancing

namespace Netlist

open Balancing

variable {n : Netlist}

/-- Balancing gives every tree the least depth that its leaves allow: the least `d` with `k ≤ 2 ^ d`
for `k` leaves. The roots of trees are the nodes that were, with their leaves in the order that they
had, whatever they read now. Once more it finds nothing to do. -/
theorem balanceTrees_flattens (hc : n.Coherent) (hv : n.validate = .ok ()) :
    ∃ n' rebuilt, n.balanceTrees = (n', .ok rebuilt) ∧
      (∀ root ∈ n'.nodes, IsRoot n' root →
        let tree := collectTree n' n'.fanout root.id
        tree.depth = minDepth tree.leaves.length ∧
          IsLeast {d | tree.leaves.length ≤ 2 ^ d} tree.depth) ∧
      (∀ root ∈ n.nodes, IsRoot n root →
        ∃ fanins, { root with fanins } ∈ n'.nodes ∧ IsRoot n' { root with fanins } ∧
          (collectTree n' n'.fanout root.id).leaves = (collectTree n n.fanout root.id).leaves) ∧
      (∀ root ∈ n'.nodes, IsRoot n' root →
        ∃ fanins, { root with fanins } ∈ n.nodes ∧ IsRoot n { root with fanins }) ∧
      n'.balanceTrees = (n', .ok 0) := by
  have hl := hc.legal_of_validate hv
  obtain ⟨n', rebuilt, hbalance, hbalanced⟩ := hl.balanceTrees_balanced hc
  have hl' := hbalanced.preserved.legal
  have hc' := hbalanced.preserved.coherent
  have hsame := sameTrees_of_steps hbalanced.steps
  refine ⟨n', rebuilt, hbalance, fun root hroot hisRoot => ?_,
    fun root hroot hisRoot => hsame.collectTree hl hc hl' hc' hroot hisRoot,
    fun root hroot hisRoot => ?_, ?_⟩
  · have hdepth := collectTree_depth hl' hc' hroot hisRoot (hbalanced.flat root)
    refine ⟨hdepth, ?_⟩
    rw [hdepth]
    exact minDepth_isLeast _
  · obtain ⟨fanins, htop⟩ := hsame.old root ((isRoot_iff hl' hc' hroot).1 hisRoot)
    exact ⟨fanins, htop.mem, (isRoot_iff hl hc htop.mem).2 htop⟩
  · obtain ⟨again, changes, hagain, hsettled⟩ := hl'.balanceTrees_balanced hc'
    have hzero := hsettled.settled hbalanced.flat
    rw [hagain, hsettled.same hzero, hzero]

end Netlist

/-- Both chains have four leaves and become two levels deep, with the leaves as they were. -/
theorem balanceTrees_flattens_retakenNames :
    RetakenNames.netlist.Coherent ∧ RetakenNames.netlist.validate = .ok () ∧
      (Balancing.collectTree RetakenNames.netlist RetakenNames.netlist.fanout ⟨5⟩).depth = 3 ∧
      ∃ n', RetakenNames.netlist.balanceTrees = (n', .ok 2) ∧
        (Balancing.collectTree n' n'.fanout ⟨5⟩).leaves =
          [.plain "p", ⟨"b", true⟩, .plain "a", .plain "a"] ∧
        (Balancing.collectTree n' n'.fanout ⟨5⟩).depth = 2 ∧ n'.balanceTrees = (n', .ok 0) := by
  obtain ⟨n', rebuilt, hbalance, hflat, hstays, -, hagain⟩ :=
    Netlist.balanceTrees_flattens RetakenNames.coherent RetakenNames.validate
  have hrebuilt : RetakenNames.netlist.balanceTrees.2 = .ok 2 := by decide
  have hdeep : (Balancing.collectTree RetakenNames.netlist RetakenNames.netlist.fanout ⟨5⟩).depth =
      3 := by decide
  have hold : (Balancing.collectTree RetakenNames.netlist RetakenNames.netlist.fanout ⟨5⟩).leaves =
      [.plain "p", ⟨"b", true⟩, .plain "a", .plain "a"] := by decide
  have hroot : ⟨⟨5⟩, .op .and, [.plain "t", .plain "a"], "q"⟩ ∈ RetakenNames.netlist.nodes := by
    decide
  obtain ⟨fanins, hmem, hisRoot, hleaves⟩ := hstays _ hroot ⟨rfl, by decide⟩
  obtain ⟨hdepth, -⟩ := hflat _ hmem hisRoot
  rw [hold] at hleaves
  rw [hleaves] at hdepth
  rw [hbalance] at hrebuilt
  cases hrebuilt
  refine ⟨RetakenNames.coherent, RetakenNames.validate, hdeep, n', hbalance, hleaves, ?_, hagain⟩
  exact hdepth.trans (by decide)

end GateSynth
