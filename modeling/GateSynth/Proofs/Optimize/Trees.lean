import GateSynth.Optimize.Balancing
import GateSynth.Proofs.Netlist.Readers

/-!
# Trees of associative nodes

A `Bracket` is a way to bracket fanins with two-input nodes. The tree below a node is the bracket
that grows along the fanins whose drivers join it (`Joins`, `Grown`); in a netlist in order there is
exactly one (`exists_grown`, `Grown.unique`), its nodes are distinct (`TreeAt.nodes_nodup`), and it is
what `collectTree` collects (`collectTree_spec`).
-/

namespace GateSynth

open Netlist

namespace Balancing

variable {n : Netlist} {parent d root : Node} {f : Fanin}

/-! ## Brackets -/

/-- Fanins joined in pairs by nodes. -/
inductive Bracket where
  /-- A fanin as it is. -/
  | leaf (f : Fanin)
  /-- A node that joins two brackets. -/
  | join (node : Node) (left right : Bracket)

namespace Bracket

/-- The fanins at the rim, from left to right. -/
def leaves : Bracket → List Fanin
  | leaf f => [f]
  | join _ left right => left.leaves ++ right.leaves

/-- The nodes that join. -/
def nodes : Bracket → List Node
  | leaf _ => []
  | join node left right => node :: (left.nodes ++ right.nodes)

/-- The nodes below the outermost one. -/
def inner : Bracket → List Node
  | leaf _ => []
  | join _ left right => left.nodes ++ right.nodes

/-- The number of nodes on the longest path. -/
def depth : Bracket → Nat
  | leaf _ => 0
  | join _ left right => max left.depth right.depth + 1

/-- The fanin that reads the bracket. -/
def fanin : Bracket → Fanin
  | leaf f => f
  | join node _ _ => .plain node.output

/-- Every node of the bracket reads the two brackets that it joins. -/
def Wired : Bracket → Prop
  | leaf _ => True
  | join node left right => node.fanins = [left.fanin, right.fanin] ∧ left.Wired ∧ right.Wired

theorem length_leaves (t : Bracket) : t.leaves.length = t.nodes.length + 1 := by
  induction t with
  | leaf f => rfl
  | join node left right ihl ihr =>
    simp only [leaves, nodes, List.length_append, List.length_cons, ihl, ihr]
    omega

/-- What the nodes of a bracket read, and who reads the bracket: the leaves and the outputs of the
nodes, each once. -/
theorem Wired.reads {t : Bracket} (h : t.Wired) :
    (t.fanin.signal :: readsOf t.nodes).Perm
      (t.leaves.map Fanin.signal ++ t.nodes.map Node.output) := by
  induction t with
  | leaf f => exact .refl _
  | join node left right ihl ihr =>
    obtain ⟨hfanins, hl, hr⟩ := h
    have hreads : readsOf (join node left right).nodes =
        left.fanin.signal :: right.fanin.signal :: (readsOf left.nodes ++ readsOf right.nodes) := by
      rw [nodes, readsOf, List.flatMap_cons, Node.faninSignals, hfanins]
      simp only [List.map_cons, List.map_nil, List.cons_append, List.nil_append]
      rw [List.flatMap_append]
      rfl
    rw [hreads]
    refine List.perm_iff_count.2 fun s => ?_
    have hleft := (ihl hl).count_eq s
    have hright := (ihr hr).count_eq s
    simp only [leaves, nodes, fanin, Fanin.plain, List.map_append, List.map_cons, List.count_append,
      List.count_cons] at hleft hright ⊢
    omega

end Bracket

/-! ## Nodes that join a tree -/

/-- The node drives the fanin, and as it is of the kind and the width of the parent and nothing else
reads it, it is part of the tree of the parent. -/
structure Joins (n : Netlist) (parent : Node) (f : Fanin) (d : Node) : Prop where
  mem : d ∈ n.nodes
  output : d.output = f.signal
  plain : f.inverted = false
  kind : d.kind = parent.kind
  width : n.width d.output = n.width parent.output
  once : n.readCount f.signal = 1
  inner : f.signal ∉ n.outputs

/-- The fanout tells for the fanins of a node whether anything else reads them. -/
def Agrees (n : Netlist) (fanout : Fanout) (parent : Node) : Prop :=
  ∀ f ∈ parent.fanins, fanout.singleConsumer? f.signal = some parent.id ↔
    n.readCount f.signal = 1 ∧ f.signal ∉ n.outputs

theorem internalDriver?_iff {fanout : Fanout} (hsingle : (n.nodes.map Node.output).Nodup)
    (honce : fanout.singleConsumer? f.signal = some parent.id ↔
      n.readCount f.signal = 1 ∧ f.signal ∉ n.outputs) :
    internalDriver? n fanout parent f = some d ↔ Joins n parent f d := by
  constructor
  · intro h
    obtain ⟨driver, hdriver, h⟩ := Option.bind_eq_some_iff.1 h
    obtain ⟨hm, ho⟩ := driverNode?_eq_some hdriver
    split at h
    · next hcond =>
      cases h
      simp only [Bool.and_eq_true, Bool.not_eq_true', beq_iff_eq] at hcond
      obtain ⟨⟨⟨hplain, hkind⟩, hwidth⟩, hsingle⟩ := hcond
      obtain ⟨hcount, hinner⟩ := honce.1 hsingle
      exact ⟨hm, ho, hplain, hkind, hwidth, hcount, hinner⟩
    · cases h
  · intro h
    have hdriver : n.driverNode? f.signal = some d := by
      rw [← h.output]
      exact driverNode?_of_mem hsingle h.mem
    have hconsumer := honce.2 ⟨h.once, h.inner⟩
    refine Option.bind_eq_some_iff.2 ⟨d, hdriver, if_pos ?_⟩
    simp only [Bool.and_eq_true, Bool.not_eq_true', beq_iff_eq]
    exact ⟨⟨⟨h.plain, h.kind⟩, h.width⟩, hconsumer⟩

theorem Joins.unique (hsingle : (n.nodes.map Node.output).Nodup) {d' : Node}
    (h : Joins n parent f d) (h' : Joins n parent f d') : d = d' :=
  List.inj_on_of_nodup_map hsingle h.mem h'.mem (h.output.trans h'.output.symm)

/-- The tree that grows along a fanin of a node. -/
inductive Grown (n : Netlist) : Node → Fanin → Bracket → Prop
  | leaf {parent : Node} {f : Fanin} (hnone : ∀ d, ¬ Joins n parent f d) :
      Grown n parent f (.leaf f)
  | join {parent d : Node} {f left right : Fanin} {l r : Bracket} (hjoins : Joins n parent f d)
      (hfanins : d.fanins = [left, right]) (hleft : Grown n d left l) (hright : Grown n d right r) :
      Grown n parent f (.join d l r)

/-- The tree of a node. -/
inductive TreeAt (n : Netlist) (root : Node) : Bracket → Prop
  | mk {left right : Fanin} {l r : Bracket} (hfanins : root.fanins = [left, right])
      (hleft : Grown n root left l) (hright : Grown n root right r) : TreeAt n root (.join root l r)

/-- The node is part of the tree of another one. -/
def Absorbed (n : Netlist) (d : Node) : Prop :=
  ∃ parent ∈ n.nodes, ∃ f ∈ parent.fanins, Joins n parent f d

/-- If the fanout is right about the readers of a node, they tell whether it is absorbed. -/
theorem isAbsorbed_iff {fanout : Fanout} (hl : n.Legal) (hc : n.Coherent) (hroot : root ∈ n.nodes)
    (hagrees : ∀ p ∈ n.nodes, ∀ f ∈ p.fanins, f.signal = root.output →
      (fanout.singleConsumer? f.signal = some p.id ↔
        n.readCount f.signal = 1 ∧ f.signal ∉ n.outputs)) :
    isAbsorbed n fanout root = true ↔ Absorbed n root := by
  constructor
  · intro habsorbed
    rw [isAbsorbed] at habsorbed
    split at habsorbed
    · next consumer hconsumer =>
      obtain ⟨c, -, hnode⟩ := Option.bind_eq_some_iff.1 hconsumer
      obtain ⟨hcm, -⟩ := hc.node?_eq_some_iff.1 hnode
      obtain ⟨f, hf, hcond⟩ := List.any_eq_true.1 habsorbed
      rw [Bool.and_eq_true, beq_iff_eq, beq_iff_eq, Option.map_eq_some_iff] at hcond
      obtain ⟨hsignal, d, hd, hid⟩ := hcond
      have hj := (internalDriver?_iff hl.single (hagrees consumer hcm f hf hsignal)).1 hd
      obtain rfl := hc.eq_of_id hj.mem hroot hid
      exact ⟨consumer, hcm, f, hf, hj⟩
    · cases habsorbed
  · rintro ⟨parent, hparent, f, hf, hj⟩
    have honce := hagrees parent hparent f hf hj.output.symm
    have hdriver := (internalDriver?_iff hl.single honce).2 hj
    have hconsumer : fanout.singleConsumer? root.output = some parent.id := by
      rw [hj.output]
      exact honce.2 ⟨hj.once, hj.inner⟩
    rw [isAbsorbed, hconsumer, Option.bind_some, hc.node?_of_mem hparent]
    refine List.any_eq_true.2 ⟨f, hf, ?_⟩
    rw [hdriver, Bool.and_eq_true, beq_iff_eq, beq_iff_eq]
    exact ⟨hj.output.symm, rfl⟩

section Grown
variable {t : Bracket}

theorem fanins_of_associative (hl : n.Legal) (hm : d ∈ n.nodes)
    (hkind : d.kind.isAssociative = true) : ∃ left right, d.fanins = [left, right] := by
  have hlength : d.fanins.length = 2 := by
    cases hk : d.kind with
    | op op =>
      rw [hk] at hkind
      have harity := hl.arity d hm op.arity (by rw [hk]; rfl)
      cases op <;> first | exact harity.symm | cases hkind
    | _ =>
      rw [hk] at hkind
      cases hkind
  exact List.length_eq_two.1 hlength

theorem Grown.fanin_eq (h : Grown n parent f t) : t.fanin = f := by
  cases h with
  | leaf => rfl
  | join hjoins _ _ _ =>
    rw [Bracket.fanin, hjoins.output, Fanin.plain, ← hjoins.plain]

theorem Grown.wired (h : Grown n parent f t) : t.Wired := by
  induction h with
  | leaf => trivial
  | join _ hfanins hleft hright ihl ihr =>
    exact ⟨by rw [hfanins, hleft.fanin_eq, hright.fanin_eq], ihl, ihr⟩

theorem TreeAt.wired (h : TreeAt n root t) : t.Wired := by
  cases h with
  | mk hfanins hleft hright =>
    exact ⟨by rw [hfanins, hleft.fanin_eq, hright.fanin_eq], hleft.wired, hright.wired⟩

theorem Grown.unique (hsingle : (n.nodes.map Node.output).Nodup) {t' : Bracket}
    (h : Grown n parent f t) (h' : Grown n parent f t') : t = t' := by
  induction h generalizing t' with
  | leaf hnone =>
    cases h' with
    | leaf => rfl
    | join hjoins _ _ _ => exact absurd hjoins (hnone _)
  | join hjoins hfanins hleft hright ihl ihr =>
    cases h' with
    | leaf hnone => exact absurd hjoins (hnone _)
    | join hjoins' hfanins' hleft' hright' =>
      have hd := hjoins.unique hsingle hjoins'
      subst hd
      rw [hfanins] at hfanins'
      cases hfanins'
      rw [ihl hleft', ihr hright']

theorem TreeAt.unique (hsingle : (n.nodes.map Node.output).Nodup) {t' : Bracket}
    (h : TreeAt n root t) (h' : TreeAt n root t') : t = t' := by
  cases h with
  | mk hfanins hleft hright =>
    cases h' with
    | mk hfanins' hleft' hright' =>
      rw [hfanins] at hfanins'
      cases hfanins'
      rw [hleft.unique hsingle hleft', hright.unique hsingle hright']

/-- A tree grows along every fanin, since drivers rank below their readers. -/
theorem exists_grown (hl : n.Legal) {rank : String → Nat} (hrank : n.Ranked rank)
    (hkind : parent.kind.isAssociative = true) (f : Fanin) : ∃ t, Grown n parent f t := by
  induction hk : rank f.signal using Nat.strong_induction_on generalizing parent f with
  | _ k ih =>
    by_cases hd : ∃ d, Joins n parent f d
    · obtain ⟨d, hd⟩ := hd
      have hdkind : d.kind.isAssociative = true := hd.kind ▸ hkind
      obtain ⟨left, right, hfanins⟩ := fanins_of_associative hl hd.mem hdkind
      have hlt : ∀ g ∈ d.fanins, rank g.signal < k := fun g hg => by
        rw [← hk, ← hd.output]
        exact hrank d hd.mem g hg
      rw [hfanins] at hlt
      obtain ⟨l, hleft⟩ := ih _ (hlt left (.head _)) hdkind left rfl
      obtain ⟨r, hright⟩ := ih _ (hlt right (.tail _ (.head _))) hdkind right rfl
      exact ⟨_, .join hd hfanins hleft hright⟩
    · exact ⟨_, .leaf fun d hj => hd ⟨d, hj⟩⟩

theorem exists_treeAt (hl : n.Legal) (hm : root ∈ n.nodes)
    (hkind : root.kind.isAssociative = true) : ∃ t, TreeAt n root t := by
  obtain ⟨rank, hrank⟩ := hl.acyclic.ranked
  obtain ⟨left, right, hfanins⟩ := fanins_of_associative hl hm hkind
  obtain ⟨l, hleft⟩ := exists_grown hl hrank hkind left
  obtain ⟨r, hright⟩ := exists_grown hl hrank hkind right
  exact ⟨_, .mk hfanins hleft hright⟩

/-! ## The nodes of a tree -/

/-- The nodes of a tree are of the kind and the width of its root. -/
theorem Grown.like (h : Grown n parent f t) (hd : d ∈ t.nodes) :
    d ∈ n.nodes ∧ d.kind = parent.kind ∧ n.width d.output = n.width parent.output := by
  induction h with
  | leaf => cases hd
  | join hjoins _ _ _ ihl ihr =>
    rcases List.mem_cons.1 hd with rfl | hd
    · exact ⟨hjoins.mem, hjoins.kind, hjoins.width⟩
    · rcases List.mem_append.1 hd with hd | hd
      · obtain ⟨hm, hkind, hwidth⟩ := ihl hd
        exact ⟨hm, hkind.trans hjoins.kind, hwidth.trans hjoins.width⟩
      · obtain ⟨hm, hkind, hwidth⟩ := ihr hd
        exact ⟨hm, hkind.trans hjoins.kind, hwidth.trans hjoins.width⟩

/-- What holds of the root and passes from readers to drivers holds of the whole tree, and ranks
fall from the root. -/
theorem Grown.falls {P : Node → Prop} {rank : String → Nat}
    (hrank : ∀ m, P m → ∀ g ∈ m.fanins, rank g.signal < rank m.output)
    (hclosed : ∀ m g d, P m → g ∈ m.fanins → Joins n m g d → P d)
    (h : Grown n parent f t) (hp : P parent) (hf : f ∈ parent.fanins) :
    (∀ d ∈ t.nodes, P d ∧ rank d.output < rank parent.output) ∧
      ∀ g ∈ t.leaves, rank g.signal < rank parent.output := by
  induction h with
  | leaf =>
    refine ⟨fun d hd => (by cases hd), fun g hg => ?_⟩
    rw [List.mem_singleton.1 hg]
    exact hrank _ hp _ hf
  | @join parent d f left right l r hjoins hfanins hleft hright ihl ihr =>
    have hpd := hclosed _ _ _ hp hf hjoins
    have hlt := hrank _ hp _ hf
    rw [← hjoins.output] at hlt
    obtain ⟨hlnodes, hlleaves⟩ := ihl hpd (by rw [hfanins]; exact .head _)
    obtain ⟨hrnodes, hrleaves⟩ := ihr hpd (by rw [hfanins]; exact .tail _ (.head _))
    refine ⟨fun e he => ?_, fun g hg => ?_⟩
    · rcases List.mem_cons.1 he with rfl | he
      · exact ⟨hpd, hlt⟩
      · rcases List.mem_append.1 he with he | he
        · exact ⟨(hlnodes e he).1, (hlnodes e he).2.trans hlt⟩
        · exact ⟨(hrnodes e he).1, (hrnodes e he).2.trans hlt⟩
    · rcases List.mem_append.1 hg with hg | hg
      · exact (hlleaves g hg).trans hlt
      · exact (hrleaves g hg).trans hlt

theorem Grown.rank_lt {rank : String → Nat} (hrank : n.Ranked rank) (h : Grown n parent f t)
    (hp : parent ∈ n.nodes) (hf : f ∈ parent.fanins) (hd : d ∈ t.nodes) :
    rank d.output < rank parent.output :=
  ((h.falls hrank (fun _ _ _ _ _ hjoins => hjoins.mem) hp hf).1 d hd).2

/-- A node of a tree joins its root, or another node of the tree. -/
theorem Grown.joined (h : Grown n parent f t) (hd : d ∈ t.nodes) :
    Joins n parent f d ∨ ∃ q ∈ t.nodes, ∃ g ∈ q.fanins, Joins n q g d := by
  induction h with
  | leaf => cases hd
  | @join parent e f left right l r hjoins hfanins hleft hright ihl ihr =>
    rcases List.mem_cons.1 hd with rfl | hd
    · exact .inl hjoins
    · refine .inr ?_
      rcases List.mem_append.1 hd with hd | hd
      · rcases ihl hd with hj | ⟨q, hq, hj⟩
        · exact ⟨e, .head _, left, by rw [hfanins]; exact .head _, hj⟩
        · exact ⟨q, .tail _ (List.mem_append_left _ hq), hj⟩
      · rcases ihr hd with hj | ⟨q, hq, hj⟩
        · exact ⟨e, .head _, right, by rw [hfanins]; exact .tail _ (.head _), hj⟩
        · exact ⟨q, .tail _ (List.mem_append_right _ hq), hj⟩

/-- Whatever joins a node of a tree is in the tree. -/
theorem Grown.complete (hsingle : (n.nodes.map Node.output).Nodup) (h : Grown n parent f t) :
    (Joins n parent f d → d ∈ t.nodes) ∧
      ∀ q ∈ t.nodes, ∀ g ∈ q.fanins, Joins n q g d → d ∈ t.nodes := by
  induction h with
  | leaf hnone => exact ⟨fun hj => absurd hj (hnone d), fun q hq => (by cases hq)⟩
  | join hjoins hfanins _ _ ihl ihr =>
    refine ⟨fun hj => ?_, fun q hq g hg hj => ?_⟩
    · rw [hj.unique hsingle hjoins]
      exact .head _
    · refine .tail _ (List.mem_append.2 ?_)
      rcases List.mem_cons.1 hq with rfl | hq
      · rw [hfanins] at hg
        rcases List.mem_cons.1 hg with rfl | hg
        · exact .inl (ihl.1 hj)
        · rw [List.mem_singleton.1 hg] at hj
          exact .inr (ihr.1 hj)
      · rcases List.mem_append.1 hq with hq | hq
        · exact .inl (ihl.2 q hq g hg hj)
        · exact .inr (ihr.2 q hq g hg hj)

/-- Two readers of a node of a tree are one. -/
theorem Joins.reader (hc : n.Coherent) {q : Node} {g : Fanin} (h : Joins n parent f d)
    (hp : parent ∈ n.nodes) (hf : f ∈ parent.fanins) (hq : q ∈ n.nodes) (hg : g ∈ q.fanins)
    (hread : g.signal = d.output) : q = parent := by
  obtain ⟨i, hi, hget⟩ := List.getElem_of_mem hf
  obtain ⟨j, hj, hget'⟩ := List.getElem_of_mem hg
  have hunique := reader_unique h.once hq (List.getElem?_eq_some_iff.2 ⟨hj, hget'⟩)
    (hread.trans h.output) hp (List.getElem?_eq_some_iff.2 ⟨hi, hget⟩) rfl
  exact hc.eq_of_id hq hp hunique.1

/-- The two halves of a tree have no node in common: going up from it, both would reach the root
through one and the same fanin. -/
theorem disjoint_of_grown (hc : n.Coherent) {rank : String → Nat} (hrank : n.Ranked rank)
    {left right : Fanin} {l r : Bracket} (hp : parent ∈ n.nodes)
    (hfanins : parent.fanins = [left, right]) (hleft : Grown n parent left l)
    (hright : Grown n parent right r) (hdl : d ∈ l.nodes) (hdr : d ∈ r.nodes) : False := by
  have hl : left ∈ parent.fanins := by rw [hfanins]; exact .head _
  have hr : right ∈ parent.fanins := by rw [hfanins]; exact .tail _ (.head _)
  induction hk : rank parent.output - rank d.output using Nat.strong_induction_on
    generalizing d with
  | _ k ih =>
    have hlt := hleft.rank_lt hrank hp hl hdl
    rcases hleft.joined hdl with hjl | ⟨q, hq, g, hg, hjl⟩
    · rcases hright.joined hdr with hjr | ⟨q', hq', g', hg', hjr⟩
      · have hunique := reader_unique (i := 0) (j := 1) (f := left) (g := right) hjl.once hp
          (by rw [hfanins]; rfl) rfl hp (by rw [hfanins]; rfl) (hjr.output.symm.trans hjl.output)
        cases hunique.2
      · have hsame := hjl.reader hc hp hl (hright.like hq').1 hg' hjr.output.symm
        have hlt' := hright.rank_lt hrank hp hr hq'
        rw [hsame] at hlt'
        exact Nat.lt_irrefl _ hlt'
    · have hqlt := hleft.rank_lt hrank hp hl hq
      have hqmem := (hleft.like hq).1
      rcases hright.joined hdr with hjr | ⟨q', hq', g', hg', hjr⟩
      · have hsame := hjr.reader hc hp hr hqmem hg hjl.output.symm
        rw [hsame] at hqlt
        exact Nat.lt_irrefl _ hqlt
      · have hsame := hjr.reader hc (hright.like hq').1 hg' hqmem hg hjl.output.symm
        subst hsame
        have hdq := hrank q hqmem g hg
        rw [← hjl.output] at hdq
        exact ih _ (by omega) hq hq' rfl

theorem Grown.nodes_nodup (hc : n.Coherent) {rank : String → Nat} (hrank : n.Ranked rank)
    (h : Grown n parent f t) : t.nodes.Nodup := by
  induction h with
  | leaf => exact .nil
  | @join parent d f left right l r hjoins hfanins hleft hright ihl ihr =>
    refine List.nodup_cons.2 ⟨fun hd => ?_, List.nodup_append.2 ⟨ihl, ihr, fun a ha b hb hab => ?_⟩⟩
    · rcases List.mem_append.1 hd with hd | hd
      · exact Nat.lt_irrefl _ (hleft.rank_lt hrank hjoins.mem (by rw [hfanins]; exact .head _) hd)
      · exact Nat.lt_irrefl _
          (hright.rank_lt hrank hjoins.mem (by rw [hfanins]; exact .tail _ (.head _)) hd)
    · subst hab
      exact disjoint_of_grown hc hrank hjoins.mem hfanins hleft hright ha hb

/-- A leaf joins no node of the kind and the width of the tree. -/
theorem Grown.leaf_free (h : Grown n parent f t) {g : Fanin} (hg : g ∈ t.leaves) :
    ¬ Joins n parent g d := by
  induction h with
  | leaf hnone =>
    rw [List.mem_singleton.1 hg]
    exact hnone d
  | join hjoins _ _ _ ihl ihr =>
    intro hj
    have hj' := { hj with kind := hj.kind.trans hjoins.kind.symm
                          width := hj.width.trans hjoins.width.symm : Joins n _ g d }
    rcases List.mem_append.1 hg with hg | hg
    · exact ihl hg hj'
    · exact ihr hg hj'

/-- The leaves of a tree are fanins of its nodes. -/
theorem Bracket.Wired.leaf_read {node : Node} {l r : Bracket} (h : (Bracket.join node l r).Wired)
    {g : Fanin} (hg : g ∈ (Bracket.join node l r).leaves) :
    ∃ q ∈ (Bracket.join node l r).nodes, g ∈ q.fanins := by
  have hside : ∀ b : Bracket, b.Wired → g ∈ b.leaves → g = b.fanin ∨ ∃ q ∈ b.nodes, g ∈ q.fanins := by
    intro b hb hgb
    induction b with
    | leaf f => exact .inl (List.mem_singleton.1 hgb)
    | join d l r ihl ihr =>
      obtain ⟨hfanins, hl, hr⟩ := hb
      refine .inr ?_
      rcases List.mem_append.1 hgb with hgb | hgb
      · rcases ihl hl hgb with rfl | ⟨q, hq, hgq⟩
        · exact ⟨d, .head _, by rw [hfanins]; exact .head _⟩
        · exact ⟨q, .tail _ (List.mem_append_left _ hq), hgq⟩
      · rcases ihr hr hgb with rfl | ⟨q, hq, hgq⟩
        · exact ⟨d, .head _, by rw [hfanins]; exact .tail _ (.head _)⟩
        · exact ⟨q, .tail _ (List.mem_append_right _ hq), hgq⟩
  obtain ⟨hfanins, hl, hr⟩ := h
  rcases List.mem_append.1 hg with hg | hg
  · rcases hside l hl hg with rfl | ⟨q, hq, hgq⟩
    · exact ⟨node, .head _, by rw [hfanins]; exact .head _⟩
    · exact ⟨q, .tail _ (List.mem_append_left _ hq), hgq⟩
  · rcases hside r hr hg with rfl | ⟨q, hq, hgq⟩
    · exact ⟨node, .head _, by rw [hfanins]; exact .tail _ (.head _)⟩
    · exact ⟨q, .tail _ (List.mem_append_right _ hq), hgq⟩

end Grown

/-! ## The tree of a root -/

namespace TreeAt

variable {t : Bracket}

theorem nodes_eq (h : TreeAt n root t) : t.nodes = root :: t.inner := by
  cases h
  rfl

theorem root_mem (h : TreeAt n root t) : root ∈ t.nodes := by
  rw [h.nodes_eq]
  exact .head _

theorem fanin_eq (h : TreeAt n root t) : t.fanin = .plain root.output := by
  cases h
  rfl

theorem like (h : TreeAt n root t) (hroot : root ∈ n.nodes) (hd : d ∈ t.nodes) :
    d ∈ n.nodes ∧ d.kind = root.kind ∧ n.width d.output = n.width root.output := by
  cases h with
  | mk _ hleft hright =>
    rcases List.mem_cons.1 hd with rfl | hd
    · exact ⟨hroot, rfl, rfl⟩
    · rcases List.mem_append.1 hd with hd | hd
      · exact hleft.like hd
      · exact hright.like hd

theorem falls {P : Node → Prop} {rank : String → Nat}
    (hrank : ∀ m, P m → ∀ g ∈ m.fanins, rank g.signal < rank m.output)
    (hclosed : ∀ m g d, P m → g ∈ m.fanins → Joins n m g d → P d) (h : TreeAt n root t)
    (hp : P root) :
    (∀ d ∈ t.inner, P d ∧ rank d.output < rank root.output) ∧
      ∀ g ∈ t.leaves, rank g.signal < rank root.output := by
  cases h with
  | mk hfanins hleft hright =>
    have hl := hleft.falls hrank hclosed hp (by rw [hfanins]; exact .head _)
    have hr := hright.falls hrank hclosed hp (by rw [hfanins]; exact .tail _ (.head _))
    exact ⟨fun d hd => (List.mem_append.1 hd).elim (hl.1 d) (hr.1 d),
      fun g hg => (List.mem_append.1 hg).elim (hl.2 g) (hr.2 g)⟩

theorem nodes_nodup (hc : n.Coherent) (hl : n.Legal) (h : TreeAt n root t)
    (hroot : root ∈ n.nodes) : t.nodes.Nodup := by
  obtain ⟨rank, hrank⟩ := hl.acyclic.ranked
  have hfalls := h.falls hrank (fun _ _ _ _ _ hjoins => hjoins.mem) hroot
  cases h with
  | mk hfanins hleft hright =>
    refine List.nodup_cons.2 ⟨fun hd => Nat.lt_irrefl _ (hfalls.1 root hd).2, ?_⟩
    refine List.nodup_append.2 ⟨hleft.nodes_nodup hc hrank, hright.nodes_nodup hc hrank,
      fun a ha b hb hab => ?_⟩
    subst hab
    exact disjoint_of_grown hc hrank hroot hfanins hleft hright ha hb

/-- Whatever joins a node of the tree is in the tree. -/
theorem complete (hl : n.Legal) (h : TreeAt n root t) {q : Node} (hq : q ∈ t.nodes) {g : Fanin}
    (hg : g ∈ q.fanins) (hj : Joins n q g d) : d ∈ t.inner := by
  cases h with
  | mk hfanins hleft hright =>
    have hcl := hleft.complete (d := d) hl.single
    have hcr := hright.complete (d := d) hl.single
    refine List.mem_append.2 ?_
    rcases List.mem_cons.1 hq with rfl | hq
    · rw [hfanins] at hg
      rcases List.mem_cons.1 hg with rfl | hg
      · exact .inl (hcl.1 hj)
      · rw [List.mem_singleton.1 hg] at hj
        exact .inr (hcr.1 hj)
    · rcases List.mem_append.1 hq with hq | hq
      · exact .inl (hcl.2 q hq g hg hj)
      · exact .inr (hcr.2 q hq g hg hj)

theorem joined (h : TreeAt n root t) (hd : d ∈ t.inner) :
    ∃ q ∈ t.nodes, ∃ g ∈ q.fanins, Joins n q g d := by
  cases h with
  | mk hfanins hleft hright =>
    rcases List.mem_append.1 hd with hd | hd
    · rcases hleft.joined hd with hj | ⟨q, hq, hj⟩
      · exact ⟨root, .head _, _, by rw [hfanins]; exact .head _, hj⟩
      · exact ⟨q, .tail _ (List.mem_append_left _ hq), hj⟩
    · rcases hright.joined hd with hj | ⟨q, hq, hj⟩
      · exact ⟨root, .head _, _, by rw [hfanins]; exact .tail _ (.head _), hj⟩
      · exact ⟨q, .tail _ (List.mem_append_right _ hq), hj⟩

theorem absorbed (h : TreeAt n root t) (hroot : root ∈ n.nodes) (hd : d ∈ t.inner) :
    Absorbed n d := by
  obtain ⟨q, hq, g, hg, hj⟩ := h.joined hd
  exact ⟨q, (h.like hroot hq).1, g, hg, hj⟩

/-- Only the tree reads its inner nodes. -/
theorem reader (hc : n.Coherent) (h : TreeAt n root t) (hroot : root ∈ n.nodes)
    (hd : d ∈ t.inner) {q : Node} (hq : q ∈ n.nodes) {g : Fanin} (hg : g ∈ q.fanins)
    (hread : g.signal = d.output) : q ∈ t.nodes := by
  obtain ⟨p, hp, f, hf, hj⟩ := h.joined hd
  rw [hj.reader hc (h.like hroot hp).1 hf hq hg hread]
  exact hp

theorem leaf_free (h : TreeAt n root t) {g : Fanin} (hg : g ∈ t.leaves) : ¬ Joins n root g d := by
  cases h with
  | mk _ hleft hright =>
    rcases List.mem_append.1 hg with hg | hg
    · exact hleft.leaf_free hg
    · exact hright.leaf_free hg

end TreeAt

/-! ## Collecting trees -/

section Collect
variable {fanout : Fanout} {P : Node → Prop} {rank : String → Nat} {t : Bracket}

/-- The identifier of the node that a fanin joins to a tree. -/
def Bracket.top : Bracket → List NodeId
  | leaf _ => []
  | join node _ _ => [node.id]

theorem Bracket.nodes_perm (b : Bracket) :
    (b.nodes.map Node.id).Perm (b.top ++ b.inner.map Node.id) := by
  cases b <;> exact .refl _

/-- What is collected along one fanin. -/
def collectSide (n : Netlist) (fanout : Fanout) (levels : Nat) (root : Node) (depth : Nat)
    (f : Fanin) : Tree :=
  match internalDriver? n fanout root f with
  | some node => collectFrom n fanout levels node (depth + 1)
  | none => ⟨[f], [], 0⟩

theorem collectFrom_succ {left right : Fanin} (hfanins : root.fanins = [left, right])
    (levels depth : Nat) :
    collectFrom n fanout (levels + 1) root depth =
      let l := collectSide n fanout levels root depth left
      let r := collectSide n fanout levels root depth right
      ⟨l.leaves ++ r.leaves,
        ((internalDriver? n fanout root left).toList ++
          (internalDriver? n fanout root right).toList).reverse.map Node.id ++
            (l.internal ++ r.internal),
        max (max depth l.depth) r.depth⟩ := by
  rw [collectFrom, hfanins]
  cases hl : internalDriver? n fanout root left <;> cases hr : internalDriver? n fanout root right <;>
    simp [collectSide, hl, hr]

/-- The collected tree has the leaves, the inner nodes and the depth of a bracket. -/
structure Collected (tree : Tree) (t : Bracket) (depth : Nat) : Prop where
  leaves : tree.leaves = t.leaves
  internal : tree.internal.Perm (t.inner.map Node.id)
  depth : max depth tree.depth = depth + t.depth

/-- What is collected along a fanin, if the tree of a node that joins is collected right. -/
theorem collectSide_spec (hsingle : (n.nodes.map Node.output).Nodup) (hagrees : Agrees n fanout root)
    {levels depth : Nat} (hf : f ∈ root.fanins) (h : Grown n root f t)
    (ih : ∀ {d t}, Joins n root f d → TreeAt n d t →
      Collected (collectFrom n fanout levels d (depth + 1)) t depth) :
    Collected (collectSide n fanout levels root depth f) t depth ∧
      (internalDriver? n fanout root f).toList.map Node.id = t.top := by
  have hjoins : ∀ d, internalDriver? n fanout root f = some d ↔ Joins n root f d :=
    fun d => internalDriver?_iff hsingle (hagrees f hf)
  rw [collectSide]
  cases h with
  | leaf hnone =>
    have hdriver : internalDriver? n fanout root f = none :=
      Option.eq_none_iff_forall_ne_some.2 fun d hd => hnone d ((hjoins d).1 hd)
    rw [hdriver]
    exact ⟨⟨rfl, .refl _, Nat.max_zero depth⟩, rfl⟩
  | join hj hfanins hleft hright =>
    rw [(hjoins _).2 hj]
    exact ⟨ih hj (.mk hfanins hleft hright), rfl⟩

theorem collectFrom_spec (hsingle : (n.nodes.map Node.output).Nodup)
    (hagrees : ∀ m, P m → Agrees n fanout m)
    (hrank : ∀ m, P m → ∀ g ∈ m.fanins, rank g.signal < rank m.output)
    (hclosed : ∀ m g d, P m → g ∈ m.fanins → Joins n m g d → P d) {levels depth : Nat}
    (h : TreeAt n root t) (hp : P root) (hlevels : rank root.output < levels) :
    Collected (collectFrom n fanout levels root (depth + 1)) t depth := by
  induction levels generalizing root t depth with
  | zero => omega
  | succ levels ih =>
    cases h with
    | @mk left right l r hfanins hleft hright =>
      have hside : ∀ {f b}, f ∈ root.fanins → Grown n root f b →
          Collected (collectSide n fanout levels root (depth + 1) f) b (depth + 1) ∧
            (internalDriver? n fanout root f).toList.map Node.id = b.top := by
        intro f b hf hb
        refine collectSide_spec hsingle (hagrees root hp) hf hb fun hj ht => ?_
        have hlt := hrank root hp f hf
        rw [← hj.output] at hlt
        exact ih ht (hclosed root f _ hp hf hj) (by omega)
      obtain ⟨hcl, htl⟩ := hside (by rw [hfanins]; exact .head _) hleft
      obtain ⟨hcr, htr⟩ := hside (by rw [hfanins]; exact .tail _ (.head _)) hright
      rw [collectFrom_succ hfanins]
      refine ⟨?_, ?_, ?_⟩
      · exact congrArg₂ _ hcl.leaves hcr.leaves
      · dsimp only
        rw [List.map_reverse, List.map_append, htl, htr, Bracket.inner, List.map_append]
        refine .trans (.append (List.reverse_perm _) (hcl.internal.append hcr.internal)) ?_
        refine .trans ?_ (l.nodes_perm.symm.append r.nodes_perm.symm)
        refine List.perm_iff_count.2 fun id => ?_
        simp only [List.count_append]
        omega
      · have hdl := hcl.depth
        have hdr := hcr.depth
        simp only [Bracket.depth]
        omega

/-- There are enough levels for the tree of any root. -/
theorem collectTree_spec (hl : n.Legal) (hc : n.Coherent) (hmem : ∀ m, P m → m ∈ n.nodes)
    (hagrees : ∀ m, P m → Agrees n fanout m)
    (hclosed : ∀ m g d, P m → g ∈ m.fanins → Joins n m g d → P d) (h : TreeAt n root t)
    (hp : P root) :
    (collectTree n fanout root.id).leaves = t.leaves ∧
      (collectTree n fanout root.id).internal.Perm (t.inner.map Node.id) ∧
      (collectTree n fanout root.id).depth = t.depth := by
  obtain ⟨order, horder⟩ := hl.topoOrder hc
  have hperm := hc.perm_of_topoOrder horder
  have hroot := hmem root hp
  have hplace : n.placeIn order root.output < n.nodeCount + 1 := by
    have hlt := List.idxOf_lt_length_of_mem (hperm.mem_iff.2 (List.mem_map_of_mem hroot))
    have hlength := hperm.length_eq
    rw [nodeIds, List.length_map] at hlength
    rw [placeIn_output hl.single hroot, nodeCount]
    omega
  have hspec : Collected (collectFrom n fanout (n.nodeCount + 1) root (0 + 1)) t 0 :=
    collectFrom_spec hl.single hagrees (fun m hm => hc.ranked_placeIn hl.single horder m (hmem m hm))
      hclosed h hp hplace
  rw [collectTree, hc.node?_of_mem hroot]
  refine ⟨hspec.leaves, hspec.internal, ?_⟩
  have hdepth := hspec.depth
  simpa using hdepth

end Collect

end Balancing

end GateSynth
