import GateSynth.Proofs.Optimize.Balancing
import GateSynth.Proofs.Simulation.Reproduction

/-!
# Values of balanced trees

However its leaves are bracketed, a tree of one operator has the value of the chain of its leaves
(`Bracket.truncate_word`): the operators work bit by bit, so operands may be cut to the width before
or after. A solution of a netlist with a tree becomes one of the netlist with another bracket over
the same leaves: the nodes of the new bracket get the values that it gives them
(`Bracket.filled`), and every signal that was taken before has the value that it had
(`Rebuilt.solution`).

A node that is there before and after a pass stands at the same place and has the same output and
the same value, also when names that a rebuild has given up are taken again by a later one
(`Continues`).
-/

namespace GateSynth

open Netlist

/-! ## Chains of operands -/

namespace Operator

variable {op : Operator}

/-- An operator that works bit by bit on whole words; exclusive or unless it is AND or OR. -/
def bits : Operator → Word → Word → Word
  | .and, x, y => x &&& y
  | .or, x, y => x ||| y
  | _, x, y => x ^^^ y

/-- What a chain without operands gives. -/
def unit : Operator → Word
  | .and => ~~~0
  | _ => 0

/-- The operator between all operands of a list. -/
def chain (op : Operator) (operands : List Word) : Word := operands.foldr op.bits op.unit

theorem bits_assoc (op : Operator) (x y z : Word) :
    op.bits (op.bits x y) z = op.bits x (op.bits y z) := by
  cases op with
  | and => exact UInt64.and_assoc x y z
  | or => exact UInt64.or_assoc x y z
  | _ => exact UInt64.xor_assoc x y z

theorem bits_unit (op : Operator) (x : Word) : op.bits x op.unit = x := by
  cases op with
  | and => exact UInt64.and_neg_one
  | or => exact UInt64.or_zero
  | _ => exact UInt64.xor_zero

theorem unit_bits (op : Operator) (x : Word) : op.bits op.unit x = x := by
  cases op with
  | and => exact UInt64.neg_one_and
  | or => exact UInt64.zero_or
  | _ => exact UInt64.zero_xor

theorem chain_append (op : Operator) (xs ys : List Word) :
    op.chain (xs ++ ys) = op.bits (op.chain xs) (op.chain ys) := by
  induction xs with
  | nil => exact (op.unit_bits _).symm
  | cons x xs ih =>
    show op.bits x (op.chain (xs ++ ys)) = op.bits (op.bits x (op.chain xs)) (op.chain ys)
    rw [ih, op.bits_assoc]

/-- Operands may be cut to a width before or after. -/
theorem truncate_bits (op : Operator) (w : Width) (x y : Word) :
    w.truncate (op.bits (w.truncate x) (w.truncate y)) = w.truncate (op.bits x y) := by
  refine w.truncate_congr fun i hi hbit => ?_
  cases op with
  | and =>
    rw [bits, bits, UInt64.toBitVec_and, UInt64.toBitVec_and, BitVec.getElem_and,
      BitVec.getElem_and, w.getElem_truncate hbit, w.getElem_truncate hbit]
  | or =>
    rw [bits, bits, UInt64.toBitVec_or, UInt64.toBitVec_or, BitVec.getElem_or, BitVec.getElem_or,
      w.getElem_truncate hbit, w.getElem_truncate hbit]
  | _ =>
    simp only [bits, UInt64.toBitVec_xor, BitVec.getElem_xor, w.getElem_truncate hbit]

theorem value_eq_bits (h : op.isAssociative = true) (x y : Word) (w : Width) :
    op.value [x, y] w = w.truncate (op.bits x y) := by
  rw [← op.truncate_bits]
  cases op <;> first | rfl | cases h

end Operator

namespace Balancing

variable {n n' n'' : Netlist} {op : Operator} {w : Width} {see : Fanin → Word} {v : Valuation}
  {cells : CellFunctions} {given : Values} {root d : Node} {t t' b c : Bracket} {others : List Node}
  {s : String}

/-! ## Values of brackets -/

namespace Bracket

/-- The value of a bracket of nodes of one operator and one width. -/
def word (op : Operator) (w : Width) (see : Fanin → Word) : Bracket → Word
  | leaf f => see f
  | join _ left right => op.value [left.word op w see, right.word op w see] w

/-- At the width of its nodes a bracket has the value of the chain of its leaves. -/
theorem truncate_word (h : op.isAssociative = true) (b : Bracket) :
    w.truncate (b.word op w see) = w.truncate (op.chain (b.leaves.map see)) := by
  induction b with
  | leaf f => exact congrArg w.truncate (op.bits_unit (see f)).symm
  | join node left right ihl ihr =>
    rw [word, Operator.value_eq_bits h, w.truncate_truncate, ← op.truncate_bits, ihl, ihr,
      op.truncate_bits, leaves, List.map_append, op.chain_append]

/-- In a solution a bracket is read with its value. -/
theorem Wired.seen_fanin (hwired : b.Wired)
    (hnodes : ∀ d ∈ b.nodes, d.kind = .op op ∧ n.width d.output = w ∧
      v.result n cells d = some (v d.output)) :
    v.seen n b.fanin = b.word op w (v.seen n) := by
  induction b with
  | leaf f => rfl
  | join node left right ihl ihr =>
    obtain ⟨hfanins, hl, hr⟩ := hwired
    obtain ⟨hkind, hwidth, hresult⟩ := hnodes node (.head _)
    have hleft := ihl hl fun d hd => hnodes d (.tail _ (List.mem_append_left _ hd))
    have hright := ihr hr fun d hd => hnodes d (.tail _ (List.mem_append_right _ hd))
    simp only [Valuation.result, hkind, hwidth, hfanins, List.map_cons, List.map_nil, hleft, hright,
      Option.some.injEq] at hresult
    exact hresult.symm

/-! ## Filling in a bracket -/

/-- The brackets of which a bracket is made, itself included, other than leaves. -/
def parts : Bracket → List Bracket
  | leaf _ => []
  | join node left right => join node left right :: (left.parts ++ right.parts)

theorem map_parts (b : Bracket) :
    (b.parts.map fun c => c.fanin.signal) = b.nodes.map Node.output := by
  induction b with
  | leaf f => rfl
  | join node left right ihl ihr =>
    rw [parts, nodes, List.map_cons, List.map_cons, List.map_append, List.map_append, ihl, ihr]
    rfl

/-- The bracket has the other one as a part or as a leaf. -/
def Has (b c : Bracket) : Prop := c ∈ b.parts ∨ ∃ f ∈ b.leaves, c = leaf f

theorem has_self (b : Bracket) : b.Has b := by
  cases b with
  | leaf f => exact .inr ⟨f, .head _, rfl⟩
  | join node left right => exact .inl (.head _)

theorem Has.left {node : Node} {l r : Bracket} (h : l.Has c) : (join node l r).Has c := by
  rcases h with hpart | ⟨f, hf, heq⟩
  · exact .inl (.tail _ (List.mem_append_left _ hpart))
  · exact .inr ⟨f, List.mem_append_left _ hf, heq⟩

theorem Has.right {node : Node} {l r : Bracket} (h : r.Has c) : (join node l r).Has c := by
  rcases h with hpart | ⟨f, hf, heq⟩
  · exact .inl (.tail _ (List.mem_append_right _ hpart))
  · exact .inr ⟨f, List.mem_append_right _ hf, heq⟩

/-- A part joins two brackets that the bracket has as well. -/
theorem part_cases (hc : c ∈ b.parts) :
    ∃ node l r, c = join node l r ∧ node ∈ b.nodes ∧ (b.Wired → c.Wired) ∧ b.Has l ∧ b.Has r := by
  induction b with
  | leaf f => cases hc
  | join node left right ihl ihr =>
    rcases List.mem_cons.1 hc with rfl | hc
    · exact ⟨node, left, right, rfl, .head _, id, left.has_self.left, right.has_self.right⟩
    · rcases List.mem_append.1 hc with hc | hc
      · obtain ⟨e, l, r, heq, he, hwired, hl, hr⟩ := ihl hc
        exact ⟨e, l, r, heq, .tail _ (List.mem_append_left _ he), fun h => hwired h.2.1, hl.left,
          hr.left⟩
      · obtain ⟨e, l, r, heq, he, hwired, hl, hr⟩ := ihr hc
        exact ⟨e, l, r, heq, .tail _ (List.mem_append_right _ he), fun h => hwired h.2.2, hl.right,
          hr.right⟩

/-- The valuation with the values of a bracket at the outputs of its nodes. -/
def filled (b : Bracket) (op : Operator) (w : Width) (see : Fanin → Word) (v : Valuation) :
    Valuation := fun s =>
  match b.parts.find? fun c => c.fanin.signal = s with
  | some c => c.word op w see
  | none => v s

theorem filled_of_notMem (hs : s ∉ b.nodes.map Node.output) : b.filled op w see v s = v s := by
  have hnone : (b.parts.find? fun c => c.fanin.signal = s) = none := by
    refine List.find?_eq_none.2 fun c hc => ?_
    rw [decide_eq_true_eq]
    rintro rfl
    exact hs (b.map_parts ▸ List.mem_map_of_mem hc)
  rw [filled, hnone]

theorem filled_part (hnodup : (b.nodes.map Node.output).Nodup) (hc : c ∈ b.parts) :
    b.filled op w see v c.fanin.signal = c.word op w see := by
  obtain ⟨found, hfound⟩ := Option.isSome_iff_exists.1
    (List.find?_isSome.2 ⟨c, hc, decide_eq_true rfl⟩ :
      (b.parts.find? fun c' => c'.fanin.signal = c.fanin.signal).isSome = true)
  have hsame : found = c := by
    rw [← b.map_parts] at hnodup
    refine List.inj_on_of_nodup_map hnodup (List.mem_of_find?_eq_some hfound) hc ?_
    simpa using List.find?_some hfound
  rw [filled, hfound, hsame]

/-- The nodes of a filled bracket have their results, if its leaves are read with their values. -/
theorem filled_result (hwired : b.Wired) (hnodup : (b.nodes.map Node.output).Nodup)
    (hnodes : ∀ d ∈ b.nodes, d.kind = .op op ∧ n.width d.output = w)
    (hleaves : ∀ f ∈ b.leaves, (b.filled op w see v).seen n f = see f) :
    ∀ d ∈ b.nodes, (b.filled op w see v).result n cells d =
      some (b.filled op w see v d.output) := by
  have hseen : ∀ {c}, b.Has c → (b.filled op w see v).seen n c.fanin = c.word op w see := by
    rintro c (hpart | ⟨f, hf, rfl⟩)
    · obtain ⟨e, l, r, rfl, -⟩ := part_cases hpart
      exact filled_part hnodup hpart
    · exact hleaves f hf
  intro d hd
  obtain ⟨c, hc, ho⟩ : ∃ c ∈ b.parts, c.fanin.signal = d.output := by
    have hmem := List.mem_map_of_mem (f := Node.output) hd
    rw [← b.map_parts] at hmem
    exact List.mem_map.1 hmem
  obtain ⟨e, l, r, rfl, he, hw, hl, hr⟩ := part_cases hc
  have hsame : e = d := List.inj_on_of_nodup_map hnodup he hd ho
  subst hsame
  obtain ⟨hkind, hwidth⟩ := hnodes e hd
  obtain ⟨hfanins, -, -⟩ := hw hwired
  have hvalue : b.filled op w see v e.output = _ := filled_part hnodup hc
  simp only [Valuation.result, hkind, hwidth, hfanins, List.map_cons, List.map_nil, hseen hl,
    hseen hr, hvalue]
  rfl

end Bracket

/-! ## Rebuilt trees -/

namespace Rebuilt

variable (h : Rebuilt n n' root t t' others) (ht : TreeAt n root t) (hl : n.Legal)
  (hc : n.Coherent) (hroot : root ∈ n.nodes)

include h ht hl hc hroot in
theorem outputs_nodup (hkind : root.kind.isAssociative = true) :
    (t'.nodes.map Node.output).Nodup := by
  have hsingle := (h.legal ht hl hc hroot hkind).single
  rw [(h.after.map Node.output).nodup_iff, List.map_append, List.nodup_append] at hsingle
  exact hsingle.1

include h ht hroot in
/-- The new bracket has the value that the root has. -/
theorem word_eq (hkind : root.kind = .op op) (hop : op.isAssociative = true)
    (hv : n.Solution cells given v) :
    t'.word op (n.width root.output) (v.seen n) = v root.output := by
  have hold : v root.output = t.word op (n.width root.output) (v.seen n) := by
    have hseen := ht.wired.seen_fanin fun d hd =>
      ⟨(ht.like hroot hd).2.1.trans hkind, (ht.like hroot hd).2.2, hv.node d (ht.like hroot hd).1⟩
    rw [ht.fanin_eq] at hseen
    exact hseen
  obtain ⟨fanins, l, r, htop⟩ := h.top
  have hfits : (n.width root.output).truncate (t'.word op (n.width root.output) (v.seen n)) =
      t'.word op (n.width root.output) (v.seen n) := by
    rw [htop]
    exact op.truncate_value _ _
  rw [← hfits, Bracket.truncate_word hop, h.leaves, ← Bracket.truncate_word hop, ← hold]
  exact hv.truncate_eq (isDefined_of_node hroot)

include h ht hl hc hroot in
/-- A solution goes over to the netlist with the rebuilt tree; signals that were taken keep their
values. -/
theorem solution (hkind : root.kind = .op op) (hop : op.isAssociative = true)
    (hv : n.Solution cells given v) :
    ∃ v', n'.Solution cells given v' ∧ ∀ s, n.isTaken s = true → v' s = v s := by
  have hassoc : root.kind.isAssociative = true := by
    rw [hkind]
    exact hop
  have hnodup := h.outputs_nodup ht hl hc hroot hassoc
  have htaken : ∀ s, n.isTaken s = true →
      t'.filled op (n.width root.output) (v.seen n) v s = v s := by
    intro s hs
    obtain ⟨fanins, hnodes, hfanin⟩ := h.root_after
    by_cases hs' : s = root.output
    · subst hs'
      have hself : t' ∈ t'.parts := by
        obtain ⟨_, l, r, htop⟩ := h.top
        rw [htop]
        exact .head _
      have hpart : t'.filled op (n.width root.output) (v.seen n) v t'.fanin.signal =
          t'.word op (n.width root.output) (v.seen n) := Bracket.filled_part hnodup hself
      rw [hfanin, h.word_eq ht hroot hkind hop hv] at hpart
      exact hpart
    · refine Bracket.filled_of_notMem fun hmem => ?_
      obtain ⟨d, hd, rfl⟩ := List.mem_map.1 hmem
      rw [hnodes] at hd
      rcases List.mem_cons.1 hd with rfl | hd
      · exact hs' rfl
      · exact h.new_ne hs hd rfl
  have hseen : ∀ f : Fanin, n.isDefined f.signal = true → (∀ d ∈ t.inner, d.output ≠ f.signal) →
      (t'.filled op (n.width root.output) (v.seen n) v).seen n' f = v.seen n f := by
    intro f hf hinner
    have hf := isTaken_of_isDefined hf
    exact Valuation.seen_congr (htaken _ hf) (h.width _ hf hinner)
  refine ⟨t'.filled op (n.width root.output) (v.seen n) v, ⟨fun i hi => ?_, fun m hm => ?_⟩, htaken⟩
  · rw [h.inputs] at hi
    rw [htaken i (isTaken_of_isDefined (isDefined_of_input hi)), h.width_port ht hl hroot (.inl hi)]
    exact hv.input i hi
  · rcases h.mem_after.1 hm with hm | hm
    · refine Bracket.filled_result h.wired hnodup (fun d hd => ?_) (fun f hf => ?_) m hm
      · exact ⟨(h.kind_tree hd).trans hkind, h.width_tree ht hl hc hroot hd⟩
      · rw [h.leaves] at hf
        exact hseen f (leaf_defined ht hl hroot hf) fun d hd => (ht.leaf_ne hc hroot hf hd).symm
    · have hmn := h.mem_before.2 (.inr hm)
      rw [htaken _ (isTaken_of_isDefined (isDefined_of_node hmn)), ← hv.node m hmn]
      refine Valuation.result_congr rfl (h.width_others ht hl hc hroot hm) ?_
      exact List.map_congr_left fun f hf => hseen f (hl.reads m hmn f hf) fun d hd =>
        h.others_read ht hc hroot hm hf hd

end Rebuilt

/-! ## Whole passes -/

/-- What a pass makes of a netlist whose nodes keep their places: where a node of the first netlist
has stood, there is one with its output and its value or none at all. -/
structure Continues (n n' : Netlist) : Prop where
  outputs : n'.outputs = n.outputs
  arena : n.arena.length ≤ n'.arena.length
  nodeCount : n'.nodeCount = n.nodeCount
  old : ∀ m' ∈ n'.nodes, m'.id.index < n.arena.length → ∃ m ∈ n.nodes,
    m.id = m'.id ∧ m.output = m'.output
  /-- Other nodes than those of trees stay as they are, and outputs keep their drivers. -/
  survives : ∀ m ∈ n.nodes, m.kind.isAssociative = false ∨ m.output ∈ n.outputs →
    ∃ m' ∈ n'.nodes, m'.id = m.id ∧ m'.kind = m.kind ∧ m'.output = m.output
  solves : ∀ cells given v, n.Solution cells given v → ∃ v', n'.Solution cells given v' ∧
    (∀ o ∈ n.outputs, v' o = v o) ∧
    ∀ m' ∈ n'.nodes, m'.id.index < n.arena.length → v' m'.output = v m'.output

namespace Continues

theorem refl (n : Netlist) : Continues n n where
  outputs := rfl
  arena := Nat.le_refl _
  nodeCount := rfl
  old m hm _ := ⟨m, hm, rfl, rfl⟩
  survives m hm _ := ⟨m, hm, rfl, rfl, rfl⟩
  solves _ _ v hv := ⟨v, hv, fun _ _ => rfl, fun _ _ _ => rfl⟩

theorem trans (h : Continues n n') (h' : Continues n' n'') : Continues n n'' where
  outputs := h'.outputs.trans h.outputs
  arena := h.arena.trans h'.arena
  nodeCount := h'.nodeCount.trans h.nodeCount
  old m'' hm'' hlt := by
    obtain ⟨m', hm', hid', ho'⟩ := h'.old m'' hm'' (hlt.trans_le h.arena)
    obtain ⟨m, hm, hid, ho⟩ := h.old m' hm' (hid' ▸ hlt)
    exact ⟨m, hm, hid.trans hid', ho.trans ho'⟩
  survives m hm hstays := by
    obtain ⟨m', hm', hid', hkind', ho'⟩ := h.survives m hm hstays
    obtain ⟨m'', hm'', hid, hkind, ho⟩ := h'.survives m' hm' (by rwa [hkind', ho', h.outputs])
    exact ⟨m'', hm'', hid.trans hid', hkind.trans hkind', ho.trans ho'⟩
  solves cells given v hv := by
    obtain ⟨v', hv', hports', hold'⟩ := h.solves cells given v hv
    obtain ⟨v'', hv'', hports, hold⟩ := h'.solves cells given v' hv'
    refine ⟨v'', hv'', fun o ho => ?_, fun m'' hm'' hlt => ?_⟩
    · rw [hports o (h.outputs ▸ ho), hports' o ho]
    · obtain ⟨m', hm', hid', ho'⟩ := h'.old m'' hm'' (hlt.trans_le h.arena)
      rw [hold m'' hm'' (hlt.trans_le h.arena), ← ho', hold' m' hm' (hid' ▸ hlt)]

end Continues

namespace Rebuilt

variable (h : Rebuilt n n' root t t' others) (ht : TreeAt n root t) (hroot : root ∈ n.nodes)

include h hroot in
/-- At the places that were there, only nodes from before stand, the root among them. -/
theorem old {m' : Node} (hm' : m' ∈ n'.nodes) (hlt : m'.id.index < n.arena.length) :
    ∃ m ∈ n.nodes, m.id = m'.id ∧ m.output = m'.output := by
  rcases h.mem_after.1 hm' with hm' | hm'
  · obtain ⟨fanins, hnodes, -⟩ := h.root_after
    rw [hnodes] at hm'
    rcases List.mem_cons.1 hm' with rfl | hm'
    · exact ⟨root, hroot, rfl, rfl⟩
    · have hplace := h.places m' hm'
      omega
  · exact ⟨m', h.mem_before.2 (.inr hm'), rfl, rfl⟩

include h ht hroot in
/-- Only inner nodes of the tree go: they have its kind and drive no output. -/
theorem survives (hkind : root.kind.isAssociative = true) {m : Node} (hm : m ∈ n.nodes)
    (hstays : m.kind.isAssociative = false ∨ m.output ∈ n.outputs) :
    ∃ m' ∈ n'.nodes, m'.id = m.id ∧ m'.kind = m.kind ∧ m'.output = m.output := by
  rcases h.mem_before.1 hm with hm | hm
  · rw [ht.nodes_eq] at hm
    rcases List.mem_cons.1 hm with rfl | hm
    · obtain ⟨fanins, hnodes, -⟩ := h.root_after
      refine ⟨{ m with fanins }, h.mem_after.2 (.inl ?_), rfl, rfl, rfl⟩
      rw [hnodes]
      exact .head _
    · rcases hstays with hother | hport
      · rw [(ht.like hroot (ht.nodes_eq ▸ .tail _ hm)).2.1, hkind] at hother
        cases hother
      · obtain ⟨q, -, g, -, hj⟩ := ht.joined hm
        exact absurd (hj.output ▸ hport) hj.inner
  · exact ⟨m, h.mem_after.2 (.inr hm), rfl, rfl, rfl⟩

end Rebuilt

/-- Building one tree anew. -/
theorem Rebuilds.continues (h : Rebuilds n n') : Continues n n' := by
  cases h with
  | @mk root t t' _ hl hc hroot hkind _ ht hr =>
    obtain ⟨op, hop, hassoc⟩ : ∃ op, root.kind = .op op ∧ op.isAssociative = true := by
      cases hk : root.kind with
      | op op => exact ⟨op, rfl, by rwa [hk] at hkind⟩
      | _ =>
        rw [hk] at hkind
        cases hkind
    refine ⟨hr.outputs, hr.arena, ?_, fun _ => hr.old hroot, fun _ => hr.survives ht hroot hkind,
      fun cells given v hv => ?_⟩
    · rw [nodeCount, nodeCount, hr.before.length_eq, hr.after.length_eq, List.length_append,
        List.length_append, hr.length_nodes]
    · obtain ⟨v', hv', hkept⟩ := hr.solution ht hl hc hroot hop hassoc hv
      refine ⟨v', hv', fun o ho => hkept o (isTaken_of_isDefined (hl.driven o ho)),
        fun m' hm' hlt => ?_⟩
      obtain ⟨m, hm, -, ho⟩ := hr.old hroot hm' hlt
      rw [← ho]
      exact hkept _ (isTaken_of_isDefined (isDefined_of_node hm))

theorem continues_of_steps (h : Relation.ReflTransGen Rebuilds n n') : Continues n n' := by
  induction h with
  | refl => exact .refl n
  | tail _ hstep ih => exact ih.trans hstep.continues

end Balancing

namespace Netlist

variable {n : Netlist}

/-- Balancing succeeds on every netlist that validates, and what it makes of it computes the same.
It has as many nodes, and no tree of it is too deep. The nodes that are still there, among them all
that are no part of trees or drive outputs, have their outputs and, in every simulation, their
values. -/
theorem balanceTrees_reproduces (hc : n.Coherent) (hv : n.validate = .ok ()) :
    ∃ n' rebuilt, n.balanceTrees = (n', .ok rebuilt) ∧ (∀ q, ¬ Balancing.Deep n' q) ∧
      n'.Reproduces n ∧ n'.nodeCount = n.nodeCount ∧
      (∀ m ∈ n.nodes, m.kind.isAssociative = false ∨ m.output ∈ n.outputs →
        ∃ m' ∈ n'.nodes, m'.id = m.id) ∧
      (∀ m ∈ n.nodes, ∀ m' ∈ n'.nodes, m'.id = m.id → m'.output = m.output) ∧
      ∀ cells e given values, Evaluator.ofNetlist n cells = .ok e →
        e.simulate given = .ok values →
        ∃ e' values', Evaluator.ofNetlist n' cells = .ok e' ∧ e'.simulate given = .ok values' ∧
          ∀ m ∈ n.nodes, ∀ m' ∈ n'.nodes, m'.id = m.id →
            values'.find? m'.output = values.find? m.output := by
  have hl := hc.legal_of_validate hv
  obtain ⟨n', rebuilt, hrun, hbalanced⟩ := hl.balanceTrees_balanced hc
  have hcont := Balancing.continues_of_steps hbalanced.steps
  have hoff : ∀ m ∈ n.nodes, ∀ m' ∈ n'.nodes, m'.id = m.id → m'.output = m.output := by
    intro m hm m' hm' hid
    obtain ⟨p, hp, hpid, hpo⟩ := hcont.old m' hm' (hid ▸ hc.index_lt hm)
    rw [← hpo, hc.eq_of_id hp hm (hpid.trans hid)]
  refine ⟨n', rebuilt, hrun, hbalanced.flat, ?_, hcont.nodeCount, fun m hm hstays => ?_, hoff, ?_⟩
  · refine hbalanced.preserved.reproduces hl hc fun cells given v hv => ?_
    obtain ⟨v', hv', hports, -⟩ := hcont.solves cells given v hv
    exact ⟨v', hv', hports⟩
  · obtain ⟨m', hm', hid, -⟩ := hcont.survives m hm hstays
    exact ⟨m', hm', hid⟩
  · intro cells e given values he hvalues
    have hsol := hl.solution_of_simulate hc he hvalues
    obtain ⟨v', hv', -, hold⟩ := hcont.solves cells given _ hsol
    obtain ⟨e₀, values₀, he₀, hvalues₀, hfind⟩ := hl.simulate_of_solution hc hsol
    rw [he] at he₀
    cases he₀
    rw [hvalues] at hvalues₀
    cases hvalues₀
    obtain ⟨e', values', he', hvalues', hfind'⟩ :=
      hbalanced.preserved.legal.simulate_of_solution hbalanced.preserved.coherent hv'
    refine ⟨e', values', he', hvalues', fun m hm m' hm' hid => ?_⟩
    rw [hfind' _ (isDefined_of_node hm'), hold m' hm' (hid ▸ hc.index_lt hm), hoff m hm m' hm' hid,
      hfind _ (isDefined_of_node hm)]

end Netlist

namespace RetakenNames

/-- Two chains that are too deep, with leaves of other widths and inverted ones. The first one, of
three bits, has inner nodes with names that balancing takes for the second one, of two bits. -/
def netlist : Netlist where
  name := "retaken"
  inputs := ["a", "b"]
  outputs := ["p", "q"]
  widths := ⟨[("a", 4), ("b", 2), ("_bal2", 3), ("_bal3", 3), ("p", 3), ("s", 2), ("t", 2),
    ("q", 2)].map (Prod.map id fun bits => (Width.ofNat? bits).getD .one)⟩
  arena := [some ⟨⟨0⟩, .op .xor, [.plain "a", ⟨"b", true⟩], "_bal2"⟩,
    some ⟨⟨1⟩, .op .xor, [.plain "_bal2", .plain "a"], "_bal3"⟩,
    some ⟨⟨2⟩, .op .xor, [.plain "_bal3", ⟨"a", true⟩], "p"⟩,
    some ⟨⟨3⟩, .op .and, [.plain "p", ⟨"b", true⟩], "s"⟩,
    some ⟨⟨4⟩, .op .and, [.plain "s", .plain "a"], "t"⟩,
    some ⟨⟨5⟩, .op .and, [.plain "t", .plain "a"], "q"⟩]
  wires := [⟨"a", ⟨0⟩, 0⟩, ⟨"b", ⟨0⟩, 1⟩, ⟨"_bal2", ⟨1⟩, 0⟩, ⟨"a", ⟨1⟩, 1⟩, ⟨"_bal3", ⟨2⟩, 0⟩,
    ⟨"a", ⟨2⟩, 1⟩, ⟨"p", ⟨3⟩, 0⟩, ⟨"b", ⟨3⟩, 1⟩, ⟨"s", ⟨4⟩, 0⟩, ⟨"a", ⟨4⟩, 1⟩, ⟨"t", ⟨5⟩, 0⟩,
    ⟨"a", ⟨5⟩, 1⟩]
  nextFresh := 0

theorem coherent : netlist.Coherent := by
  refine ⟨fun {i node} h => ?_, by decide, by decide, by decide⟩
  match i, h with
  | 0, h | 1, h | 2, h | 3, h | 4, h | 5, h =>
    cases h
    rfl

theorem validate : netlist.validate = .ok () := by
  rw [Netlist.validate, Netlist.checkWires_of_derived (by decide)]
  decide

end RetakenNames

/-- Both chains are built anew, and `_bal2` is a signal of the second one now. -/
theorem balanceTrees_reproduces_retakenNames :
    RetakenNames.netlist.Coherent ∧ RetakenNames.netlist.validate = .ok () ∧
      ∃ n', RetakenNames.netlist.balanceTrees = (n', .ok 2) ∧ n'.nodeCount = 6 ∧
        (n'.width "_bal2").bits = 2 ∧
        ∃ e, Evaluator.ofNetlist n' .none = .ok e ∧
          e.evaluate ⟨[("a", 11), ("b", 2)]⟩ = .ok [("p", 5), ("q", 1)] := by
  obtain ⟨n', rebuilt, hbalance, -, hreproduces, hcount, -⟩ :=
    Netlist.balanceTrees_reproduces RetakenNames.coherent RetakenNames.validate
  have hrebuilt : RetakenNames.netlist.balanceTrees.2 = .ok 2 := by decide
  have hwidth : (RetakenNames.netlist.balanceTrees.1.width "_bal2").bits = 2 := by decide
  rw [hbalance] at hrebuilt hwidth
  cases hrebuilt
  refine ⟨RetakenNames.coherent, RetakenNames.validate, n', hbalance, hcount, hwidth, ?_⟩
  exact hreproduces _ ⟨RetakenNames.netlist, [⟨0⟩, ⟨1⟩, ⟨2⟩, ⟨3⟩, ⟨4⟩, ⟨5⟩], .none⟩ _ _
    rfl (by decide)

end GateSynth
