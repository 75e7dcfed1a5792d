import GateSynth.Proofs.Netlist.FreshNames
import GateSynth.Proofs.Optimize.Trees

/-!
# Joining fanins level by level

What `joinPairs` and `joinLevels` build over a list of fanins: nodes of one kind and one width on
new signals (`Added`), which bracket the fanins in their order. The nodes read below the root that
the level is for (`Level`), and no path is longer than it needs to be, since every round halves the
level (`joinLevels_spec`).
-/

namespace GateSynth

open Netlist

namespace Balancing

variable {n n' n'' : Netlist} {kind : Kind} {w : Width} {top : String} {bs : List Bracket}

/-! ## Added nodes -/

/-- Nodes of one kind and one width were added on new signals. -/
structure Added (n n' : Netlist) (new : List Node) (kind : Kind) (w : Width) : Prop where
  coherent : n'.Coherent
  name : n'.name = n.name
  inputs : n'.inputs = n.inputs
  outputs : n'.outputs = n.outputs
  nodes : n'.nodes = n.nodes ++ new
  arena : n.arena.length ≤ n'.arena.length
  kind : ∀ d ∈ new, d.kind = kind
  free : ∀ d ∈ new, n.isTaken d.output = false
  places : ∀ d ∈ new, n.arena.length ≤ d.id.index
  distinct : (new.map Node.output).Nodup
  width : ∀ s, n'.width s = if s ∈ new.map Node.output then w else n.width s
  taken : ∀ s, n'.isTaken s = true ↔ s ∈ new.map Node.output ∨ n.isTaken s = true

theorem Added.refl (hc : n.Coherent) : Added n n [] kind w :=
  ⟨hc, rfl, rfl, rfl, (List.append_nil _).symm, Nat.le_refl _, by simp, by simp, by simp, .nil,
    by simp, by simp⟩

theorem Added.trans {new new' : List Node} (h : Added n n' new kind w)
    (h' : Added n' n'' new' kind w) : Added n n'' (new ++ new') kind w := by
  have hfree : ∀ d ∈ new', d.output ∉ new.map Node.output ∧ n.isTaken d.output = false := by
    intro d hd
    have hd' := h'.free d hd
    rw [Bool.eq_false_iff, ne_eq, h.taken, not_or] at hd'
    exact ⟨hd'.1, Bool.eq_false_iff.2 hd'.2⟩
  constructor
  case coherent => exact h'.coherent
  case name => exact h'.name.trans h.name
  case inputs => exact h'.inputs.trans h.inputs
  case outputs => exact h'.outputs.trans h.outputs
  case nodes =>
    rw [h'.nodes, h.nodes, List.append_assoc]
  case arena => exact h.arena.trans h'.arena
  case kind =>
    intro d hd
    exact (List.mem_append.1 hd).elim (h.kind d) (h'.kind d)
  case free =>
    intro d hd
    exact (List.mem_append.1 hd).elim (h.free d) fun hd => (hfree d hd).2
  case places =>
    intro d hd
    exact (List.mem_append.1 hd).elim (h.places d) fun hd => h.arena.trans (h'.places d hd)
  case distinct =>
    rw [List.map_append]
    refine List.nodup_append.2 ⟨h.distinct, h'.distinct, fun a ha b hb hab => ?_⟩
    subst hab
    obtain ⟨d, hd, rfl⟩ := List.mem_map.1 hb
    exact (hfree d hd).1 ha
  case width =>
    intro s
    rw [h'.width, h.width, List.map_append]
    by_cases hs : s ∈ new.map Node.output <;> by_cases hs' : s ∈ new'.map Node.output <;>
      simp [hs, hs']
  case taken =>
    intro s
    rw [h'.taken, h.taken, List.map_append, List.mem_append]
    tauto

/-- A node on a new signal is an addition of its own. -/
theorem Added.of_addNode {fanins : List Fanin} {id : NodeId} (hc : n.Coherent)
    (hadd : (n.newSignal "bal" w).1.addNode kind fanins (n.newSignal "bal" w).2 = .ok (n', id)) :
    Added n n' [⟨id, kind, fanins, (n.newSignal "bal" w).2⟩] kind w := by
  have hnew := newNode_of_addNode hadd
  obtain ⟨-, -, hid, hn'⟩ := addNode_eq_ok hadd
  constructor
  case coherent => exact hnew.coherent hc
  case name => exact hnew.name
  case inputs => exact hnew.inputs
  case outputs => exact hnew.outputs
  case nodes => exact hnew.nodes
  case arena =>
    rw [hn', List.length_append]
    exact Nat.le_add_right _ _
  case kind =>
    rintro d hd
    rw [List.mem_singleton.1 hd]
  case free =>
    rintro d hd
    rw [List.mem_singleton.1 hd]
    exact hnew.free
  case places =>
    rintro d hd
    rw [List.mem_singleton.1 hd, hid]
    exact Nat.le_refl _
  case distinct => exact List.nodup_singleton _
  case width =>
    intro s
    simpa using hnew.width s
  case taken =>
    intro s
    simpa using hnew.taken s

/-! ## One node -/

/-- The brackets of a list can be joined below a signal: they are read from signals that are taken
and ranked below it. -/
structure Level (n : Netlist) (top : String) (bs : List Bracket) : Prop where
  coherent : n.Coherent
  reads : ∀ m ∈ n.nodes, ∀ f ∈ m.fanins, n.isTaken f.signal = true
  root : n.isTaken top = true
  taken : ∀ b ∈ bs, n.isTaken b.fanin.signal = true
  wired : ∀ b ∈ bs, b.Wired
  ranked : ∃ rank, n.Ranked rank ∧ 0 < rank top ∧ ∀ b ∈ bs, rank b.fanin.signal < rank top

theorem Level.mono {bs' : List Bracket} (h : Level n top bs) (hsub : bs' ⊆ bs) :
    Level n top bs' := by
  obtain ⟨rank, hrank, hpos, hbelow⟩ := h.ranked
  exact ⟨h.coherent, h.reads, h.root, fun b hb => h.taken b (hsub hb),
    fun b hb => h.wired b (hsub hb), rank, hrank, hpos, fun b hb => hbelow b (hsub hb)⟩

theorem arity_of_associative (hkind : kind.isAssociative = true) : kind.arity? = some 2 := by
  cases kind with
  | op op => cases op <;> first | rfl | cases hkind
  | _ => cases hkind

/-- A node that reads below the root leaves room between its rank and that of the root. -/
theorem ranked_of_newNode {node : Node} (h : NewNode n n' node w) {rank : String → Nat}
    (hrank : n.Ranked rank) (hreads : ∀ m ∈ n.nodes, ∀ f ∈ m.fanins, n.isTaken f.signal = true)
    (hfanins : ∀ f ∈ node.fanins, n.isTaken f.signal = true ∧ rank f.signal < rank top)
    (htop : n.isTaken top = true) (hpos : 0 < rank top) :
    ∃ rank', n'.Ranked rank' ∧ 0 < rank' top ∧ rank' node.output < rank' top ∧
      ∀ s, n.isTaken s = true → rank s < rank top → rank' s < rank' top := by
  refine ⟨fun s => if s = node.output then 2 * rank top - 1 else 2 * rank s, fun m hm f hf => ?_,
    ?_, ?_, fun s hs hlt => ?_⟩
  · dsimp only
    rcases h.mem_nodes.1 hm with hm | rfl
    · have hlt := hrank m hm f hf
      rw [if_neg (h.ne_of_taken (hreads m hm f hf)),
        if_neg (h.ne_of_taken (isTaken_of_isDefined (isDefined_of_node hm)))]
      omega
    · obtain ⟨htaken, hlt⟩ := hfanins f hf
      rw [if_neg (h.ne_of_taken htaken), if_pos rfl]
      omega
  · dsimp only
    rw [if_neg (h.ne_of_taken htop)]
    omega
  · dsimp only
    rw [if_pos rfl, if_neg (h.ne_of_taken htop)]
    omega
  · dsimp only
    rw [if_neg (h.ne_of_taken hs), if_neg (h.ne_of_taken htop)]
    omega

/-- Joining two brackets of a level with a node on a new signal. -/
theorem Level.join {l r : Bracket} (hkind : kind.isAssociative = true)
    (h : Level n top (l :: r :: bs)) :
    ∃ n' id, (n.newSignal "bal" w).1.addNode kind [l.fanin, r.fanin] (n.newSignal "bal" w).2 =
        .ok (n', id) ∧
      Added n n' [⟨id, kind, [l.fanin, r.fanin], (n.newSignal "bal" w).2⟩] kind w ∧
      Level n' top (.join ⟨id, kind, [l.fanin, r.fanin], (n.newSignal "bal" w).2⟩ l r :: bs) := by
  have hundefined : (n.newSignal "bal" w).1.isDefined (n.newSignal "bal" w).2 = false :=
    (not_taken_iff.1 (newSignal_not_taken n "bal" w)).2.1
  have harity : ∀ k, kind.arity? = some k → k = [l.fanin, r.fanin].length := by
    intro k hk
    rw [arity_of_associative hkind] at hk
    cases hk
    rfl
  obtain ⟨n', id, hadd⟩ := addNode_isOk harity hundefined
  have hnew := newNode_of_addNode hadd
  obtain ⟨rank, hrank, hpos, hbelow⟩ := h.ranked
  have hfanins : ∀ f ∈ [l.fanin, r.fanin],
      n.isTaken f.signal = true ∧ rank f.signal < rank top := by
    intro f hf
    rcases List.mem_cons.1 hf with rfl | hf
    · exact ⟨h.taken l (.head _), hbelow l (.head _)⟩
    · rw [List.mem_singleton.1 hf]
      exact ⟨h.taken r (.tail _ (.head _)), hbelow r (.tail _ (.head _))⟩
  obtain ⟨rank', hrank', hpos', hnode, hold⟩ :=
    ranked_of_newNode hnew hrank h.reads hfanins h.root hpos
  have htaken : ∀ {s}, n.isTaken s = true → n'.isTaken s = true := fun hs =>
    (hnew.taken _).2 (.inr hs)
  refine ⟨n', id, hadd, .of_addNode h.coherent hadd, ?_⟩
  constructor
  case coherent => exact hnew.coherent h.coherent
  case reads =>
    intro m hm f hf
    rcases hnew.mem_nodes.1 hm with hm | rfl
    · exact htaken (h.reads m hm f hf)
    · exact htaken (hfanins f hf).1
  case root => exact htaken h.root
  case taken =>
    intro b hb
    rcases List.mem_cons.1 hb with rfl | hb
    · exact (hnew.taken _).2 (.inl rfl)
    · exact htaken (h.taken b (.tail _ (.tail _ hb)))
  case wired =>
    intro b hb
    rcases List.mem_cons.1 hb with rfl | hb
    · exact ⟨rfl, h.wired l (.head _), h.wired r (.tail _ (.head _))⟩
    · exact h.wired b (.tail _ (.tail _ hb))
  case ranked =>
    refine ⟨rank', hrank', hpos', fun b hb => ?_⟩
    rcases List.mem_cons.1 hb with rfl | hb
    · exact hnode
    · exact hold _ (h.taken b (.tail _ (.tail _ hb))) (hbelow b (.tail _ (.tail _ hb)))

/-! ## Levels -/

/-- New nodes bracket the brackets of a level without changing the order of the leaves. -/
structure Joined (bs bs' : List Bracket) (new : List Node) : Prop where
  leaves : bs'.flatMap Bracket.leaves = bs.flatMap Bracket.leaves
  nodes : (bs'.flatMap Bracket.nodes).Perm (new ++ bs.flatMap Bracket.nodes)

theorem Joined.refl (bs : List Bracket) : Joined bs bs [] := ⟨rfl, .refl _⟩

theorem Joined.trans {bs' bs'' : List Bracket} {new new' : List Node} (h : Joined bs bs' new)
    (h' : Joined bs' bs'' new') : Joined bs bs'' (new ++ new') := by
  refine ⟨h'.leaves.trans h.leaves, h'.nodes.trans ?_⟩
  refine (h.nodes.append_left new').trans ?_
  rw [← List.append_assoc]
  exact List.perm_append_comm.append_right _

/-- One round joins neighbours; the brackets of `others` wait beside it. -/
theorem joinPairs_spec (hkind : kind.isAssociative = true) : ∀ {n : Netlist}
    (bs others : List Bracket), Level n top (bs ++ others) →
    ∃ n' new bs', joinPairs kind w (bs.map Bracket.fanin) n = .ok (n', bs'.map Bracket.fanin) ∧
      Added n n' new kind w ∧ Level n' top (bs' ++ others) ∧ Joined bs bs' new ∧
      bs'.length = (bs.length + 1) / 2 ∧
      ∀ k, (∀ b ∈ bs, b.depth ≤ k) → ∀ b ∈ bs', b.depth ≤ k + 1
  | n, [], others, h =>
    ⟨n, [], [], rfl, .refl h.coherent, h, .refl _, rfl, fun _ _ b hb => by cases hb⟩
  | n, [b], others, h =>
    ⟨n, [], [b], rfl, .refl h.coherent, h, .refl _, by simp,
      fun k hk b hb => (hk b hb).trans (Nat.le_succ k)⟩
  | n, l :: r :: rest, others, h => by
    obtain ⟨n₁, id, hadd, hadded, hlevel⟩ := h.join (w := w) hkind
    obtain ⟨n', new, bs', hjoin, hadded', hlevel', hjoined, hlength, hdepth⟩ :=
      joinPairs_spec hkind rest (.join ⟨id, kind, [l.fanin, r.fanin], (n.newSignal "bal" w).2⟩ l r ::
        others) (hlevel.mono List.perm_middle.subset)
    refine ⟨n', _, .join ⟨id, kind, [l.fanin, r.fanin], (n.newSignal "bal" w).2⟩ l r :: bs', ?_,
      hadded.trans hadded', hlevel'.mono List.perm_middle.symm.subset, ⟨?_, ?_⟩, ?_,
      fun k hk b hb => ?_⟩
    · rw [List.map_cons, List.map_cons, joinPairs]
      dsimp only
      rw [hadd]
      show (joinPairs kind w (rest.map Bracket.fanin) n₁ >>= _) = _
      rw [hjoin]
      rfl
    · simp only [List.flatMap_cons, Bracket.leaves, hjoined.leaves, List.append_assoc]
    · simp only [List.flatMap_cons, Bracket.nodes, List.cons_append, List.nil_append,
        List.append_assoc]
      refine .cons _ ?_
      refine List.perm_iff_count.2 fun m => ?_
      have hcount := hjoined.nodes.count_eq m
      simp only [List.count_append] at hcount ⊢
      omega
    · simp only [List.length_cons, hlength]
      omega
    · rcases List.mem_cons.1 hb with rfl | hb
      · have hl := hk l (.head _)
        have hr := hk r (.tail _ (.head _))
        simp only [Bracket.depth]
        omega
      · exact hdepth k (fun b hb => hk b (.tail _ (.tail _ hb))) b hb

theorem minDepth_half {m : Nat} (hm : 2 < m) : minDepth ((m + 1) / 2) + 1 = minDepth m := by
  have hhalf : (m + 1) / 2 - 1 = (m - 1) / 2 := by omega
  rw [minDepth, minDepth, if_neg (by omega), if_neg (by omega), hhalf, Nat.log2_def (m - 1),
    if_pos (by omega)]

/-- The rounds end with two brackets whose depth is the least that there is for so many. -/
theorem joinLevels_spec (hkind : kind.isAssociative = true) {rounds : Nat}
    (h : Level n top bs) (hrounds : bs.length ≤ rounds + 2) (htwo : 2 ≤ bs.length) :
    ∃ n' new l r, joinLevels kind w rounds (bs.map Bracket.fanin) n =
        .ok (n', [l.fanin, r.fanin]) ∧
      Added n n' new kind w ∧ Level n' top [l, r] ∧ Joined bs [l, r] new ∧
      ∀ k, (∀ b ∈ bs, b.depth ≤ k) → ∀ b ∈ [l, r], b.depth + 1 ≤ k + minDepth bs.length := by
  induction rounds generalizing n bs with
  | zero =>
    obtain ⟨l, r, rfl⟩ := List.length_eq_two.1 (Nat.le_antisymm hrounds htwo)
    refine ⟨n, [], l, r, rfl, .refl h.coherent, h, .refl _, fun k hk b hb => ?_⟩
    exact Nat.succ_le_succ (hk b hb)
  | succ rounds ih =>
    rw [joinLevels, List.length_map]
    by_cases hlength : bs.length ≤ 2
    · rw [if_pos hlength]
      obtain ⟨l, r, rfl⟩ := List.length_eq_two.1 (Nat.le_antisymm hlength htwo)
      refine ⟨n, [], l, r, rfl, .refl h.coherent, h, .refl _, fun k hk b hb => ?_⟩
      exact Nat.succ_le_succ (hk b hb)
    · rw [if_neg hlength]
      obtain ⟨n₁, new, bs', hpairs, hadded, hlevel, hjoined, hhalf, hdepth⟩ :=
        joinPairs_spec (w := w) hkind bs [] (by rwa [List.append_nil])
      rw [List.append_nil] at hlevel
      obtain ⟨n', new', l, r, hlevels, hadded', hlevel', hjoined', hdepth'⟩ :=
        ih hlevel (by omega) (by omega)
      refine ⟨n', new ++ new', l, r, ?_, hadded.trans hadded', hlevel', hjoined.trans hjoined',
        fun k hk b hb => ?_⟩
      · rw [hpairs]
        exact hlevels
      · have hle := hdepth' (k + 1) (hdepth k hk) b hb
        have hmin := minDepth_half (m := bs.length) (by omega)
        rw [hhalf] at hle
        omega

end Balancing

end GateSynth
