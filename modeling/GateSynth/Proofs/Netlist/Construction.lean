import GateSynth.Proofs.Netlist.FreshNames
import Mathlib.Data.List.Perm.Basic

/-!
# What every operation keeps

A netlist that was built by its operations is not yet legal: nodes may read signals that nothing
defines, outputs may be undriven and there may be loops. But the operations refuse more than
`Coherent` says: a node always has the fanins that its kind takes, drives a signal of its own, and
ports always have a declared width. `Consistent` collects this, and there is one lemma for each
operation that keeps it. Nodes may be put at any free place (`insertNode_eq_ok_iff`); they are
listed by place all the same, so the new list is known up to its order
(`Coherent.nodes_insertNode`).

In a consistent netlist a signal has the driver that the nodes say it has
(`Consistent.driver?_eq_some_iff`), and the operations change drivers one signal at a time.
-/

namespace GateSynth.Netlist

variable {n n' : Netlist} {id : NodeId} {node : Node} {kind : Kind} {fanins : List Fanin}
  {name signal output : String}

/-! ## Putting nodes at a place -/

/-- What it takes to put a node at a place, and what comes of it. -/
theorem insertNode_eq_ok_iff :
    n.insertNode id kind fanins output = .ok n' ↔
      (∀ k, kind.arity? = some k → k = fanins.length) ∧ n.isDefined output = false ∧
        n.node? id = none ∧
        n' = { n with arena := placeNode n.arena id.index ⟨id, kind, fanins, output⟩ } := by
  rw [insertNode, bind_eq_ok_iff, checkArity_eq_ok_iff, isDefined]
  refine and_congr_right fun _ => ?_
  cases hdriver : n.driver? output with
  | some existing => simp [throw, throwThe, MonadExceptOf.throw, bind, Except.bind]
  | none =>
    cases hinput : n.isInput output with
    | true => simp [throw, throwThe, MonadExceptOf.throw, bind, Except.bind]
    | false =>
      cases hplace : n.node? id with
      | some existing => simp [throw, throwThe, MonadExceptOf.throw, bind, Except.bind]
      | none => simp [pure, Except.pure, eq_comm]

/-- A place holds the node that was put there and every other place what it held. -/
theorem getElem?_placeNode (arena : List (Option Node)) (place : Nat) (node : Node) (i : Nat) :
    (placeNode arena place node)[i]?.getD none =
      if i = place then some node else arena[i]?.getD none := by
  rw [placeNode]
  split
  · next hlt =>
    rw [List.getElem?_set]
    by_cases hi : i = place
    · subst hi
      simp [hlt]
    · simp [hi, Ne.symm hi]
  · next hge =>
    rw [List.append_assoc]
    rcases Nat.lt_or_ge i arena.length with hlt | hge'
    · rw [List.getElem?_append_left hlt, if_neg (by omega)]
    · rw [List.getElem?_append_right hge', List.getElem?_eq_none hge']
      rcases Nat.lt_trichotomy i place with hlt | rfl | hgt
      · rw [List.getElem?_append_left (by simp; omega), List.getElem?_replicate,
          if_pos (by omega), if_neg (by omega)]
        rfl
      · simp
      · rw [List.getElem?_eq_none (by simp; omega), if_neg (by omega)]

theorem node?_insertNode (h : n.insertNode id kind fanins output = .ok n') (other : NodeId) :
    n'.node? other = if other = id then some ⟨id, kind, fanins, output⟩ else n.node? other := by
  obtain ⟨-, -, -, rfl⟩ := insertNode_eq_ok_iff.1 h
  rw [node?, getElem?_placeNode]
  refine if_congr ?_ rfl rfl
  obtain ⟨i⟩ := id
  obtain ⟨j⟩ := other
  simp

theorem Coherent.insertNode (hc : n.Coherent) (h : n.insertNode id kind fanins output = .ok n') :
    n'.Coherent := by
  have hnode := node?_insertNode h
  obtain ⟨-, -, -, hn'⟩ := insertNode_eq_ok_iff.1 h
  rw [hn']
  refine hc.of_arena fun {i m} hi => ?_
  have hm : n'.node? ⟨i⟩ = some m := by
    rw [node?_eq_arena, hn']
    exact hi
  rw [hnode] at hm
  split at hm
  · next heq =>
    cases hm
    exact heq.symm
  · exact hc.place (node?_eq_arena.1 hm)

/-- Wherever the node is put, the nodes are those before and itself. -/
theorem Coherent.nodes_insertNode (hc : n.Coherent)
    (h : n.insertNode id kind fanins output = .ok n') :
    n'.nodes.Perm (n.nodes ++ [⟨id, kind, fanins, output⟩]) := by
  obtain ⟨-, -, hfree, -⟩ := insertNode_eq_ok_iff.1 h
  have hnew : ∀ m ∈ n.nodes, m.id ≠ id := by
    rintro m hm rfl
    rw [hc.node?_of_mem hm] at hfree
    cases hfree
  have hc' := hc.insertNode h
  refine (List.perm_ext_iff_of_nodup hc'.nodes_nodup ?_).2 fun m => ?_
  · refine List.nodup_append.2 ⟨hc.nodes_nodup, List.nodup_singleton _, fun a ha b hb => ?_⟩
    rw [List.mem_singleton.1 hb]
    rintro rfl
    exact hnew _ ha rfl
  · have hm : m ∈ n'.nodes ↔ n'.node? m.id = some m := by
      rw [hc'.node?_eq_some_iff, and_iff_left rfl]
    rw [hm, node?_insertNode h, List.mem_append, List.mem_singleton]
    split
    · next heq =>
      rw [Option.some.injEq, eq_comm, or_iff_right]
      exact fun hmem => hnew m hmem heq
    · next hne =>
      rw [hc.node?_eq_some_iff, and_iff_left rfl, or_iff_left]
      rintro rfl
      exact hne rfl

/-- A node that is put behind all others is the last of the list. -/
theorem Coherent.nodes_insertNode_last (hc : n.Coherent)
    (h : n.insertNode id kind fanins output = .ok n')
    (hlast : ∀ m ∈ n.nodes, m.id.index < id.index) :
    n'.nodes = n.nodes ++ [⟨id, kind, fanins, output⟩] := by
  refine (hc.nodes_insertNode h).eq_of_pairwise ?_ (hc.insertNode h).pairwise_index ?_
  · intro a b _ _ hab hba
    exact absurd hba (Nat.lt_asymm hab)
  · refine List.pairwise_append.2 ⟨hc.pairwise_index, List.pairwise_singleton _ _, ?_⟩
    intro a ha b hb
    rw [List.mem_singleton.1 hb]
    exact hlast a ha

/-! ## Consistency -/

/-- What the operations on netlists keep. -/
structure Consistent (n : Netlist) : Prop extends Coherent n where
  /-- A node has as many fanins as its kind takes. -/
  arity : ∀ node ∈ n.nodes, ∀ k, node.kind.arity? = some k → k = node.fanins.length
  /-- No two nodes drive one signal. -/
  single : (n.nodes.map Node.output).Nodup
  /-- No node drives a primary input. -/
  undriven : ∀ node ∈ n.nodes, node.output ∉ n.inputs
  /-- A primary input has a declared width. -/
  inputs_declared : ∀ i ∈ n.inputs, i ∈ n.widths.keys
  /-- A primary output has a declared width. -/
  outputs_declared : ∀ o ∈ n.outputs, o ∈ n.widths.keys

theorem Consistent.empty (name : String) : (Netlist.empty name).Consistent where
  toCoherent := .empty name
  arity := fun _ h => absurd h List.not_mem_nil
  single := .nil
  undriven := fun _ h => absurd h List.not_mem_nil
  inputs_declared := fun _ h => absurd h List.not_mem_nil
  outputs_declared := fun _ h => absurd h List.not_mem_nil

/-- Consistency is about the nodes, the ports and the declared widths. -/
theorem Consistent.of_nodes (h : n.Consistent) (hc : n'.Coherent) (hnodes : n'.nodes = n.nodes)
    (hinputs : n'.inputs = n.inputs) (houtputs : n'.outputs = n.outputs)
    (hwidths : ∀ s, s ∈ n.inputs ∨ s ∈ n.outputs → s ∈ n.widths.keys → s ∈ n'.widths.keys) :
    n'.Consistent where
  toCoherent := hc
  arity := by rw [hnodes]; exact h.arity
  single := by rw [hnodes]; exact h.single
  undriven := by rw [hnodes, hinputs]; exact h.undriven
  inputs_declared := by
    rw [hinputs]
    exact fun i hi => hwidths i (.inl hi) (h.inputs_declared i hi)
  outputs_declared := by
    rw [houtputs]
    exact fun o ho => hwidths o (.inr ho) (h.outputs_declared o ho)

theorem Consistent.setWidth (h : n.Consistent) (signal : String) (w : Width) :
    (n.setWidth signal w).Consistent :=
  h.of_nodes (h.toCoherent.setWidth signal w) rfl rfl rfl fun _ _ hs =>
    Table.mem_keys_insert.2 (.inr hs)

theorem Consistent.declareWidth (h : n.Consistent) {bits : Nat}
    (hn' : n.declareWidth signal bits = .ok n') : n'.Consistent := by
  obtain ⟨w, -, rfl⟩ := eq_of_declareWidth hn'
  exact h.setWidth signal w

theorem Consistent.addInput (h : n.Consistent) {bits : Nat}
    (hn' : n.addInput name bits = .ok n') : n'.Consistent := by
  have hc := h.toCoherent.addInput hn'
  obtain ⟨hfree, w, -, rfl⟩ := addInput_eq_ok hn'
  have hset := h.setWidth name w
  refine ⟨hc, h.arity, h.single, fun node hnode hin => ?_, fun i hi => ?_, hset.outputs_declared⟩
  · rcases List.mem_append.1 hin with hin | hin
    · exact h.undriven node hnode hin
    · rw [← List.mem_singleton.1 hin, isDefined_of_node (n := n) hnode] at hfree
      cases hfree
  · rcases List.mem_append.1 hi with hi | hi
    · exact hset.inputs_declared i hi
    · exact Table.mem_keys_insert.2 (.inl (List.mem_singleton.1 hi))

theorem Consistent.addOutput (h : n.Consistent) {bits : Nat}
    (hn' : n.addOutput name bits = .ok n') : n'.Consistent := by
  have hc := h.toCoherent.addOutput hn'
  obtain ⟨-, w, -, rfl⟩ := addOutput_eq_ok hn'
  have hset := h.setWidth name w
  refine ⟨hc, h.arity, h.single, h.undriven, hset.inputs_declared, fun o ho => ?_⟩
  rcases List.mem_append.1 ho with ho | ho
  · exact hset.outputs_declared o ho
  · exact Table.mem_keys_insert.2 (.inl (List.mem_singleton.1 ho))

theorem Consistent.insertNode (h : n.Consistent)
    (hn' : n.insertNode id kind fanins output = .ok n') : n'.Consistent := by
  have hc := h.toCoherent.insertNode hn'
  have hperm := h.nodes_insertNode hn'
  obtain ⟨harity, hfree, -, hn'⟩ := insertNode_eq_ok_iff.1 hn'
  rw [← Bool.not_eq_true, isDefined_iff, not_or] at hfree
  have hmem : ∀ m ∈ n'.nodes, m ∈ n.nodes ∨ m = ⟨id, kind, fanins, output⟩ := by
    intro m hm
    simpa using hperm.mem_iff.1 hm
  constructor
  case toCoherent => exact hc
  case arity =>
    intro m hm
    rcases hmem m hm with hm | rfl
    exacts [h.arity m hm, harity]
  case single =>
    refine ((hperm.map Node.output).nodup_iff).2 ?_
    rw [List.map_append, List.nodup_append]
    refine ⟨h.single, List.nodup_singleton _, fun a ha b hb => ?_⟩
    obtain ⟨m, hm, rfl⟩ := List.mem_map.1 ha
    rw [List.mem_singleton.1 hb]
    exact fun ho => hfree.1 ⟨m, hm, ho⟩
  case undriven =>
    intro m hm
    rw [hn']
    rcases hmem m hm with hm | rfl
    exacts [h.undriven m hm, hfree.2]
  case inputs_declared =>
    rw [hn']
    exact h.inputs_declared
  case outputs_declared =>
    rw [hn']
    exact h.outputs_declared

theorem Consistent.addNode (h : n.Consistent) (hn' : n.addNode kind fanins output = .ok (n', id)) :
    n'.Consistent := by
  obtain ⟨m, hm, hret⟩ := ok_of_bind hn'
  cases hret
  exact h.insertNode hm

theorem Consistent.eraseNode (h : n.Consistent) (id : NodeId) : (n.eraseNode id).Consistent := by
  have hsub : ((n.eraseNode id).nodes).Sublist n.nodes := by
    rw [h.nodes_eraseNode]
    exact List.filter_sublist
  exact ⟨h.toCoherent.eraseNode id, fun node hnode => h.arity node (hsub.subset hnode),
    h.single.sublist (hsub.map _), fun node hnode => h.undriven node (hsub.subset hnode),
    h.inputs_declared, h.outputs_declared⟩

/-- Nodes may change what they compute and read, as long as the number of fanins is right. -/
theorem Consistent.of_outputs (h : n.Consistent) (hc : n'.Coherent)
    (harity : ∀ node ∈ n'.nodes, ∀ k, node.kind.arity? = some k → k = node.fanins.length)
    (hnodes : n'.nodes.map Node.output = n.nodes.map Node.output)
    (hinputs : n'.inputs = n.inputs) (houtputs : n'.outputs = n.outputs)
    (hwidths : n'.widths = n.widths) : n'.Consistent where
  toCoherent := hc
  arity := harity
  single := hnodes ▸ h.single
  undriven := by
    rw [← List.forall_mem_map (P := fun o => o ∉ n'.inputs), hnodes, hinputs, List.forall_mem_map]
    exact h.undriven
  inputs_declared := by rw [hinputs, hwidths]; exact h.inputs_declared
  outputs_declared := by rw [houtputs, hwidths]; exact h.outputs_declared

theorem Consistent.replaceNode (h : n.Consistent)
    (hn' : n.replaceNode id kind fanins = .ok n') : n'.Consistent := by
  obtain ⟨harity, -, rfl⟩ := replaceNode_eq_ok hn'
  refine h.of_outputs (h.toCoherent.updateNode id kind fanins) (fun m hm => ?_)
    (h.map_output_updateNode id kind fanins) rfl rfl rfl
  rw [h.nodes_updateNode] at hm
  obtain ⟨old, hold, rfl⟩ := List.mem_map.1 hm
  split
  exacts [harity, h.arity old hold]

theorem Consistent.redirect (h : n.Consistent) (sub : Substitution) :
    (n.redirect sub).1.Consistent := by
  refine h.of_outputs (h.toCoherent.redirect sub) (fun m hm => ?_) ?_ rfl rfl rfl
  · rw [nodes_redirect] at hm
    obtain ⟨old, hold, rfl⟩ := List.mem_map.1 hm
    intro k hk
    rw [List.length_map]
    exact h.arity old hold k hk
  · rw [nodes_redirect, List.map_map]
    rfl

theorem Consistent.freshSignal (h : n.Consistent) (stem : String) (bits : Nat) :
    (n.freshSignal stem bits).1.Consistent := by
  have hreserve : (n.reserveName stem).1.Consistent :=
    h.of_nodes ⟨h.place, h.widths_nodup, h.inputs_nodup, h.outputs_nodup⟩ rfl rfl rfl
      fun _ _ hs => hs
  simp only [Netlist.freshSignal]
  split
  · next hm => exact hreserve.declareWidth hm
  · exact hreserve

theorem Consistent.retireSignal (h : n.Consistent) (signal : String) :
    (n.retireSignal signal).Consistent := by
  refine h.of_nodes (h.toCoherent.retireSignal signal) (by simp) (by simp) (by simp) ?_
  intro s hs hkey
  rw [Netlist.retireSignal]
  split
  · exact hkey
  · next hfree =>
    -- A port is defined or an output, so it is not the signal that was retired.
    have hne : s ≠ signal := by
      rintro rfl
      rcases hs with hs | hs
      · simp [isDefined_of_input hs] at hfree
      · simp [isOutput_iff.2 hs] at hfree
    rw [← Table.find?_isSome_iff] at hkey ⊢
    simpa [Table.find?_swapErase h.widths_nodup, hne] using hkey

theorem Consistent.rebuildWires (h : n.Consistent) : n.rebuildWires.Consistent :=
  h.of_nodes h.toCoherent.rebuildWires rfl rfl rfl fun _ _ hs => hs

/-! ## Drivers -/

theorem Consistent.driver?_eq_some_iff (h : n.Consistent) :
    n.driver? signal = some id ↔ ∃ node ∈ n.nodes, node.output = signal ∧ node.id = id := by
  refine ⟨driver?_eq_some, ?_⟩
  rintro ⟨node, hm, rfl, rfl⟩
  exact driver?_of_mem h.single hm

/-- The drivers depend on what the nodes drive and on their identifiers alone. -/
theorem driver?_congr (h : n'.nodes.map (fun m => (m.output, m.id)) =
    n.nodes.map fun m => (m.output, m.id)) (signal : String) :
    n'.driver? signal = n.driver? signal := by
  have hfind : ∀ k : Netlist, k.driver? signal =
      ((k.nodes.map fun m => (m.output, m.id)).find? fun p => p.1 = signal).map Prod.snd := by
    intro k
    rw [List.find?_map, Option.map_map]
    rfl
  rw [hfind, hfind, h]

/-- A node that is put at a place drives its signal, and nothing else changes its driver. -/
theorem Consistent.driver?_insertNode (h : n.Consistent)
    (hn' : n.insertNode id kind fanins output = .ok n') (signal : String) :
    n'.driver? signal = if signal = output then some id else n.driver? signal := by
  have hperm := h.nodes_insertNode hn'
  have hfree := (insertNode_eq_ok_iff.1 hn').2.1
  refine Option.ext fun other => ?_
  rw [(h.insertNode hn').driver?_eq_some_iff]
  by_cases hs : signal = output
  · subst hs
    rw [if_pos rfl, Option.some.injEq]
    constructor
    · rintro ⟨node, hm, ho, rfl⟩
      rcases List.mem_append.1 (hperm.mem_iff.1 hm) with hm | hm
      · rw [← ho, isDefined_of_node hm] at hfree
        cases hfree
      · rw [List.mem_singleton.1 hm]
    · rintro rfl
      exact ⟨_, hperm.mem_iff.2 (List.mem_append_right _ (.head _)), rfl, rfl⟩
  · rw [if_neg hs, h.driver?_eq_some_iff]
    constructor
    · rintro ⟨node, hm, ho, hid⟩
      rcases List.mem_append.1 (hperm.mem_iff.1 hm) with hm | hm
      · exact ⟨node, hm, ho, hid⟩
      · rw [List.mem_singleton.1 hm] at ho
        exact absurd ho.symm hs
    · rintro ⟨node, hm, ho, hid⟩
      exact ⟨node, hperm.mem_iff.2 (List.mem_append_left _ hm), ho, hid⟩

/-- The signal of a node that is taken out loses its driver, and nothing else does. -/
theorem Consistent.driver?_eraseNode (h : n.Consistent) (hm : node ∈ n.nodes) (signal : String) :
    (n.eraseNode node.id).driver? signal =
      if signal = node.output then none else n.driver? signal := by
  have hnodes := h.nodes_eraseNode node.id
  by_cases hs : signal = node.output
  · rw [if_pos hs, driver?_eq_none_iff, hnodes]
    rintro m hmem rfl
    obtain ⟨hold, hne⟩ := List.mem_filter.1 hmem
    refine (of_decide_eq_true hne) (congrArg Node.id ?_)
    exact List.inj_on_of_nodup_map h.single hold hm hs
  · rw [if_neg hs]
    refine Option.ext fun other => ?_
    rw [(h.eraseNode node.id).driver?_eq_some_iff, h.driver?_eq_some_iff, hnodes]
    refine exists_congr fun m => ?_
    rw [List.mem_filter, decide_eq_true_eq, and_assoc, and_congr_right_iff]
    refine fun hmem => and_iff_right_of_imp ?_
    rintro ⟨ho, -⟩ hid
    exact hs (by rw [← ho, h.eq_of_id hmem hm hid])

theorem Coherent.driver?_updateNode (h : n.Coherent) (id : NodeId) (kind : Kind)
    (fanins : List Fanin) (signal : String) :
    (n.updateNode id kind fanins).driver? signal = n.driver? signal := by
  refine driver?_congr ?_ signal
  rw [h.nodes_updateNode, List.map_map]
  refine List.map_congr_left fun m _ => ?_
  simp only [Function.comp_apply]
  split <;> rfl

/-- An empty substitution changes nothing. -/
theorem redirect_of_size (n : Netlist) {sub : Substitution} (hsize : sub.size = 0) :
    n.redirect sub = (n, 0) := by
  have hnone : ∀ signal, sub.find? signal = none := fun signal => by
    rw [Table.find?_eq_none_iff, Table.keys, List.eq_nil_of_length_eq_zero hsize]
    exact List.not_mem_nil
  have hfollow : redirectFanin sub = id := by
    funext f
    rw [redirectFanin, follow, hnone]
    rfl
  simp [redirect, hfollow, Table.contains, hnone]

theorem driver?_redirect (n : Netlist) (sub : Substitution) (signal : String) :
    (n.redirect sub).1.driver? signal = n.driver? signal := by
  refine driver?_congr ?_ signal
  rw [nodes_redirect, List.map_map]
  rfl

end GateSynth.Netlist
