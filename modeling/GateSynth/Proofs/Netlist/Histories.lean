import GateSynth.Proofs.Netlist.Indices

/-!
# Histories of operations

Whatever is asked of an indexed netlist, in whatever order, and whether it is granted or refused:
the tables stay those of a consistent netlist (`perform_spec`), so they agree with each other and
with the nodes (`Shows.synchronized`). As long as the places can be numbered with 32 bits, the
netlist is the one that the same operations build without tables, and new nodes get one number after
the other (`Netlist.issued_performAll`). `performAll_synchronized` puts this together for histories
that begin with an empty netlist.
-/

namespace GateSynth

variable {s : IndexedNetlist} {n : Netlist}

/-! ## One operation -/

namespace IndexedNetlist

/-- Every operation but one tracks a change of the netlist, and it is the operation on the netlist
unless there are too many places. -/
theorem tracks_edit (h : Shows s n) (hn : n.Consistent) (op : Operation)
    (hfresh : ∀ stem bits, op ≠ .freshSignal stem bits) :
    ∃ answer r, s.Tracks (edit op) answer r ∧ (∀ n', r = .ok n' → n'.Consistent) ∧
      (n.arena.length < UInt32.size → n.perform op = n.settle answer r) := by
  cases op with
  | addInput name bits =>
    exact ⟨Answer.done, _, (tracks_addInput h name bits).map fun _ => Answer.done,
      fun _ => hn.addInput, fun _ => rfl⟩
  | addOutput name bits =>
    exact ⟨Answer.done, _, (tracks_addOutput h name bits).map fun _ => Answer.done,
      fun _ => hn.addOutput, fun _ => rfl⟩
  | declareWidth signal bits =>
    exact ⟨Answer.done, _, (tracks_declareWidth h signal bits).map fun _ => Answer.done,
      fun _ => hn.declareWidth, fun _ => rfl⟩
  | addNode kind fanins output =>
    refine ⟨Answer.added s.nextId, _, (tracks_addNode h hn kind fanins output).map Answer.added,
      fun _ => hn.insertNode, fun hsize => ?_⟩
    have hid : s.nextId = ⟨n.arena.length⟩ := by
      rw [nextId, h.arena, Nat.mod_eq_of_lt hsize]
    rw [hid, Netlist.perform, Netlist.addNode]
    cases n.insertNode ⟨n.arena.length⟩ kind fanins output <;> rfl
  | replaceNode id kind fanins =>
    exact ⟨Answer.done, _, (tracks_replaceNode h hn id kind fanins).map fun _ => Answer.done,
      fun _ => hn.replaceNode, fun _ => rfl⟩
  | removeNode id =>
    refine ⟨Answer.removed (n.takeNode id).2, _, (tracks_removeNode h hn id).map Answer.removed,
      fun n' hok => ?_, fun _ => rfl⟩
    cases hok
    rw [Netlist.takeNode]
    split
    · exact hn.eraseNode id
    · exact hn
  | redirect sub =>
    refine ⟨Answer.redirected (n.redirect sub).2, _,
      (tracks_redirect h sub).map Answer.redirected, fun n' hok => ?_, fun _ => rfl⟩
    cases hok
    exact hn.redirect sub
  | retireSignal signal =>
    refine ⟨Answer.done, _, (tracks_retireSignal h signal).map fun _ => Answer.done,
      fun n' hok => ?_, fun _ => rfl⟩
    cases hok
    exact hn.retireSignal signal
  | freshSignal stem bits => exact absurd rfl (hfresh stem bits)
  | rebuildWires =>
    refine ⟨Answer.done, _, (tracks_rebuildWires h).map fun _ => Answer.done, fun n' hok => ?_,
      fun _ => rfl⟩
    cases hok
    exact hn.rebuildWires

/-- An operation ends in the tables of a consistent netlist, which is the one that the operation
makes of the netlist itself unless there are too many places. One that is refused leaves everything
as it was, a fresh signal excepted. -/
theorem perform_spec (h : Shows s n) (hn : n.Consistent) (op : Operation) :
    (∃ n', Shows (perform op s).1 n' ∧ n'.Consistent ∧
      (n.arena.length < UInt32.size → n.perform op = (n', (perform op s).2))) ∧
    ((∀ stem bits, op ≠ .freshSignal stem bits) →
      ∀ e, (perform op s).2 = .error e → (perform op s).1 = s) := by
  by_cases hfresh : ∀ stem bits, op ≠ .freshSignal stem bits
  · obtain ⟨answer, r, hop, hnew, hperform⟩ := tracks_edit h hn op hfresh
    cases r with
    | ok n' =>
      obtain ⟨s', hrun, h'⟩ := hop
      rw [perform, hrun]
      exact ⟨⟨n', h', hnew n' rfl, hperform⟩, fun _ e he => by cases he⟩
    | error e =>
      have hrun : (edit op).run s = .error e s := hop
      rw [perform, hrun]
      exact ⟨⟨n, h, hn, hperform⟩, fun _ _ _ => rfl⟩
  · refine ⟨?_, fun hall => absurd hall hfresh⟩
    simp only [not_forall, ne_eq, not_not] at hfresh
    obtain ⟨stem, bits, rfl⟩ := hfresh
    obtain ⟨s', h', hrun⟩ := run_freshSignal h stem bits
    have hperform : perform (.freshSignal stem bits) s =
        (s', (n.freshSignal stem bits).2.map Answer.named) := by
      have hedit : (edit (.freshSignal stem bits)).run s = _ :=
        EStateM.run_bind (freshSignal stem bits) fun name => pure (Answer.named name)
      rw [perform, hedit, hrun]
      cases (n.freshSignal stem bits).2 <;> rfl
    rw [hperform]
    exact ⟨_, h', hn.freshSignal stem bits, fun _ => rfl⟩

end IndexedNetlist

/-! ## New nodes -/

theorem Operation.performAll_cons {σ : Type}
    (perform : Operation → σ → σ × Except NetlistError Answer) (op : Operation)
    (rest : List Operation) (s : σ) :
    performAll perform (op :: rest) s =
      ((performAll perform rest (perform op s).1).1,
        (perform op s).2 :: (performAll perform rest (perform op s).1).2) := rfl

namespace Netlist

/-- A change that answers nothing adds no node. -/
theorem newId?_settle {n : Netlist} {r : Except NetlistError Netlist}
    (h : ∀ n', r = .ok n' → n'.arena.length = n.arena.length) :
    Answer.newId? (n.settle .done r).2 = none ∧
      (n.settle .done r).1.arena.length = n.arena.length := by
  cases r with
  | ok n' => exact ⟨rfl, h n' rfl⟩
  | error e => exact ⟨rfl, rfl⟩

/-- An operation leaves the number of places alone, or it adds a node at the next place. -/
theorem newId?_perform (n : Netlist) (op : Operation) :
    Answer.newId? (n.perform op).2 = none ∧ (n.perform op).1.arena.length = n.arena.length ∨
    Answer.newId? (n.perform op).2 = some ⟨n.arena.length⟩ ∧
      (n.perform op).1.arena.length = n.arena.length + 1 := by
  cases op with
  | addNode kind fanins output =>
    rw [perform]
    cases hadd : n.addNode kind fanins output with
    | ok r =>
      obtain ⟨n', id⟩ := r
      obtain ⟨-, -, rfl, rfl⟩ := addNode_eq_ok hadd
      exact .inr ⟨rfl, List.length_append⟩
    | error e => exact .inl ⟨rfl, rfl⟩
  | addInput name bits =>
    refine .inl (newId?_settle fun n' hn' => ?_)
    obtain ⟨-, w, -, rfl⟩ := addInput_eq_ok hn'
    rfl
  | addOutput name bits =>
    refine .inl (newId?_settle fun n' hn' => ?_)
    obtain ⟨-, w, -, rfl⟩ := addOutput_eq_ok hn'
    rfl
  | declareWidth signal bits =>
    refine .inl (newId?_settle fun n' hn' => ?_)
    obtain ⟨w, -, rfl⟩ := eq_of_declareWidth hn'
    rfl
  | replaceNode id kind fanins =>
    refine .inl (newId?_settle fun n' hn' => ?_)
    obtain ⟨-, -, rfl⟩ := replaceNode_eq_ok hn'
    exact List.length_modify ..
  | removeNode id =>
    have hlength : (n.takeNode id).1.arena.length = n.arena.length := by
      rw [takeNode]
      split
      · exact List.length_set
      · rfl
    exact .inl ⟨rfl, hlength⟩
  | redirect sub => exact .inl ⟨rfl, List.length_map _⟩
  | retireSignal signal =>
    have harena : (n.retireSignal signal).arena = n.arena := by
      rw [retireSignal]
      split <;> rfl
    exact .inl ⟨rfl, congrArg List.length harena⟩
  | freshSignal stem bits =>
    rw [perform, freshSignal]
    dsimp only
    cases hset : (n.reserveName stem).1.declareWidth (n.reserveName stem).2 bits with
    | ok n' =>
      obtain ⟨w, -, rfl⟩ := eq_of_declareWidth hset
      exact .inl ⟨rfl, rfl⟩
    | error e => exact .inl ⟨rfl, rfl⟩
  | rebuildWires => exact .inl ⟨rfl, rfl⟩

/-- The new nodes of a history are numbered one after the other. -/
theorem issued_performAll (n : Netlist) (ops : List Operation) :
    issued (Operation.performAll perform ops n).2 =
      (List.range' n.arena.length (issued (Operation.performAll perform ops n).2).length).map
        NodeId.mk := by
  induction ops generalizing n with
  | nil => rfl
  | cons op rest ih =>
    have hrest := ih (n.perform op).1
    rw [Operation.performAll_cons]
    obtain ⟨hid, hlength⟩ | ⟨hid, hlength⟩ := n.newId?_perform op
    · rw [hlength] at hrest
      rw [issued, List.filterMap_cons_none hid]
      exact hrest
    · rw [hlength] at hrest
      rw [issued, List.filterMap_cons_some hid, List.length_cons, List.range'_succ, List.map_cons]
      exact congrArg _ hrest

end Netlist

/-! ## Histories -/

/-- The tables of an indexed netlist agree with each other and with its nodes. -/
structure IndexedNetlist.Synchronized (s : IndexedNetlist) : Prop where
  /-- The table of drivers has the outputs of the nodes with their identifiers, and nothing else. -/
  drivers : ∀ signal id, (signal, id) ∈ s.drivers.entries ↔
    ∃ node ∈ s.nodes, node.output = signal ∧ node.id = id
  /-- No signal has two drivers. -/
  drivers_nodup : s.drivers.keys.Nodup
  /-- A node stands at the place of its identifier. -/
  place : ∀ (i : Nat) (node : Node), s.arena[i]? = some (some node) → node.id = ⟨i⟩
  /-- No node drives a primary input. -/
  undriven : ∀ node ∈ s.nodes, node.output ∉ s.inputs
  /-- A node has as many fanins as its kind takes. -/
  arity : ∀ node ∈ s.nodes, ∀ k, node.kind.arity? = some k → k = node.fanins.length
  /-- No primary input is listed twice. -/
  inputs_nodup : s.inputs.Nodup
  /-- The set of inputs has the listed ones. -/
  inputSet : ∀ x, x ∈ s.inputSet ↔ x ∈ s.inputs
  /-- No primary output is listed twice. -/
  outputs_nodup : s.outputs.Nodup
  /-- The set of outputs has the listed ones. -/
  outputSet : ∀ x, x ∈ s.outputSet ↔ x ∈ s.outputs
  /-- Every declared width is one. -/
  widths : ∀ entry ∈ s.widths.entries, 1 ≤ entry.2 ∧ entry.2 ≤ 64

theorem Shows.synchronized (h : Shows s n) (hn : n.Consistent) : s.Synchronized where
  drivers := fun signal id => by
    rw [← Table.find?_eq_some_iff h.drivers_nodup, h.drivers, hn.driver?_eq_some_iff, h.nodes]
  drivers_nodup := h.drivers_nodup
  place := fun i node hi => hn.place (h.arena ▸ hi)
  undriven := by
    rw [h.nodes, h.inputs]
    exact hn.undriven
  arity := by
    rw [h.nodes]
    exact hn.arity
  inputs_nodup := h.inputs ▸ hn.inputs_nodup
  inputSet := h.inputs ▸ h.inputSet
  outputs_nodup := h.outputs ▸ hn.outputs_nodup
  outputSet := h.outputs ▸ h.outputSet
  widths := fun entry hentry => by
    rw [h.widths] at hentry
    obtain ⟨⟨signal, w⟩, -, rfl⟩ := List.mem_map.1 hentry
    exact ⟨w.pos, w.le⟩

namespace IndexedNetlist

/-- A history ends in the tables of a consistent netlist, which is the one that the same operations
make of the netlist itself unless there come to be too many places. -/
theorem performAll_spec (h : Shows s n) (hn : n.Consistent) (ops : List Operation) :
    ∃ n', Shows (Operation.performAll perform ops s).1 n' ∧ n'.Consistent ∧
      (n.arena.length + (issued (Operation.performAll perform ops s).2).length < UInt32.size →
        Operation.performAll Netlist.perform ops n =
          (n', (Operation.performAll perform ops s).2)) := by
  induction ops generalizing s n with
  | nil => exact ⟨n, h, hn, fun _ => rfl⟩
  | cons op rest ih =>
    obtain ⟨⟨n', h', hn', hperform⟩, -⟩ := perform_spec h hn op
    obtain ⟨n'', h'', hn'', hrest⟩ := ih h' hn'
    rw [Operation.performAll_cons]
    refine ⟨n'', h'', hn'', fun hsize => ?_⟩
    have hop := hperform (by omega)
    have hplaces : n'.arena.length +
        (issued (Operation.performAll perform rest (perform op s).1).2).length < UInt32.size := by
      have hstep := n.newId?_perform op
      rw [hop] at hstep
      obtain ⟨hid, hlength⟩ | ⟨hid, hlength⟩ := hstep
      · rw [issued, List.filterMap_cons_none hid] at hsize
        rw [hlength]
        exact hsize
      · rw [issued, List.filterMap_cons_some hid, List.length_cons] at hsize
        rw [hlength, issued]
        omega
    rw [Operation.performAll_cons, hop]
    dsimp only
    rw [hrest hplaces]

/-- After every history the tables agree with each other and with the nodes, and an operation that
is then refused leaves everything as it was, unless it asks for a fresh signal. If fewer nodes were
added than there are numbers of 32 bits, then no two of them were given the same identifier, and the
operations on the netlist itself have given the same answers and made the netlist that the tables
show. -/
theorem performAll_synchronized (name : String) (ops : List Operation) :
    let history := Operation.performAll perform ops (.empty name)
    history.1.Synchronized ∧
    (∀ op, (∀ stem bits, op ≠ .freshSignal stem bits) → ∀ e,
      (perform op history.1).2 = .error e → (perform op history.1).1 = history.1) ∧
    ((issued history.2).length < UInt32.size →
      (issued history.2).Nodup ∧
      ∃ n, Operation.performAll Netlist.perform ops (.empty name) = (n, history.2) ∧
        Shows history.1 n) := by
  intro history
  obtain ⟨n, hshows, hn, hsame⟩ := performAll_spec (.empty name) (.empty name) ops
  refine ⟨hshows.synchronized hn, fun op => (perform_spec hshows hn op).2, fun hsize => ?_⟩
  have hrun : Operation.performAll Netlist.perform ops (.empty name) = (n, history.2) :=
    hsame (by rwa [show (Netlist.empty name).arena.length = 0 from rfl, Nat.zero_add])
  refine ⟨?_, n, hrun, hshows⟩
  have hissued := (Netlist.empty name).issued_performAll ops
  rw [hrun] at hissued
  rw [hissued]
  exact List.Nodup.map (fun a b hab => congrArg NodeId.index hab) List.nodup_range'

end IndexedNetlist

namespace Rewired

/-- An inverter is put in place of another one. Six of the operations are refused. -/
def operations : List Operation :=
  [.addInput "a" 4, .addInput "a" 4, .addOutput "y" 65, .addOutput "y" 4,
    .addNode (.op .and) [.plain "a"] "t", .addNode (.op .not) [.plain "a"] "t",
    .addNode (.op .buf) [.plain "t"] "y", .addNode (.op .buf) [.plain "a"] "t",
    .removeNode ⟨0⟩, .retireSignal "t", .freshSignal "t" 0, .freshSignal "t" 4,
    .addNode (.op .not) [.plain "a"] "_t1", .redirect ⟨[("t", .plain "_t1")]⟩,
    .replaceNode ⟨0⟩ (.op .buf) [.plain "a"], .rebuildWires]

/-- What is answered to them. -/
def answers : List (Except NetlistError Answer) :=
  [.ok .done, .error (.duplicateSignal "a"), .error (.width "y" 65), .ok .done,
    .error (.arity ⟨0⟩ "AND" 2 1), .ok (.added ⟨0⟩), .ok (.added ⟨1⟩),
    .error (.multipleDrivers "t" ⟨0⟩), .ok (.removed (some ⟨⟨0⟩, .op .not, [.plain "a"], "t"⟩)),
    .ok .done, .error (.width "_t0" 0), .ok (.named "_t1"), .ok (.added ⟨2⟩), .ok (.redirected 1),
    .error (.unknownNode ⟨0⟩), .ok .done]

end Rewired

/-- The place of the first inverter stays empty, and its identifier is not given again. -/
theorem performAll_synchronized_rewired :
    let history := Operation.performAll IndexedNetlist.perform Rewired.operations (.empty "r")
    history.2 = Rewired.answers ∧ issued history.2 = [⟨0⟩, ⟨1⟩, ⟨2⟩] ∧
      history.1.drivers = ⟨[("y", ⟨1⟩), ("_t1", ⟨2⟩)]⟩ ∧ history.1.nextFresh = 2 ∧
      history.1.Synchronized ∧
      (IndexedNetlist.perform (.addInput "y" 4) history.1).1 = history.1 ∧
      (issued history.2).Nodup ∧
      ∃ n, Operation.performAll Netlist.perform Rewired.operations (.empty "r") =
        (n, Rewired.answers) ∧ n.driver? "_t1" = some ⟨2⟩ := by
  intro history
  have hanswers : history.2 = Rewired.answers := by decide
  have hissued : issued history.2 = [⟨0⟩, ⟨1⟩, ⟨2⟩] := by rw [hanswers]; rfl
  have hdrivers : history.1.drivers = ⟨[("y", ⟨1⟩), ("_t1", ⟨2⟩)]⟩ := by decide
  have hrefused : (IndexedNetlist.perform (.addInput "y" 4) history.1).2 =
      .error (.drivenInput ⟨1⟩ "y") := by decide
  obtain ⟨hsynchronized, hsame, hsmall⟩ :=
    IndexedNetlist.performAll_synchronized "r" Rewired.operations
  obtain ⟨hnodup, n, hrun, hshows⟩ := hsmall (by rw [hissued]; decide)
  refine ⟨hanswers, hissued, hdrivers, by decide, hsynchronized,
    hsame (.addInput "y" 4) nofun _ hrefused, hnodup, n, hanswers ▸ hrun, ?_⟩
  rw [← hshows.drivers, hdrivers]
  rfl

end GateSynth
