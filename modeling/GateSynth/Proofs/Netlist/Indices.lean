import GateSynth.Netlist.Indexed
import GateSynth.Proofs.Netlist.Construction

/-!
# Indices and what they index

An indexed netlist shows a netlist if its tables are those of the netlist (`Shows`): the sets have
the names of the ports, and the table of drivers gives every signal the driver that the nodes say it
has. The operations on the tables then do what the operations on the netlist do (`Tracks`): they are
refused with the same error and change nothing, or answer the same and end in the tables of the
changed netlist. There is one lemma for each operation; only a fresh signal is different, as it uses
up its name also when it is refused (`run_freshSignal`).
-/

namespace GateSynth

/-- The tables of an indexed netlist are those of a netlist. -/
structure Shows (s : IndexedNetlist) (n : Netlist) : Prop where
  name : s.name = n.name
  inputs : s.inputs = n.inputs
  outputs : s.outputs = n.outputs
  inputSet : ∀ x, x ∈ s.inputSet ↔ x ∈ n.inputs
  outputSet : ∀ x, x ∈ s.outputSet ↔ x ∈ n.outputs
  widths : s.widths = n.widths.mapValues Width.bits
  arena : s.arena = n.arena
  drivers : ∀ x, s.drivers.find? x = n.driver? x
  drivers_nodup : s.drivers.keys.Nodup
  wires : s.wires = n.wires
  nextFresh : s.nextFresh = n.nextFresh

theorem Shows.empty (name : String) : Shows (.empty name) (.empty name) where
  name := rfl
  inputs := rfl
  outputs := rfl
  inputSet := fun _ => Iff.rfl
  outputSet := fun _ => Iff.rfl
  widths := rfl
  arena := rfl
  drivers := fun _ => rfl
  drivers_nodup := .nil
  wires := rfl
  nextFresh := rfl

variable {s : IndexedNetlist} {n : Netlist} {α : Type}

/-! ## Looking things up -/

namespace Shows

variable (h : Shows s n)
include h

theorem isInput (x : String) : s.isInput x = n.isInput x := by
  rw [Bool.eq_iff_iff, IndexedNetlist.isInput, Netlist.isInput_iff, ← h.inputSet]
  simp

theorem isOutput (x : String) : s.isOutput x = n.isOutput x := by
  rw [Bool.eq_iff_iff, IndexedNetlist.isOutput, Netlist.isOutput_iff, ← h.outputSet]
  simp

theorem isDefined (x : String) : s.isDefined x = n.isDefined x := by
  rw [IndexedNetlist.isDefined, Netlist.isDefined, Table.contains, h.drivers, h.isInput]

theorem isTaken (x : String) : s.isTaken x = n.isTaken x := by
  rw [IndexedNetlist.isTaken, Netlist.isTaken, Table.contains, h.widths, Table.find?_mapValues,
    Option.isSome_map, h.isDefined, h.isOutput]
  rfl

theorem node? (id : NodeId) : s.node? id = n.node? id := by
  rw [IndexedNetlist.node?, Netlist.node?, h.arena]

theorem nodes : s.nodes = n.nodes := by
  rw [IndexedNetlist.nodes, Netlist.nodes, h.arena]

theorem takenBound : s.takenBound = n.takenBound := by
  rw [IndexedNetlist.takenBound, Netlist.takenBound, h.widths, h.nodes, h.inputs, h.outputs,
    Table.size, Table.mapValues, List.length_map]
  rfl

end Shows

/-! ## Edits -/

namespace IndexedNetlist

/-- An edit does what a change of the netlist does. If the change is refused, then so is the edit,
and it leaves everything as it was; else it gives the answer. -/
def Tracks (s : IndexedNetlist) (x : Edit α) (answer : α) : Except NetlistError Netlist → Prop
  | .ok n => ∃ s', x.run s = .ok answer s' ∧ Shows s' n
  | .error e => x.run s = .error e s

theorem Tracks.of_error {x : Edit α} {answer : α} {r : Except NetlistError Netlist}
    {e : NetlistError} (hr : r = .error e) (hrun : x.run s = .error e s) :
    s.Tracks x answer r := by
  rw [hr]
  exact hrun

theorem Tracks.of_ok {x : Edit α} {answer : α} {r : Except NetlistError Netlist}
    {s' : IndexedNetlist} (hr : r = .ok n) (hrun : x.run s = .ok answer s') (h : Shows s' n) :
    s.Tracks x answer r := by
  rw [hr]
  exact ⟨s', hrun, h⟩

/-- What is given back can be something else. -/
theorem Tracks.map {β : Type} {x : Edit α} {answer : α} {r : Except NetlistError Netlist}
    (h : s.Tracks x answer r) (f : α → β) : s.Tracks (do return f (← x)) (f answer) r := by
  cases r with
  | error e =>
    have hrun : x.run s = .error e s := h
    show EStateM.run (x >>= fun a => pure (f a)) s = _
    rw [EStateM.run_bind, hrun]
  | ok n =>
    obtain ⟨s', hrun, h'⟩ := h
    refine ⟨s', ?_, h'⟩
    rw [EStateM.run_bind, hrun]
    rfl

/-- Only what an edit does in this state matters. -/
theorem Tracks.of_run {x y : Edit α} {answer : α} {r : Except NetlistError Netlist}
    (h : s.Tracks y answer r) (hrun : x.run s = y.run s) : s.Tracks x answer r := by
  cases r with
  | error e => exact hrun.trans h
  | ok n =>
    obtain ⟨s', hy, h'⟩ := h
    exact ⟨s', hrun.trans hy, h'⟩

/-- An edit is followed by a change of the tables that is one of the netlist. -/
theorem Tracks.andThen {x : Edit Unit} {r : Except NetlistError Netlist}
    {f : IndexedNetlist → IndexedNetlist} {g : Netlist → Netlist} (h : s.Tracks x () r)
    (hshows : ∀ {s' n'}, Shows s' n' → Shows (f s') (g n')) :
    s.Tracks (do x; modify f) () (do return g (← r)) := by
  cases r with
  | error e =>
    have hx : x.run s = .error e s := h
    show EStateM.run (x >>= fun _ => modify f) s = _
    rw [EStateM.run_bind, hx]
  | ok n =>
    obtain ⟨s', hx, h'⟩ := h
    refine ⟨f s', ?_, hshows h'⟩
    rw [EStateM.run_bind, hx]
    rfl

/-! ## Ports and widths -/

theorem tracks_declareWidth (h : Shows s n) (signal : String) (bits : Nat) :
    s.Tracks (declareWidth signal bits) () (n.declareWidth signal bits) := by
  rw [declareWidth, Netlist.declareWidth, Width.ofNat?]
  by_cases hbits : 1 ≤ bits ∧ bits ≤ 64
  · rw [dif_pos hbits, if_neg (by simp only [Width.limit]; omega)]
    refine ⟨_, rfl, { h with widths := ?_ }⟩
    dsimp only
    rw [h.widths, Netlist.setWidth, Table.mapValues_insert]
  · rw [dif_neg hbits, if_pos (by simp only [Width.limit]; omega)]
    rfl

theorem tracks_addInput (h : Shows s n) (name : String) (bits : Nat) :
    s.Tracks (addInput name bits) () (n.addInput name bits) := by
  rw [addInput, Netlist.addInput]
  cases hinput : n.isInput name with
  | true => simp [Tracks, h.isInput, hinput]
  | false =>
    cases hdriver : n.driver? name with
    | some node => simp [Tracks, h.isInput, hinput, h.drivers, hdriver]
    | none =>
      have hlisted {s' n'} (h' : Shows s' n') : Shows
          { s' with inputSet := s'.inputSet.insert name, inputs := s'.inputs ++ [name] }
          { n' with inputs := n'.inputs ++ [name] } :=
        { h' with
          inputs := congrArg (· ++ [name]) h'.inputs
          inputSet := fun x => by simp [h'.inputSet, or_comm] }
      refine ((tracks_declareWidth h name bits).andThen hlisted).of_run ?_
      simp [h.isInput, hinput, h.drivers, hdriver]

theorem tracks_addOutput (h : Shows s n) (name : String) (bits : Nat) :
    s.Tracks (addOutput name bits) () (n.addOutput name bits) := by
  rw [addOutput, Netlist.addOutput]
  cases houtput : n.isOutput name with
  | true => simp [Tracks, h.isOutput, houtput]
  | false =>
    have hlisted {s' n'} (h' : Shows s' n') : Shows
        { s' with outputSet := s'.outputSet.insert name, outputs := s'.outputs ++ [name] }
        { n' with outputs := n'.outputs ++ [name] } :=
      { h' with
        outputs := congrArg (· ++ [name]) h'.outputs
        outputSet := fun x => by simp [h'.outputSet, or_comm] }
    refine ((tracks_declareWidth h name bits).andThen hlisted).of_run ?_
    simp [h.isOutput, houtput]

/-! ## Nodes -/

theorem tracks_insertNode (h : Shows s n) (hn : n.Consistent) (id : NodeId) (kind : Kind)
    (fanins : List Fanin) (output : String) :
    s.Tracks (insertNode id kind fanins output) () (n.insertNode id kind fanins output) := by
  rw [insertNode]
  -- The checks in their order, and then the change.
  cases hcheck : Netlist.checkArity id kind fanins with
  | error e =>
    refine .of_error (e := e) ?_ ?_
    · rw [Netlist.insertNode, hcheck]
      rfl
    · simp [MonadExcept.ofExcept]
  | ok _ =>
    cases hdriver : n.driver? output with
    | some existing =>
      refine .of_error (e := .multipleDrivers output existing) ?_ ?_
      · rw [Netlist.insertNode, hcheck, hdriver]
        rfl
      · simp [MonadExcept.ofExcept, h.drivers, hdriver]
    | none =>
      cases hinput : n.isInput output with
      | true =>
        refine .of_error (e := .drivenInput id output) ?_ ?_
        · rw [Netlist.insertNode, hcheck, hdriver, hinput]
          rfl
        · simp [MonadExcept.ofExcept, h.drivers, hdriver, h.isInput, hinput]
      | false =>
        cases hplace : n.node? id with
        | some node =>
          refine .of_error (e := .record s!"node id {id} used twice") ?_ ?_
          · rw [Netlist.insertNode, hcheck, hdriver, hinput, hplace]
            rfl
          · simp [MonadExcept.ofExcept, h.drivers, hdriver, h.isInput, hinput, h.node?, hplace]
        | none =>
          have hresult : n.insertNode id kind fanins output = .ok
              { n with
                arena := Netlist.placeNode n.arena id.index ⟨id, kind, fanins, output⟩ } := by
            rw [Netlist.insertNode, hcheck, hdriver, hinput, hplace]
            rfl
          have hput : Shows
              { s with
                drivers := s.drivers.insert output id
                arena := Netlist.placeNode s.arena id.index ⟨id, kind, fanins, output⟩ }
              { n with arena := Netlist.placeNode n.arena id.index ⟨id, kind, fanins, output⟩ } :=
            { h with
              arena := by rw [h.arena]
              drivers := fun x => by
                rw [Table.find?_insert, h.drivers, hn.driver?_insertNode hresult]
              drivers_nodup := Table.nodup_keys_insert h.drivers_nodup }
          refine .of_ok hresult ?_ hput
          simp [MonadExcept.ofExcept, h.drivers, hdriver, h.isInput, hinput, h.node?, hplace]

theorem tracks_addNode (h : Shows s n) (hn : n.Consistent) (kind : Kind) (fanins : List Fanin)
    (output : String) :
    s.Tracks (addNode kind fanins output) s.nextId
      (n.insertNode s.nextId kind fanins output) :=
  (tracks_insertNode h hn s.nextId kind fanins output).map fun _ => s.nextId

theorem tracks_replaceNode (h : Shows s n) (hn : n.Consistent) (id : NodeId) (kind : Kind)
    (fanins : List Fanin) :
    s.Tracks (replaceNode id kind fanins) () (n.replaceNode id kind fanins) := by
  rw [replaceNode]
  cases hcheck : Netlist.checkArity id kind fanins with
  | error e =>
    refine .of_error (e := e) ?_ ?_
    · rw [Netlist.replaceNode, hcheck]
      rfl
    · simp [MonadExcept.ofExcept]
  | ok _ =>
    cases hplace : n.node? id with
    | none =>
      refine .of_error (e := .unknownNode id) ?_ ?_
      · rw [Netlist.replaceNode, hcheck, hplace]
        rfl
      · simp [MonadExcept.ofExcept, h.node?, hplace]
    | some node =>
      have hresult : n.replaceNode id kind fanins = .ok (n.updateNode id kind fanins) := by
        rw [Netlist.replaceNode, hcheck, hplace]
        rfl
      have hput : Shows
          { s with arena := s.arena.modify id.index (Option.map ({ · with kind, fanins })) }
          (n.updateNode id kind fanins) :=
        { h with
          arena := by rw [h.arena]; rfl
          drivers := fun x => by rw [h.drivers, hn.driver?_updateNode] }
      refine .of_ok hresult ?_ hput
      simp [MonadExcept.ofExcept, h.node?, hplace]

theorem tracks_removeNode (h : Shows s n) (hn : n.Consistent) (id : NodeId) :
    s.Tracks (removeNode id) (n.takeNode id).2 (.ok (n.takeNode id).1) := by
  cases hplace : n.node? id with
  | none =>
    rw [Netlist.takeNode, hplace]
    refine ⟨s, ?_, h⟩
    simp [removeNode, h.node?, hplace]
  | some node =>
    obtain ⟨hm, rfl⟩ := hn.node?_eq_some_iff.1 hplace
    have htaken : Shows
        { s with
          arena := s.arena.set node.id.index none
          drivers := s.drivers.erase node.output }
        (n.eraseNode node.id) :=
      { h with
        arena := by rw [h.arena]; rfl
        drivers := fun x => by rw [Table.find?_erase, h.drivers, hn.driver?_eraseNode hm]
        drivers_nodup := Table.nodup_keys_erase h.drivers_nodup }
    rw [Netlist.takeNode, hplace]
    refine ⟨_, ?_, htaken⟩
    simp only [removeNode, EStateM.run_bind, EStateM.run_get, h.node?, hplace]
    rfl

theorem tracks_redirect (h : Shows s n) (sub : Substitution) :
    s.Tracks (redirect sub) (n.redirect sub).2 (.ok (n.redirect sub).1) := by
  by_cases hsize : sub.size = 0
  · rw [Netlist.redirect_of_size n hsize]
    refine ⟨s, ?_, h⟩
    rw [redirect, if_pos hsize]
    rfl
  · have hput : Shows
        { s with
          arena := s.arena.map fun slot => slot.map fun node =>
            { node with fanins := node.fanins.map (Netlist.redirectFanin sub) } }
        (n.redirect sub).1 :=
      { h with
        arena := by rw [h.arena]; rfl
        drivers := fun x => by rw [h.drivers, Netlist.driver?_redirect] }
    refine ⟨_, ?_, hput⟩
    rw [redirect, if_neg hsize]
    simp only [EStateM.run_bind, EStateM.run_get, h.nodes]
    rfl

theorem tracks_rebuildWires (h : Shows s n) : s.Tracks rebuildWires () (.ok n.rebuildWires) :=
  ⟨_, rfl, { h with wires := congrArg (List.flatMap Netlist.nodeWires) h.nodes }⟩

/-! ## Signals -/

theorem tracks_retireSignal (h : Shows s n) (signal : String) :
    s.Tracks (retireSignal signal) () (.ok (n.retireSignal signal)) := by
  refine ⟨_, rfl, ?_⟩
  dsimp only
  rw [Netlist.retireSignal, h.isDefined, h.isOutput]
  split
  · exact h
  · exact { h with widths := by rw [h.widths, Table.mapValues_swapErase] }

/-- The names are tried in the order of their numbers, and the counter moves past the last. -/
theorem run_takeName (h : Shows s n) (stem : String) (tries number : Nat) :
    (takeName stem tries).run { s with nextFresh := number } =
      .ok (Netlist.freshName stem (n.freeNumber stem tries number))
        { s with nextFresh := n.freeNumber stem tries number + 1 } := by
  induction tries generalizing number with
  | zero => rfl
  | succ tries ih =>
    have hcount : (countName stem).run { s with nextFresh := number } =
      .ok (Netlist.freshName stem number) { s with nextFresh := number + 1 } := rfl
    have htaken : ({ s with nextFresh := number + 1 } : IndexedNetlist).isTaken
        (Netlist.freshName stem number) = n.isTaken (Netlist.freshName stem number) :=
      h.isTaken _
    rw [takeName, Netlist.freeNumber, EStateM.run_bind, hcount]
    dsimp only
    rw [EStateM.run_bind, EStateM.run_get]
    dsimp only
    rw [htaken]
    split
    · exact ih (number + 1)
    · rfl

theorem tracks_reserveName (h : Shows s n) (stem : String) :
    s.Tracks (takeName stem (s.takenBound + 1)) (n.reserveName stem).2
      (.ok (n.reserveName stem).1) := by
  refine ⟨{ s with nextFresh := (n.reserveName stem).1.nextFresh }, ?_,
    { h with nextFresh := rfl }⟩
  have hstate : ({ s with nextFresh := n.nextFresh } : IndexedNetlist) = s := by
    rw [← h.nextFresh]
  have htake := run_takeName h stem (n.takenBound + 1) n.nextFresh
  rw [hstate] at htake
  rw [h.takenBound]
  exact htake

/-- A fresh signal uses up its name also when it is refused. -/
theorem run_freshSignal (h : Shows s n) (stem : String) (bits : Nat) :
    ∃ s', Shows s' (n.freshSignal stem bits).1 ∧ (freshSignal stem bits).run s =
      match (n.freshSignal stem bits).2 with
      | .ok name => .ok name s'
      | .error e => .error e s' := by
  obtain ⟨counted, htake, hcounted⟩ := tracks_reserveName h stem
  have hwidth := tracks_declareWidth hcounted (n.reserveName stem).2 bits
  rw [Netlist.freshSignal]
  dsimp only
  cases hset : (n.reserveName stem).1.declareWidth (n.reserveName stem).2 bits with
  | ok n' =>
    rw [hset] at hwidth
    obtain ⟨s', hrun, h'⟩ := hwidth
    refine ⟨s', h', ?_⟩
    simp only [freshSignal, EStateM.run_bind, EStateM.run_get, htake, hrun]
    rfl
  | error e =>
    rw [hset] at hwidth
    have hrun : (declareWidth (n.reserveName stem).2 bits).run counted = .error e counted := hwidth
    refine ⟨counted, hcounted, ?_⟩
    simp only [freshSignal, EStateM.run_bind, EStateM.run_get, htake, hrun]

end IndexedNetlist

end GateSynth
