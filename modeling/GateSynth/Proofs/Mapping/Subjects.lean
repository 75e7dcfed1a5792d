import GateSynth.Mapping.Subject
import GateSynth.Proofs.Netlist.FreshNames
import GateSynth.Proofs.Simulation.Solutions

/-!
# Subject graphs

Making inversions explicit keeps the meaning of a netlist. `Straightened` is the invariant of the
construction, with the source nodes that are still to be treated as a parameter; adding an inverter
(`Straightened.inverterOf`) and replacing the fanins of a node (`Straightened.replaceNode`) keep it.
At its end (`straightened_of_ofNetlist`) the ports are those of the source, every fanin is plain,
and every solution of the source extends to one of the subject graph.
-/

namespace GateSynth

open Netlist

namespace Subject

variable {source n n' : Netlist} {inverters inverters' : Inverters} {rest : List Node}
  {signal inverter : String}

/-- The state of the construction: `rest` are the source nodes that are still as they were. -/
structure Straightened (source n : Netlist) (inverters : Inverters) (rest : List Node) : Prop where
  coherent : n.Coherent
  name : n.name = source.name
  inputs : n.inputs = source.inputs
  outputs : n.outputs = source.outputs
  /-- A name that is taken in the source stays taken and keeps its width. -/
  width : ∀ s, source.isTaken s = true → n.isTaken s = true ∧ n.width s = source.width s
  /-- What a node reads is defined. -/
  reads : ∀ node ∈ n.nodes, ∀ f ∈ node.fanins, n.isDefined f.signal = true
  /-- A node is still to be treated or reads only plain signals. -/
  plain : ∀ node ∈ n.nodes, node ∈ rest ∨ ∀ f ∈ node.fanins, f.inverted = false
  /-- The nodes that are still to be treated are there. -/
  pending : ∀ node ∈ rest, node ∈ n.nodes
  /-- Inverters read and drive defined signals. -/
  known : ∀ s i, inverters.find? s = some i → n.isDefined s = true ∧ n.isDefined i = true
  /-- A solution of the source extends to the new signals, and inverters carry complements. -/
  solves : ∀ cells given v, source.Solution cells given v → ∃ v', n.Solution cells given v' ∧
    (∀ s, source.isTaken s = true → v' s = v s) ∧
    ∀ s i, inverters.find? s = some i → v' i = (n.width s).complement (v' s)

/-- Before the first node. -/
theorem straightened_source (hc : source.Coherent) (hl : source.Legal) :
    Straightened source source Table.empty source.nodes where
  coherent := hc
  name := rfl
  inputs := rfl
  outputs := rfl
  width s hs := ⟨hs, rfl⟩
  reads := hl.reads
  plain node hnode := .inl hnode
  pending node hnode := hnode
  known s i h := by cases h
  solves cells given v hv := ⟨v, hv, fun _ _ => rfl, fun s i h => by cases h⟩

/-! ## Adding an inverter -/

/-- A new inverter is the NOT of its signal. -/
theorem inverterOf_eq_ok (hnew : inverters.find? signal = none)
    (h : inverterOf n inverters signal = .ok (n', inverters', inverter)) :
    inverters' = inverters.insert signal inverter ∧
      ∃ id, NewNode n n' ⟨id, .op .not, [.plain signal], inverter⟩ (n.width signal) := by
  rw [inverterOf, hnew] at h
  obtain ⟨⟨m, id⟩, hm, hret⟩ := ok_of_bind h
  cases hret
  exact ⟨rfl, id, newNode_of_addNode hm⟩

/-- A new signal of the construction is new in the source too. -/
theorem Straightened.fresh (hs : Straightened source n inverters rest) {node : Node} {w : Width}
    (hnew : NewNode n n' node w) : source.isTaken node.output = false := by
  rw [← Bool.not_eq_true]
  intro htaken
  have hfree := hnew.free
  rw [(hs.width _ htaken).1] at hfree
  cases hfree

/-- A solution extends to the output of a node on a new signal. -/
theorem solution_of_newNode {cells : CellFunctions} {given : Values} {v : Valuation} {w : Width}
    {node : Node} {x : Word} (hnew : NewNode n n' node w) (hv : n.Solution cells given v)
    (hreads : ∀ node ∈ n.nodes, ∀ f ∈ node.fanins, n.isDefined f.signal = true)
    (hnode : ∀ f ∈ node.fanins, n.isDefined f.signal = true)
    (hx : v.result n' cells node = some x) :
    n'.Solution cells given (Function.update v node.output x) := by
  have hvalue : ∀ s, n.isDefined s = true → Function.update v node.output x s = v s :=
    fun s hs => Function.update_of_ne (hnew.ne_of_defined hs) _ _
  constructor
  · intro i hi
    rw [hnew.inputs] at hi
    have hdef := isDefined_of_input hi
    rw [hvalue i hdef, hnew.width_of_defined hdef]
    exact hv.input i hi
  · intro m hm
    rcases hnew.mem_nodes.1 hm with hm | rfl
    · have hdef := isDefined_of_node hm
      rw [hvalue _ hdef, ← hv.node m hm]
      refine Valuation.result_congr rfl (hnew.width_of_defined hdef)
        (List.map_congr_left fun f hf => ?_)
      have hf := hreads m hm f hf
      exact Valuation.seen_congr (hvalue _ hf) (hnew.width_of_defined hf)
    · rw [Function.update_self, ← hx]
      exact Valuation.result_congr_values fun f hf => hvalue _ (hnode f hf)

/-- Defined signals stay defined, and inverters that are known stay the same. -/
structure Grows (n : Netlist) (inverters : Inverters) (n' : Netlist) (inverters' : Inverters) :
    Prop where
  defined : ∀ s, n.isDefined s = true → n'.isDefined s = true
  known : ∀ s i, inverters.find? s = some i → inverters'.find? s = some i

theorem Grows.refl : Grows n inverters n inverters := ⟨fun _ h => h, fun _ _ h => h⟩

theorem Grows.trans {n'' : Netlist} {inverters'' : Inverters}
    (h : Grows n inverters n' inverters') (h' : Grows n' inverters' n'' inverters'') :
    Grows n inverters n'' inverters'' :=
  ⟨fun s hs => h'.defined s (h.defined s hs), fun s i hi => h'.known s i (h.known s i hi)⟩

/-- An inverter on a new signal keeps the invariant. -/
theorem Straightened.newInverter (hs : Straightened source n inverters rest) {id : NodeId}
    (hdef : n.isDefined signal = true)
    (hnew : NewNode n n' ⟨id, .op .not, [.plain signal], inverter⟩ (n.width signal)) :
    Straightened source n' (inverters.insert signal inverter) rest where
  coherent := hnew.coherent hs.coherent
  name := hnew.name.trans hs.name
  inputs := hnew.inputs.trans hs.inputs
  outputs := hnew.outputs.trans hs.outputs
  width s htaken := by
    obtain ⟨htaken, hw⟩ := hs.width s htaken
    exact ⟨(hnew.taken s).2 (.inr htaken), by rw [hnew.width_of_taken htaken, hw]⟩
  reads node hnode f hf := by
    rw [hnew.defined]
    rcases hnew.mem_nodes.1 hnode with hnode | rfl
    · exact .inr (hs.reads node hnode f hf)
    · rw [List.mem_singleton.1 hf]
      exact .inr hdef
  plain node hnode := by
    rcases hnew.mem_nodes.1 hnode with hnode | rfl
    · exact hs.plain node hnode
    · refine .inr fun f hf => ?_
      rw [List.mem_singleton.1 hf]
      rfl
  pending node hnode := hnew.mem_nodes.2 (.inl (hs.pending node hnode))
  known s i hfind := by
    rw [hnew.defined, hnew.defined]
    rw [Table.find?_insert] at hfind
    split at hfind
    · next hsignal =>
      cases hfind
      exact ⟨.inr (hsignal ▸ hdef), .inl rfl⟩
    · exact ⟨.inr (hs.known s i hfind).1, .inr (hs.known s i hfind).2⟩
  solves cells given v hv := by
    obtain ⟨v', hv', hold, hinv⟩ := hs.solves cells given v hv
    have hvalue : ∀ s, n.isTaken s = true →
        Function.update v' inverter ((n.width signal).complement (v' signal)) s = v' s :=
      fun s hs => Function.update_of_ne (hnew.ne_of_taken hs) _ _
    refine ⟨Function.update v' inverter ((n.width signal).complement (v' signal)),
      solution_of_newNode hnew hv' hs.reads ?_ ?_, fun s htaken => ?_, fun s i hfind => ?_⟩
    · intro f hf
      rw [List.mem_singleton.1 hf]
      exact hdef
    · have hw : n'.width inverter = n.width signal := by rw [hnew.width, if_pos rfl]
      simp only [Valuation.result, hw, List.map_cons, List.map_nil, Operator.value_not]
      rfl
    · rw [hvalue s (hs.width s htaken).1, hold s htaken]
    · rw [Table.find?_insert] at hfind
      split at hfind
      · next hsignal =>
        cases hfind
        rw [hsignal, Function.update_self, hvalue signal (isTaken_of_isDefined hdef),
          hnew.width_of_defined hdef]
      · obtain ⟨hdefs, hdefi⟩ := hs.known s i hfind
        rw [hvalue i (isTaken_of_isDefined hdefi), hvalue s (isTaken_of_isDefined hdefs),
          hnew.width_of_defined hdefs, hinv s i hfind]

/-- The inverter of a defined signal can be had at any time. -/
theorem Straightened.inverterOf (hs : Straightened source n inverters rest)
    (hdef : n.isDefined signal = true)
    (h : inverterOf n inverters signal = .ok (n', inverters', inverter)) :
    Straightened source n' inverters' rest ∧ Grows n inverters n' inverters' ∧
      inverters'.find? signal = some inverter := by
  cases hfind : inverters.find? signal with
  | some old =>
    rw [Subject.inverterOf, hfind] at h
    cases h
    exact ⟨hs, .refl, hfind⟩
  | none =>
    obtain ⟨rfl, id, hnew⟩ := inverterOf_eq_ok hfind h
    refine ⟨hs.newInverter hdef hnew, ⟨fun s hs => (hnew.defined s).2 (.inr hs), ?_⟩,
      Table.find?_insert_self _ _ _⟩
    intro s i hi
    rw [Table.find?_insert, if_neg, hi]
    rintro rfl
    rw [hfind] at hi
    cases hi

/-! ## Treating a node -/

/-- A fanin of a subject graph in place of one of the source: the same if it is plain, else the
inverter of its signal. -/
def ReadsLike (inverters : Inverters) (f g : Fanin) : Prop :=
  f.inverted = false ∧ g = f ∨
    f.inverted = true ∧ ∃ i, inverters.find? f.signal = some i ∧ g = .plain i

/-- The fanins of a list can be replaced at any time. -/
theorem Straightened.straighten {fanins fanins' : List Fanin}
    (hs : Straightened source n inverters rest)
    (hdef : ∀ f ∈ fanins, n.isDefined f.signal = true)
    (h : straighten fanins n inverters = .ok (n', inverters', fanins')) :
    Straightened source n' inverters' rest ∧ Grows n inverters n' inverters' ∧
      List.Forall₂ (ReadsLike inverters') fanins fanins' := by
  induction fanins generalizing n inverters fanins' with
  | nil =>
    cases h
    exact ⟨hs, .refl, .nil⟩
  | cons f fanins ih =>
    obtain ⟨hf, hfanins⟩ := List.forall_mem_cons.1 hdef
    rw [Subject.straighten] at h
    split at h
    · next hinv =>
      obtain ⟨⟨m, inverters₁, inverter⟩, hfirst, h⟩ := ok_of_bind h
      obtain ⟨⟨m', inverters₂, tail⟩, hrest, h⟩ := ok_of_bind h
      cases h
      obtain ⟨hs₁, hgrow₁, hfind⟩ := hs.inverterOf hf hfirst
      obtain ⟨hs₂, hgrow₂, htail⟩ := ih hs₁ (fun f hf => hgrow₁.defined _ (hfanins f hf)) hrest
      exact ⟨hs₂, hgrow₁.trans hgrow₂,
        .cons (.inr ⟨hinv, inverter, hgrow₂.known _ _ hfind, rfl⟩) htail⟩
    · next hplain =>
      obtain ⟨⟨m', inverters₂, tail⟩, hrest, h⟩ := ok_of_bind h
      cases h
      obtain ⟨hs₂, hgrow, htail⟩ := ih hs hfanins hrest
      exact ⟨hs₂, hgrow, .cons (.inl ⟨by simpa using hplain, rfl⟩) htail⟩

theorem plain_of_readsLike {fanins fanins' : List Fanin}
    (h : List.Forall₂ (ReadsLike inverters) fanins fanins') : ∀ g ∈ fanins', g.inverted = false := by
  induction h with
  | nil => simp
  | cons h _ ih =>
    rw [List.forall_mem_cons]
    refine ⟨?_, ih⟩
    rcases h with ⟨hplain, rfl⟩ | ⟨-, i, -, rfl⟩
    · exact hplain
    · rfl

theorem defined_of_readsLike (hs : Straightened source n inverters rest) {fanins fanins' : List Fanin}
    (hdef : ∀ f ∈ fanins, n.isDefined f.signal = true)
    (h : List.Forall₂ (ReadsLike inverters) fanins fanins') :
    ∀ g ∈ fanins', n.isDefined g.signal = true := by
  induction h with
  | nil => simp
  | cons h _ ih =>
    rw [List.forall_mem_cons] at hdef ⊢
    refine ⟨?_, ih hdef.2⟩
    rcases h with ⟨-, rfl⟩ | ⟨-, i, hi, rfl⟩
    · exact hdef.1
    · exact (hs.known _ _ hi).2

theorem seen_of_readsLike {v : Valuation} {fanins fanins' : List Fanin}
    (hinv : ∀ s i, inverters.find? s = some i → v i = (n.width s).complement (v s))
    (h : List.Forall₂ (ReadsLike inverters) fanins fanins') :
    fanins'.map (v.seen n) = fanins.map (v.seen n) := by
  induction h with
  | nil => rfl
  | cons h _ ih =>
    rw [List.map_cons, List.map_cons, ih]
    rcases h with ⟨-, rfl⟩ | ⟨hinverted, i, hi, rfl⟩
    · rfl
    · simp [Valuation.seen, Fanin.plain, hinverted, hinv _ _ hi]

/-- A pending node whose fanins are replaced is done. -/
theorem Straightened.replaceNode {node : Node} {fanins : List Fanin}
    (hs : Straightened source n inverters (node :: rest)) (hids : ∀ m ∈ rest, m.id ≠ node.id)
    (hfanins : List.Forall₂ (ReadsLike inverters) node.fanins fanins)
    (h : n.replaceNode node.id node.kind fanins = .ok n') :
    Straightened source n' inverters rest := by
  obtain ⟨-, -, rfl⟩ := replaceNode_eq_ok h
  have hmem : node ∈ n.nodes := hs.pending node (.head _)
  have hdefined := hs.coherent.isDefined_updateNode node.id node.kind fanins
  exact {
    coherent := hs.coherent.updateNode _ _ _
    name := hs.name
    inputs := hs.inputs
    outputs := hs.outputs
    width := fun s htaken => by
      rw [hs.coherent.isTaken_updateNode]
      exact hs.width s htaken
    reads := fun m hm f hf => by
      rw [hdefined]
      rcases (hs.coherent.mem_nodes_updateNode hmem).1 hm with rfl | ⟨hold, -⟩
      · exact defined_of_readsLike hs (hs.reads node hmem) hfanins f hf
      · exact hs.reads m hold f hf
    plain := fun m hm => by
      rcases (hs.coherent.mem_nodes_updateNode hmem).1 hm with rfl | ⟨hold, hid⟩
      · exact .inr (plain_of_readsLike hfanins)
      · rcases hs.plain m hold with hpending | hplain
        · refine .inl ((List.mem_cons.1 hpending).resolve_left ?_)
          rintro rfl
          exact hid rfl
        · exact .inr hplain
    pending := fun m hm => (hs.coherent.mem_nodes_updateNode hmem).2
      (.inr ⟨hs.pending m (.tail _ hm), hids m hm⟩)
    known := fun s i hi => by
      rw [hdefined, hdefined]
      exact hs.known s i hi
    solves := fun cells given v hv => by
      obtain ⟨v', hv', hold, hinv⟩ := hs.solves cells given v hv
      refine ⟨v', ⟨hv'.input, fun m hm => ?_⟩, hold, hinv⟩
      rcases (hs.coherent.mem_nodes_updateNode hmem).1 hm with rfl | ⟨hm, -⟩
      · rw [← hv'.node node hmem]
        exact Valuation.result_congr rfl rfl (seen_of_readsLike hinv hfanins)
      · exact hv'.node m hm }

/-! ## The subject graph -/

/-- Wires that come as the fanins do need no check. -/
theorem ofNetlist_of_derived (h : source.wires = source.derivedWires) :
    ofNetlist source = (do
      source.validateDerived.mapError .structural
      let n ← (straightenNodes source.nodes source Table.empty).mapError .structural
      return ⟨n.rebuildWires, n.rebuildWires.fanout⟩) := by
  rw [ofNetlist, validate_of_derived h]

/-- Treating the nodes of a list one after the other. -/
theorem Straightened.straightenNodes (hs : Straightened source n inverters rest)
    (hids : (rest.map Node.id).Nodup) (h : straightenNodes rest n inverters = .ok n') :
    ∃ inverters', Straightened source n' inverters' [] := by
  induction rest generalizing n inverters with
  | nil =>
    cases h
    exact ⟨inverters, hs⟩
  | cons node rest ih =>
    obtain ⟨⟨m, inverters₁, fanins⟩, hfanins, h⟩ := ok_of_bind h
    obtain ⟨m', hreplace, h⟩ := ok_of_bind h
    rw [List.map_cons, List.nodup_cons] at hids
    obtain ⟨hs₁, -, hlike⟩ := hs.straighten (hs.reads node (hs.pending node (.head _))) hfanins
    refine ih (hs₁.replaceNode (fun k hk hid => hids.1 ?_) hlike hreplace) hids.2 h
    exact hid ▸ List.mem_map_of_mem hk

/-- The subject graph of a netlist has its ports and its meaning, without inverted fanins. -/
theorem straightened_of_ofNetlist {s : Subject} (hc : source.Coherent)
    (h : ofNetlist source = .ok s) :
    source.validate = .ok () ∧ ∃ inverters, Straightened source s.netlist inverters [] := by
  obtain ⟨u, hvalid, h⟩ := ok_of_bind h
  obtain ⟨n, hn, h⟩ := ok_of_bind h
  cases h
  have hvalid := ok_of_mapError hvalid
  have hstart := straightened_source hc (hc.legal_of_validate hvalid)
  obtain ⟨inverters, hs⟩ := hstart.straightenNodes hc.nodeIds_nodup (ok_of_mapError hn)
  refine ⟨hvalid, inverters, ?_⟩
  exact ⟨hs.coherent.rebuildWires, hs.name, hs.inputs, hs.outputs, hs.width, hs.reads, hs.plain,
    hs.pending, hs.known, fun cells given v hv => by
      obtain ⟨v', hv', hrest⟩ := hs.solves cells given v hv
      exact ⟨v', ⟨hv'.input, hv'.node⟩, hrest⟩⟩

end Subject

end GateSynth
