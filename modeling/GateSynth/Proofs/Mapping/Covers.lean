import GateSynth.Mapping.Cover
import GateSynth.Proofs.Library.Checked
import GateSynth.Proofs.Mapping.Occurrences

/-!
# Covers

From matches to the mapped netlist. A match of a node computes its signal (`Computes`,
`computes_of_nodeMatches`), a selection chooses matches of nodes only (`mem_nodeMatches_of_chosen`),
and the mapped netlist consists of instances of chosen matches (`Cover`, `cover_of_assemble`).
-/

namespace GateSynth

open Netlist

variable {ν : Type} {lib : Library ν} {s : Subject}

/-! ## Matches -/

namespace Subject

/-- An instance of the match drives the signal of the node. -/
structure Computes (s : Subject) (lib : Library ν) (node : Node) (m : Match ν) : Prop where
  /-- The cell is the one of its name. -/
  cell : lib.cell? m.cell.name = some m.cell
  /-- Every input pin reads a signal. -/
  leaves : m.leaves.length = m.cell.inputs.length
  /-- The cell gives the signal its value in every solution. -/
  value : ∀ given v, s.netlist.Solution lib.functions given v →
    (lib.functions m.cell.name m.init (m.leaves.map v) (s.netlist.width node.output)).map
      (s.netlist.width node.output).truncate = some (v node.output)

/-- The values that the leaves bring to the pins are those of the signals that the occurrence
binds the pins to. -/
theorem values_of_leaves {o : Occurrence} {pins leaves : List String} (v : Valuation)
    (h : List.Forall₂ (fun pin leaf => o.pins.find? pin = some leaf) pins leaves) :
    o.Values v (Table.ofList (pins.zip (leaves.map v))) pins := by
  have hbound : ∀ pin x, (pin, x) ∈ pins.zip (leaves.map v) →
      ∃ leaf, o.pins.find? pin = some leaf ∧ x = v leaf := by
    intro pin x hmem
    rw [List.zip_map_right] at hmem
    obtain ⟨⟨pin', leaf⟩, hzip, heq⟩ := List.mem_map.1 hmem
    cases heq
    exact ⟨leaf, (List.forall₂_iff_zip.1 h).2 hzip, rfl⟩
  intro pin hpin signal hsignal
  have hvalue : ∀ x, (pin, x) ∈ pins.zip (leaves.map v) → x = v signal := by
    intro x hmem
    obtain ⟨leaf, hleaf, rfl⟩ := hbound pin x hmem
    rw [hsignal] at hleaf
    cases hleaf
    rfl
  obtain ⟨x, hmem⟩ : ∃ x, (pin, x) ∈ pins.zip (leaves.map v) := by
    have hfst : (pins.zip (leaves.map v)).map Prod.fst = pins :=
      List.map_fst_zip (by rw [List.length_map, h.length_eq])
    rw [← hfst] at hpin
    obtain ⟨⟨pin', x⟩, hmem, rfl⟩ := List.mem_map.1 hpin
    exact ⟨x, hmem⟩
  exact Table.find?_ofList (hvalue x hmem ▸ hmem) hvalue

/-- A match of a cell computes the signal of its node. -/
theorem computes_of_cellMatches (hlib : lib.Checked)
    (hplain : ∀ node ∈ s.netlist.nodes, ∀ f ∈ node.fanins, f.inverted = false)
    {node : Node} (hnode : node ∈ s.netlist.nodes) {cell : Cell ν} (hcell : cell ∈ lib.cells)
    {m : Match ν} (h : m ∈ s.cellMatches node cell) : s.Computes lib node m := by
  obtain ⟨o, ho, hm⟩ := List.mem_filterMap.1 h
  obtain ⟨leaves, hleaves, hm⟩ := Option.bind_eq_some_iff.1 hm
  cases hm
  have hbound := forall₂_of_mapM_some hleaves
  have hcell? := hlib.cell?_name hcell
  refine ⟨hcell?, hbound.length_eq.symm, fun given v hv => ?_⟩
  have hvalues : o.Values v (Table.ofList (cell.inputs.zip (leaves.map v))) cell.function.pinList :=
    fun pin hpin => values_of_leaves v hbound pin (hlib.pins cell hcell pin hpin)
  have heval := (Occurrence.expand_sound hv hplain cell.function ho fun _ => rfl).2 (.refl o) hvalues
  have hlength : (leaves.map v).length = cell.inputs.length := by
    rw [List.length_map, hbound.length_eq]
  simp only [Library.functions, hcell?, Option.bind_some, Cell.eval, hlength, if_true, heval,
    Option.map_some]
  rw [hv.truncate_eq (isDefined_of_node hnode)]

/-! ### Repetitions -/

theorem mem_of_distinctMatches {found : List (Match ν)} {m : Match ν}
    (h : m ∈ distinctMatches found) : m ∈ found := by
  suffices hfold : ∀ kept : List (Match ν),
      m ∈ found.foldl (fun kept m => if kept.any m.sameInstance then kept else kept ++ [m]) kept →
        m ∈ kept ∨ m ∈ found from (hfold [] h).resolve_left List.not_mem_nil
  clear h
  induction found with
  | nil => exact fun kept h => .inl h
  | cons first rest ih =>
    intro kept h
    rcases ih _ h with hkept | hrest
    · dsimp only at hkept
      split at hkept
      · exact .inl hkept
      · rcases List.mem_append.1 hkept with hkept | hfirst
        · exact .inl hkept
        · exact .inr (List.mem_singleton.1 hfirst ▸ .head _)
    · exact .inr (.tail _ hrest)

theorem sameInstance_self (m : Match ν) : m.sameInstance m = true := by
  simp [Match.sameInstance]

/-- No match is dropped unless one like it is kept. -/
theorem exists_distinct {found : List (Match ν)} {m : Match ν} (h : m ∈ found) :
    ∃ kept ∈ distinctMatches found, m.sameInstance kept = true := by
  suffices hfold : ∀ before : List (Match ν),
      (∃ kept ∈ before, m.sameInstance kept = true) ∨ m ∈ found →
      ∃ kept ∈ found.foldl
        (fun kept m => if kept.any m.sameInstance then kept else kept ++ [m]) before,
        m.sameInstance kept = true from hfold [] (.inr h)
  clear h
  induction found with
  | nil => exact fun before h => h.resolve_right List.not_mem_nil
  | cons first rest ih =>
    intro before h
    refine ih _ ?_
    dsimp only
    rcases h with ⟨kept, hkept, hsame⟩ | h
    · refine .inl ⟨kept, ?_, hsame⟩
      split
      · exact hkept
      · exact List.mem_append_left _ hkept
    · rcases List.mem_cons.1 h with rfl | h
      · left
        split
        · next hany => exact List.any_eq_true.1 hany
        · exact ⟨m, List.mem_append_right _ (.head _), sameInstance_self m⟩
      · exact .inr h

/-! ### The matches of a node -/

section
variable {node : Node} {cell : Cell ν} {name : String} {init : Option Word}

/-- An instance of a cell matches just this cell, if it has a fanin for every pin. -/
theorem nodeMatches_of_cell (hkind : node.kind = .cell name init) (hcell : lib.cell? name = some cell)
    (hlength : cell.inputs.length = node.fanins.length) :
    s.nodeMatches lib node = [⟨node.id, cell, node.faninSignals, [], init⟩] := by
  rw [nodeMatches]
  simp only [hkind, hcell]
  rw [if_pos hlength]

/-- Any other node matches the cells that are looked up for its kind. -/
theorem nodeMatches_of_not_cell (hkind : ∀ name init, node.kind ≠ .cell name init) :
    s.nodeMatches lib node =
      distinctMatches ((lib.lookup node.kind).flatMap (s.cellMatches node)) := by
  rw [nodeMatches]
  split
  · next name init heq => exact absurd heq (hkind name init)
  · rfl

theorem of_mem_nodeMatches {m : Match ν} (h : m ∈ s.nodeMatches lib node) :
    (∃ name init cell, node.kind = .cell name init ∧ lib.cell? name = some cell ∧
      cell.inputs.length = node.fanins.length ∧
      m = ⟨node.id, cell, node.faninSignals, [], init⟩) ∨
    ∃ cell ∈ lib.lookup node.kind, m ∈ s.cellMatches node cell := by
  by_cases hkind : ∃ name init, node.kind = .cell name init
  · obtain ⟨name, init, hkind⟩ := hkind
    rw [nodeMatches] at h
    simp only [hkind] at h
    split at h
    · next cell hcell =>
      split at h
      · next hlength =>
        exact .inl ⟨name, init, cell, hkind, hcell, hlength, List.mem_singleton.1 h⟩
      · cases h
    · cases h
  · rw [nodeMatches_of_not_cell fun name init heq => hkind ⟨name, init, heq⟩] at h
    exact .inr (List.mem_flatMap.1 (mem_of_distinctMatches h))

end

/-- A match of a node computes its signal. -/
theorem computes_of_nodeMatches (hlib : lib.Checked)
    (hplain : ∀ node ∈ s.netlist.nodes, ∀ f ∈ node.fanins, f.inverted = false)
    {node : Node} (hnode : node ∈ s.netlist.nodes) {m : Match ν} (h : m ∈ s.nodeMatches lib node) :
    s.Computes lib node m := by
  rcases of_mem_nodeMatches h with ⟨name, init, cell, hkind, hcell, hlength, rfl⟩ | ⟨cell, hcell, hm⟩
  · have hname := (Library.cell?_eq_some hcell).2
    refine ⟨hname ▸ hcell, ?_, fun given v hv => ?_⟩
    · rw [hlength, Node.faninSignals, List.length_map]
    · have hnodev := hv.node node hnode
      simp only [Valuation.result, hkind, Valuation.map_seen_plain (hplain node hnode)] at hnodev
      rw [hname, hnodev]
  · exact computes_of_cellMatches hlib hplain hnode (Library.mem_of_lookup hcell) hm

end Subject

/-! ## Selections -/

namespace Selection

/-- A choice is a match of its node. -/
def Sound (sel : Selection ν) (s : Subject) (lib : Library ν) : Prop :=
  ∀ id m, sel.chosen? id = some m → ∃ node, s.netlist.node? id = some node ∧
    m ∈ s.nodeMatches lib node

section
variable [Quantity ν] {sel : Selection ν} {strategy : Strategy}

theorem mem_of_foldl_prefer {choices : List (Choice ν)} {kept : Option (Choice ν)}
    {choice : Choice ν} (h : choices.foldl (prefer strategy) kept = some choice) :
    kept = some choice ∨ choice ∈ choices := by
  induction choices generalizing kept with
  | nil => exact .inl h
  | cons first rest ih =>
    rcases ih h with hkept | hrest
    · cases kept with
      | none =>
        cases hkept
        exact .inr (.head _)
      | some old =>
        rw [prefer] at hkept
        split at hkept
        · cases hkept
          exact .inr (.head _)
        · exact .inl hkept
    · exact .inr (.tail _ hrest)

theorem candidate_mem_of_usable {candidates : List (Match ν)} {choice : Choice ν}
    (h : choice ∈ sel.usable s candidates) : choice.candidate ∈ candidates := by
  obtain ⟨⟨m, index⟩, hm, hchoice⟩ := List.mem_filterMap.1 h
  dsimp only at hchoice
  split at hchoice
  · cases hchoice
    exact (List.mem_zipIdx' hm).2 ▸ List.getElem_mem _
  · cases hchoice

/-- Choosing for a node keeps the choices sound. -/
theorem Sound.choose (h : sel.Sound s lib) {id : NodeId} {candidates : List (Match ν)}
    (hcandidates : ∀ m ∈ candidates, ∃ node, s.netlist.node? id = some node ∧
      m ∈ s.nodeMatches lib node) :
    (sel.choose s strategy id candidates).Sound s lib := by
  rw [Selection.choose]
  split
  · next choice hchoice =>
    intro other m hm
    rw [chosen?, Table.find?_insert] at hm
    split at hm
    · next heq =>
      cases hm
      have husable := (mem_of_foldl_prefer hchoice).resolve_left nofun
      exact heq ▸ hcandidates _ (candidate_mem_of_usable husable)
    · exact h other m hm
  · exact h

/-- Choosing along an order keeps the choices sound. -/
theorem Sound.along (h : sel.Sound s lib) (order : List NodeId) :
    (along s lib strategy order sel).Sound s lib := by
  induction order generalizing sel with
  | nil => exact h
  | cons id rest ih =>
    refine ih (h.choose fun m hm => ?_)
    split at hm
    · next node hnode => exact ⟨node, hnode, hm⟩
    · cases hm

theorem sound_of_select (h : s.select lib strategy = .ok sel) : sel.Sound s lib := by
  obtain ⟨order, -, h⟩ := ok_of_bind h
  cases h
  refine Sound.along (fun id m hm => ?_) order
  cases hm

end

/-! ## The mapped netlist -/

/-- The mapped netlist as far as it is built: the ports of the subject graph and instances that
drive signals of it. -/
structure Cover (s : Subject) (lib : Library ν) (mapped : Netlist) : Prop where
  coherent : mapped.Coherent
  name : mapped.name = s.netlist.name
  inputs : mapped.inputs = s.netlist.inputs
  outputs : mapped.outputs = s.netlist.outputs
  width : ∀ signal, signal ∈ mapped.inputs ∨ signal ∈ mapped.outputs →
    mapped.width signal = s.netlist.width signal
  /-- An instance stands for a match of a node. -/
  instances : ∀ k ∈ mapped.nodes, ∃ node ∈ s.netlist.nodes, ∃ m, s.Computes lib node m ∧
    k.kind = m.kind ∧ k.fanins = m.leaves.map Fanin.plain ∧ k.output = node.output ∧
    mapped.width node.output = s.netlist.width node.output

variable {mapped mapped' : Netlist}

/-- Recording the width that a signal has in the source makes its width right and keeps those that
are. -/
theorem width_setWidth_source {source : Netlist} {signal other : String}
    (h : mapped.width other = source.width other ∨ other = signal) :
    (mapped.setWidth signal (source.width signal)).width other = source.width other := by
  rw [width_setWidth]
  split
  · next heq => rw [heq]
  · next hne => exact h.resolve_right hne

/-- What declaring ports of the source does, `list` being the ports of that direction and `rest`
those of the other. -/
structure Declares (source : Netlist) (list rest : Netlist → List String) (ports : List String)
    (mapped mapped' : Netlist) : Prop where
  coherent : mapped.Coherent → mapped'.Coherent
  name : mapped'.name = mapped.name
  nodes : mapped'.nodes = mapped.nodes
  listed : list mapped' = list mapped ++ ports
  rest : rest mapped' = rest mapped
  width : ∀ signal, mapped.width signal = source.width signal ∨ signal ∈ ports →
    mapped'.width signal = source.width signal

section
variable {source : Netlist} {name : String} {list rest : Netlist → List String}

theorem declares_addInput (h : mapped.addInput name (source.width name).bits = .ok mapped') :
    Declares source Netlist.inputs Netlist.outputs [name] mapped mapped' := by
  have hc : mapped.Coherent → mapped'.Coherent := fun hc => hc.addInput h
  obtain ⟨-, w, hw, rfl⟩ := addInput_eq_ok h
  cases Width.ext hw
  exact ⟨hc, rfl, rfl, rfl, rfl, fun signal hs =>
    width_setWidth_source (hs.imp_right List.mem_singleton.1)⟩

theorem declares_addOutput (h : mapped.addOutput name (source.width name).bits = .ok mapped') :
    Declares source Netlist.outputs Netlist.inputs [name] mapped mapped' := by
  have hc : mapped.Coherent → mapped'.Coherent := fun hc => hc.addOutput h
  obtain ⟨-, w, hw, rfl⟩ := addOutput_eq_ok h
  cases Width.ext hw
  exact ⟨hc, rfl, rfl, rfl, rfl, fun signal hs =>
    width_setWidth_source (hs.imp_right List.mem_singleton.1)⟩

/-- Declaring ports one after the other. -/
theorem declares_addPorts {add : Netlist → String → Nat → Except NetlistError Netlist}
    (hadd : ∀ {n n' name}, add n name (source.width name).bits = .ok n' →
      Declares source list rest [name] n n')
    {ports : List String} (h : addPorts source add ports mapped = .ok mapped') :
    Declares source list rest ports mapped mapped' := by
  induction ports generalizing mapped with
  | nil =>
    cases h
    exact ⟨fun hc => hc, rfl, rfl, by simp, rfl, fun signal hs => by simpa using hs⟩
  | cons name ports ih =>
    obtain ⟨next, hnext, h⟩ := ok_of_bind h
    have hfirst := hadd hnext
    have htail := ih h
    refine ⟨htail.coherent ∘ hfirst.coherent, htail.name.trans hfirst.name,
      htail.nodes.trans hfirst.nodes, by simp [htail.listed, hfirst.listed],
      htail.rest.trans hfirst.rest, fun signal hsignal => htail.width signal ?_⟩
    rw [List.mem_cons, ← or_assoc] at hsignal
    refine hsignal.imp_left fun h => hfirst.width signal ?_
    exact h.imp_right List.mem_singleton.2

end

/-- The instance of a match of a node keeps the invariant. -/
theorem Cover.addInstance (hcover : Cover s lib mapped) {node : Node} {m : Match ν} {id : NodeId}
    (hnode : node ∈ s.netlist.nodes) (hm : s.Computes lib node m)
    (h : (mapped.setWidth node.output (s.netlist.width node.output)).addNode m.kind
      (m.leaves.map Fanin.plain) node.output = .ok (mapped', id)) : Cover s lib mapped' := by
  have hc := (hcover.coherent.setWidth node.output (s.netlist.width node.output)).addNode h
  have hnodes := nodes_of_addNode h
  obtain ⟨-, -, -, rfl⟩ := addNode_eq_ok h
  refine ⟨hc, hcover.name, hcover.inputs, hcover.outputs,
    fun signal hs => width_setWidth_source (.inl (hcover.width signal hs)), fun k hk => ?_⟩
  rw [hnodes, List.mem_append, List.mem_singleton] at hk
  rcases hk with hk | rfl
  · obtain ⟨node', hnode', m', hm', hkind, hfanins, hout, hwidth⟩ := hcover.instances k hk
    exact ⟨node', hnode', m', hm', hkind, hfanins, hout, width_setWidth_source (.inl hwidth)⟩
  · exact ⟨node, hnode, m, hm, rfl, rfl, rfl, width_setWidth_source (.inr rfl)⟩

/-- The instances for the nodes of a list keep the invariant. -/
theorem Cover.addInstances {sel : Selection ν} {needed order : List NodeId}
    (hcover : Cover s lib mapped)
    (hsel : ∀ id node m, s.netlist.node? id = some node → sel.chosen? id = some m →
      node ∈ s.netlist.nodes ∧ s.Computes lib node m)
    (h : sel.addInstances s.netlist needed order mapped = .ok mapped') :
    Cover s lib mapped' := by
  induction order generalizing mapped with
  | nil =>
    cases h
    exact hcover
  | cons id rest ih =>
    rw [Selection.addInstances] at h
    split at h
    · split at h
      · next node m hnode hm =>
        obtain ⟨⟨next, place⟩, hnext, h⟩ := ok_of_bind h
        obtain ⟨hmem, hcomputes⟩ := hsel id node m hnode hm
        exact ih (hcover.addInstance hmem hcomputes hnext) h
      · exact ih hcover h
    · exact ih hcover h

/-- A cover has no wires to check, because it makes them from the fanins. -/
theorem assemble_eq (sel : Selection ν) (source : Netlist) (needed : List NodeId) :
    sel.assemble source needed = (do
      let mapped ← addPorts source Netlist.addInput source.inputs (Netlist.empty source.name)
      let mapped ← addPorts source Netlist.addOutput source.outputs mapped
      let order ← source.topoOrder
      let mapped ← sel.addInstances source needed order mapped
      mapped.rebuildWires.validateDerived
      return mapped.rebuildWires) := by
  simp only [← validate_rebuilt]
  rfl

/-- The mapped netlist is valid, has the ports of the subject graph, and consists of instances of
matches. -/
theorem cover_of_extract [Quantity ν] {sel : Selection ν} (hlib : lib.Checked)
    (hsub : s.netlist.Coherent)
    (hplain : ∀ node ∈ s.netlist.nodes, ∀ f ∈ node.fanins, f.inverted = false)
    (hsel : sel.Sound s lib) (h : sel.extract s = .ok mapped) :
    Cover s lib mapped ∧ mapped.validate = .ok () := by
  obtain ⟨needed, -, h⟩ := ok_of_bind h
  obtain ⟨withInputs, hinputs, h⟩ := ok_of_bind (ok_of_mapError h)
  obtain ⟨withPorts, houtputs, h⟩ := ok_of_bind h
  obtain ⟨order, -, h⟩ := ok_of_bind h
  obtain ⟨built, hbuilt, h⟩ := ok_of_bind h
  obtain ⟨hvalid, h⟩ := bind_eq_ok_iff.1 h
  cases h
  have hin := declares_addPorts declares_addInput hinputs
  have hout := declares_addPorts declares_addOutput houtputs
  have hports : Cover s lib withPorts := by
    have hinputs : withPorts.inputs = s.netlist.inputs := by
      rw [hout.rest, hin.listed]
      rfl
    have houtputs : withPorts.outputs = s.netlist.outputs := by
      rw [hout.listed, hin.rest]
      rfl
    refine ⟨hout.coherent (hin.coherent (.empty _)), hout.name.trans hin.name, hinputs, houtputs,
      fun signal hs => hout.width signal ?_, fun k hk => ?_⟩
    · rw [hinputs, houtputs] at hs
      exact hs.imp_left fun hs => hin.width signal (.inr hs)
    · rw [hout.nodes, hin.nodes] at hk
      cases hk
  have hcover := hports.addInstances (fun id node m hnode hm => by
    obtain ⟨node', hnode', hmatch⟩ := hsel id m hm
    rw [hnode] at hnode'
    cases hnode'
    have hmem := (hsub.node?_eq_some_iff.1 hnode).1
    exact ⟨hmem, Subject.computes_of_nodeMatches hlib hplain hmem hmatch⟩) hbuilt
  exact ⟨⟨hcover.coherent.rebuildWires, hcover.name, hcover.inputs, hcover.outputs, hcover.width,
    hcover.instances⟩, hvalid⟩

/-- A solution of the subject graph solves the mapped netlist too. -/
theorem Cover.solution (hcover : Cover s lib mapped) {given : Values} {v : Valuation}
    (hv : s.netlist.Solution lib.functions given v) :
    mapped.Solution lib.functions given v := by
  constructor
  · intro i hi
    rw [hcover.width i (.inl hi)]
    exact hv.input i (hcover.inputs ▸ hi)
  · intro k hk
    obtain ⟨node, hnode, m, hm, hkind, hfanins, hout, hwidth⟩ := hcover.instances k hk
    have hoperands : k.fanins.map (v.seen mapped) = m.leaves.map v := by
      rw [hfanins, List.map_map]
      rfl
    have hvalue := hm.value given v hv
    simp only [Valuation.result, hkind, Match.kind, hoperands, hwidth, hout]
    exact hvalue

end Selection

end GateSynth
