import GateSynth.Proofs.Netlist.Legality

/-!
# Rewriting netlists

What the passes have in common. `Preserved` lists what a pass may not touch. A pass drops nodes
(`Without`) and gives nodes other fanins (`Legal.updateNode`); that no loop comes of it is shown
with a rank that grows along every fanin, inputs included (`Ranked`).
-/

namespace GateSynth.Netlist

variable {n n' n'' : Netlist} {node : Node} {rank : String → Nat}

/-! ## Ranks -/

/-- The rank grows from every signal that a node reads to the signal that it drives. -/
def Ranked (n : Netlist) (rank : String → Nat) : Prop :=
  ∀ node ∈ n.nodes, ∀ f ∈ node.fanins, rank f.signal < rank node.output

theorem Ranked.acyclic (h : n.Ranked rank) : n.Acyclic :=
  ⟨rank, fun node hnode f hf _ => h node hnode f hf⟩

/-- Signals that no node drives can be ranked below all others. -/
theorem Acyclic.ranked (h : n.Acyclic) : ∃ rank, n.Ranked rank := by
  obtain ⟨rank, hrank⟩ := h
  refine ⟨fun s => if (n.driver? s).isSome then rank s + 1 else 0, fun node hnode f hf => ?_⟩
  have hdriven : (n.driver? node.output).isSome := driver?_isSome_iff.2 ⟨node, hnode, rfl⟩
  simp only [hdriven, if_true]
  split
  · next hf' => exact Nat.succ_lt_succ (hrank node hnode f hf hf')
  · exact Nat.succ_pos _

/-- The place of the driver of a signal in an order, counted from one. -/
def placeIn (n : Netlist) (order : List NodeId) (signal : String) : Nat :=
  ((n.driver? signal).map fun d => order.idxOf d + 1).getD 0

theorem placeIn_output (hsingle : (n.nodes.map Node.output).Nodup) (hm : node ∈ n.nodes)
    (order : List NodeId) : n.placeIn order node.output = order.idxOf node.id + 1 := by
  rw [placeIn, driver?_of_mem hsingle hm, Option.map_some, Option.getD_some]

/-- Places in a topological order are ranks. -/
theorem Coherent.ranked_placeIn (hc : n.Coherent) (hsingle : (n.nodes.map Node.output).Nodup)
    {order : List NodeId} (horder : n.topoOrder = .ok order) : n.Ranked (n.placeIn order) := by
  intro m hm f hf
  have hmem : m.id ∈ order := (hc.perm_of_topoOrder horder).mem_iff.2 (List.mem_map_of_mem hm)
  obtain ⟨front, back, hsplit, hnot⟩ := List.eq_append_cons_of_mem hmem
  have hplace : order.idxOf m.id = front.length := by
    rw [hsplit, List.idxOf_append_of_notMem hnot, List.idxOf_cons_self, Nat.add_zero]
  rw [placeIn_output hsingle hm, hplace, placeIn]
  cases hd : n.driver? f.signal with
  | none => exact Nat.succ_pos _
  | some d =>
    have hfront := hc.driversFirst_of_topoOrder horder _ _ _ hsplit m hm rfl f hf d hd
    rw [Option.map_some, Option.getD_some, hsplit, List.idxOf_append_of_mem hfront]
    exact Nat.succ_lt_succ (List.idxOf_lt_length_of_mem hfront)

/-! ## What passes keep -/

/-- What a pass keeps of a netlist: it stays in order, with the same ports and no more nodes. -/
structure Preserved (n n' : Netlist) : Prop where
  coherent : n'.Coherent
  legal : n'.Legal
  name : n'.name = n.name
  inputs : n'.inputs = n.inputs
  outputs : n'.outputs = n.outputs
  /-- Ports have their widths. -/
  width : ∀ port, port ∈ n.inputs ∨ port ∈ n.outputs → n'.width port = n.width port
  nodeCount : n'.nodeCount ≤ n.nodeCount

namespace Preserved

theorem refl (hc : n.Coherent) (hl : n.Legal) : Preserved n n :=
  ⟨hc, hl, rfl, rfl, rfl, fun _ _ => rfl, Nat.le_refl _⟩

theorem trans (h : Preserved n n') (h' : Preserved n' n'') : Preserved n n'' := by
  refine ⟨h'.coherent, h'.legal, h'.name.trans h.name, h'.inputs.trans h.inputs,
    h'.outputs.trans h.outputs, fun port hport => ?_, h'.nodeCount.trans h.nodeCount⟩
  rw [h'.width port (by rwa [h.inputs, h.outputs]), h.width port hport]

theorem rebuildWires (h : Preserved n n') : Preserved n n'.rebuildWires :=
  ⟨h.coherent.rebuildWires, h.legal.rebuildWires, h.name, h.inputs, h.outputs, h.width,
    h.nodeCount⟩

end Preserved

/-! ## Dropping nodes -/

/-- The netlist without some nodes and without the widths of their signals. -/
structure Without (n n' : Netlist) (gone : List NodeId) : Prop where
  coherent : n'.Coherent
  name : n'.name = n.name
  inputs : n'.inputs = n.inputs
  outputs : n'.outputs = n.outputs
  nodes : n'.nodes = n.nodes.filter fun m => m.id ∉ gone
  width : ∀ s, (∀ m ∈ n.nodes, m.id ∈ gone → m.output ≠ s) → n'.width s = n.width s

namespace Without

variable {gone : List NodeId}

theorem refl (hc : n.Coherent) : Without n n [] :=
  ⟨hc, rfl, rfl, rfl, by simp, fun _ _ => rfl⟩

theorem drop (h : Without n n' gone) (hm : node ∈ n.nodes) :
    Without n ((n'.eraseNode node.id).retireSignal node.output) (node.id :: gone) := by
  have hc := h.coherent.eraseNode node.id
  constructor
  case coherent => exact hc.retireSignal _
  case name =>
    rw [← h.name, retireSignal]
    split <;> rfl
  case inputs =>
    rw [inputs_retireSignal, ← h.inputs]
    rfl
  case outputs =>
    rw [outputs_retireSignal, ← h.outputs]
    rfl
  case nodes =>
    rw [nodes_retireSignal, h.coherent.nodes_eraseNode, h.nodes, List.filter_filter]
    refine List.filter_congr fun m _ => ?_
    simp [not_or]
  case width =>
    intro s hs
    rw [hc.width_retireSignal (hs node hm (.head _)).symm]
    exact h.width s fun m hmem hid => hs m hmem (.tail _ hid)

theorem mem_nodes (h : Without n n' gone) : node ∈ n'.nodes ↔ node ∈ n.nodes ∧ node.id ∉ gone := by
  rw [h.nodes, List.mem_filter, decide_eq_true_eq]

theorem nodeCount_le (h : Without n n' gone) : n'.nodeCount ≤ n.nodeCount := by
  rw [nodeCount, h.nodes]
  exact List.length_filter_le _ _

/-- A defined signal stays defined if its driver stays. -/
theorem isDefined (h : Without n n' gone) {s : String} (hs : n.isDefined s = true)
    (hstay : ∀ m ∈ n.nodes, m.output = s → m.id ∉ gone) : n'.isDefined s = true := by
  rcases isDefined_iff.1 hs with ⟨m, hm, rfl⟩ | hin
  · exact isDefined_of_node (h.mem_nodes.2 ⟨hm, hstay m hm rfl⟩)
  · exact isDefined_of_input (h.inputs ▸ hin)

/-- What is left is in order if the drivers of what is read and put out stay. -/
theorem legal (h : Without n n' gone) (hl : n.Legal)
    (hreads : ∀ m ∈ n'.nodes, ∀ f ∈ m.fanins, ∀ d ∈ n.nodes, d.output = f.signal → d.id ∉ gone)
    (houtputs : ∀ o ∈ n.outputs, ∀ d ∈ n.nodes, d.output = o → d.id ∉ gone) : n'.Legal := by
  obtain ⟨rank, hrank⟩ := hl.acyclic.ranked
  have hold : ∀ {m}, m ∈ n'.nodes → m ∈ n.nodes := fun hm => (h.mem_nodes.1 hm).1
  constructor
  case arity => exact fun m hm => hl.arity m (hold hm)
  case reads =>
    intro m hm f hf
    exact h.isDefined (hl.reads m (hold hm) f hf) (hreads m hm f hf)
  case single =>
    rw [h.nodes]
    exact hl.single.sublist (List.filter_sublist.map _)
  case undriven =>
    intro m hm
    rw [h.inputs]
    exact hl.undriven m (hold hm)
  case driven =>
    intro o ho
    rw [h.outputs] at ho
    exact h.isDefined (hl.driven o ho) (houtputs o ho)
  case acyclic =>
    have hranked : n'.Ranked rank := fun m hm => hrank m (hold hm)
    exact hranked.acyclic

end Without

/-! ## Other fanins -/

/-- A node may read other signals that are defined and ranked below its own. -/
theorem Legal.updateNode (hl : n.Legal) (hc : n.Coherent) (hm : node ∈ n.nodes) {kind : Kind}
    {fanins : List Fanin} (harity : ∀ k, kind.arity? = some k → k = fanins.length)
    (hreads : ∀ f ∈ fanins, n.isDefined f.signal = true) (hrank : n.Ranked rank)
    (hbelow : ∀ f ∈ fanins, rank f.signal < rank node.output) :
    (n.updateNode node.id kind fanins).Legal := by
  have hdefined := hc.isDefined_updateNode node.id kind fanins
  constructor
  case arity =>
    intro m hmem
    rcases (hc.mem_nodes_updateNode hm).1 hmem with rfl | ⟨hold, -⟩
    · exact harity
    · exact hl.arity m hold
  case reads =>
    intro m hmem f hf
    rw [hdefined]
    rcases (hc.mem_nodes_updateNode hm).1 hmem with rfl | ⟨hold, -⟩
    · exact hreads f hf
    · exact hl.reads m hold f hf
  case single =>
    rw [hc.map_output_updateNode]
    exact hl.single
  case undriven =>
    intro m hmem
    rcases (hc.mem_nodes_updateNode hm).1 hmem with rfl | ⟨hold, -⟩
    · exact hl.undriven node hm
    · exact hl.undriven m hold
  case driven =>
    intro o ho
    rw [hdefined]
    exact hl.driven o ho
  case acyclic =>
    have hranked : (n.updateNode node.id kind fanins).Ranked rank := by
      intro m hmem
      rcases (hc.mem_nodes_updateNode hm).1 hmem with rfl | ⟨hold, -⟩
      · exact hbelow
      · exact hrank m hold
    exact hranked.acyclic

/-- A node may read fewer of the signals that it has read. -/
theorem Legal.updateNode_of_subset (hl : n.Legal) (hc : n.Coherent) (hm : node ∈ n.nodes)
    {kind : Kind} {fanins : List Fanin} (harity : ∀ k, kind.arity? = some k → k = fanins.length)
    (hsub : fanins ⊆ node.fanins) : (n.updateNode node.id kind fanins).Legal := by
  obtain ⟨rank, hrank⟩ := hl.acyclic.ranked
  exact hl.updateNode hc hm harity (fun f hf => hl.reads node hm f (hsub hf)) hrank
    fun f hf => hrank node hm f (hsub hf)

theorem Coherent.nodeCount_updateNode (hc : n.Coherent) (id : NodeId) (kind : Kind)
    (fanins : List Fanin) : (n.updateNode id kind fanins).nodeCount = n.nodeCount := by
  rw [nodeCount, hc.nodes_updateNode, List.length_map, nodeCount]

end GateSynth.Netlist
