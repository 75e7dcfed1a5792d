import GateSynth.Proofs.Mapping.Subjects
import GateSynth.Proofs.Netlist.Cones

/-!
# Where the nodes of a subject graph come from

Making inversions explicit never fails (`exists_ofNetlist`). Every node of the subject graph is a
node of the source, whose inverted fanins now read inverters, or the inverter of a signal of the
source; this is the invariant `Traced`, which adds to `Straightened` what is known of single nodes.
With it the subject graph is legal (`Traced.legal`), and its cone consists of the cone of the source
and of inverters (`Traced.cone`).
-/

namespace GateSynth

open Netlist

namespace Subject

variable {source n n' : Netlist} {inverters inverters' : Inverters} {rest : List Node}
  {signal inverter : String} {node old : Node} {fanins : List Fanin}

/-! ## Origins -/

/-- A fanin of the subject graph stands for one of the source: it is the same, or reads the inverter
of its signal. -/
def Routed (inverters : Inverters) (f g : Fanin) : Prop :=
  g = f ∨ ∃ i, inverters.find? f.signal = some i ∧ g = .plain i

theorem Routed.mono {f g : Fanin} (h : Routed inverters f g)
    (hknown : ∀ s i, inverters.find? s = some i → inverters'.find? s = some i) :
    Routed inverters' f g :=
  h.imp_right fun ⟨i, hi, hg⟩ => ⟨i, hknown _ _ hi, hg⟩

theorem ReadsLike.routed {f g : Fanin} (h : ReadsLike inverters f g) : Routed inverters f g := by
  rcases h with ⟨-, rfl⟩ | ⟨-, hinverter⟩
  · exact .inl rfl
  · exact .inr hinverter

/-- A node of the subject graph stands for one of the source. -/
structure StandsFor (inverters : Inverters) (node old : Node) : Prop where
  id : node.id = old.id
  kind : node.kind = old.kind
  output : node.output = old.output
  fanins : List.Forall₂ (Routed inverters) old.fanins node.fanins

/-- A node is the inverter of a signal. -/
structure Inverts (source : Netlist) (node : Node) (s : String) : Prop where
  kind : node.kind = .op .not
  fanins : node.fanins = [.plain s]
  /-- The signal is one of the source. -/
  defined : source.isDefined s = true
  /-- The complement has a new name. -/
  fresh : source.isTaken node.output = false

/-- The state of the construction, with the origin of every node. -/
structure Traced (source n : Netlist) (inverters : Inverters) (rest : List Node) : Prop
    extends Straightened source n inverters rest where
  /-- The nodes that are still to be treated are nodes of the source. -/
  unchanged : ∀ node ∈ rest, node ∈ source.nodes
  origin : ∀ node ∈ n.nodes, (∃ old ∈ source.nodes, StandsFor inverters node old) ∨
    ∃ s, Inverts source node s
  kept : ∀ old ∈ source.nodes, ∃ node ∈ n.nodes, node.id = old.id ∧ node.output = old.output
  inverter : ∀ s i, inverters.find? s = some i →
    ∃ node ∈ n.nodes, node.output = i ∧ Inverts source node s
  single : (n.nodes.map Node.output).Nodup

theorem StandsFor.refl (inverters : Inverters) (node : Node) : StandsFor inverters node node :=
  ⟨rfl, rfl, rfl, List.forall₂_same.2 fun _ _ => .inl rfl⟩

theorem StandsFor.mono (h : StandsFor inverters node old)
    (hknown : ∀ s i, inverters.find? s = some i → inverters'.find? s = some i) :
    StandsFor inverters' node old :=
  ⟨h.id, h.kind, h.output, h.fanins.imp fun _ _ hf => hf.mono hknown⟩

/-- An inverter drives no signal of the source. -/
theorem Inverts.ne_output {s : String} (h : Inverts source node s) (hold : old ∈ source.nodes) :
    node.output ≠ old.output := by
  intro ho
  have hfresh := h.fresh
  rw [ho, isTaken_of_isDefined (isDefined_of_node hold)] at hfresh
  cases hfresh

theorem traced_source (hc : source.Coherent) (hl : source.Legal) :
    Traced source source Table.empty source.nodes where
  toStraightened := straightened_source hc hl
  unchanged _ hnode := hnode
  origin node hnode := .inl ⟨node, hnode, .refl _ node⟩
  kept old hold := ⟨old, hold, rfl, rfl⟩
  inverter _ _ h := by cases h
  single := hl.single

/-! ## Steps of the construction -/

/-- A new inverter has an origin, and the other nodes keep theirs. -/
theorem Traced.newInverter (ht : Traced source n inverters rest) {id : NodeId}
    (hsource : source.isDefined signal = true) (hdef : n.isDefined signal = true)
    (hfind : inverters.find? signal = none)
    (hnew : NewNode n n' ⟨id, .op .not, [.plain signal], inverter⟩ (n.width signal)) :
    Traced source n' (inverters.insert signal inverter) rest := by
  have hknown : ∀ s i, inverters.find? s = some i →
      (inverters.insert signal inverter).find? s = some i := by
    intro s i hi
    rw [Table.find?_insert, if_neg, hi]
    rintro rfl
    rw [hfind] at hi
    cases hi
  have hinverts : Inverts source ⟨id, .op .not, [.plain signal], inverter⟩ signal :=
    ⟨rfl, rfl, hsource, ht.toStraightened.fresh hnew⟩
  refine ⟨ht.toStraightened.newInverter hdef hnew, ht.unchanged, fun node hnode => ?_,
    fun old hold => ?_, fun s i hi => ?_, ?_⟩
  · rcases hnew.mem_nodes.1 hnode with hnode | rfl
    · refine (ht.origin node hnode).imp_left fun ⟨old, hold, hstands⟩ => ?_
      exact ⟨old, hold, hstands.mono hknown⟩
    · exact .inr ⟨signal, hinverts⟩
  · obtain ⟨node, hnode, hsame⟩ := ht.kept old hold
    exact ⟨node, hnew.mem_nodes.2 (.inl hnode), hsame⟩
  · rw [Table.find?_insert] at hi
    split at hi
    · next hs =>
      cases hi
      exact ⟨_, hnew.mem_nodes.2 (.inr rfl), rfl, hs ▸ hinverts⟩
    · obtain ⟨node, hnode, hnode'⟩ := ht.inverter s i hi
      exact ⟨node, hnew.mem_nodes.2 (.inl hnode), hnode'⟩
  · rw [hnew.nodes, List.map_append, List.nodup_append]
    refine ⟨ht.single, List.nodup_singleton _, fun a ha b hb => ?_⟩
    obtain ⟨m, hm, rfl⟩ := List.mem_map.1 ha
    rw [List.mem_singleton.1 hb]
    exact hnew.ne_of_defined (isDefined_of_node hm)

/-- The inverter of a signal of the source can be had at any time. -/
theorem Traced.exists_inverterOf (ht : Traced source n inverters rest)
    (hsource : source.isDefined signal = true) (hdef : n.isDefined signal = true) :
    ∃ n' inverters' inverter, inverterOf n inverters signal = .ok (n', inverters', inverter) ∧
      Traced source n' inverters' rest := by
  cases hfind : inverters.find? signal with
  | some inverter => exact ⟨n, inverters, inverter, by rw [inverterOf, hfind], ht⟩
  | none =>
    have hfree : (n.newSignal "inv" (n.width signal)).1.isDefined
        (n.newSignal "inv" (n.width signal)).2 = false :=
      (not_taken_iff.1 (newSignal_not_taken n "inv" (n.width signal))).2.1
    have harity : ∀ k, (Kind.op .not).arity? = some k → k = [Fanin.plain signal].length :=
      fun _ hk => (Option.some.inj hk).symm
    obtain ⟨n', id, hadd⟩ := addNode_isOk harity hfree
    have hok : inverterOf n inverters signal =
        .ok (n', inverters.insert signal (n.newSignal "inv" (n.width signal)).2,
          (n.newSignal "inv" (n.width signal)).2) := by
      rw [inverterOf, hfind]
      simp only [hadd, bind, Except.bind]
      rfl
    exact ⟨_, _, _, hok, ht.newInverter hsource hdef hfind (newNode_of_addNode hadd)⟩

/-- The fanins of a list of signals of the source can be replaced at any time. -/
theorem Traced.exists_straighten (ht : Traced source n inverters rest)
    (hsource : ∀ f ∈ fanins, source.isDefined f.signal = true)
    (hdef : ∀ f ∈ fanins, n.isDefined f.signal = true) :
    ∃ n' inverters' fanins', straighten fanins n inverters = .ok (n', inverters', fanins') ∧
      Traced source n' inverters' rest := by
  induction fanins generalizing n inverters with
  | nil => exact ⟨n, inverters, [], rfl, ht⟩
  | cons f fanins ih =>
    rw [List.forall_mem_cons] at hsource hdef
    by_cases hinv : f.inverted = true
    · obtain ⟨m, inverters₁, inverter, hfirst, ht₁⟩ := ht.exists_inverterOf hsource.1 hdef.1
      have hgrow := (ht.toStraightened.inverterOf hdef.1 hfirst).2.1
      obtain ⟨n', inverters', tail, htail, ht'⟩ :=
        ih ht₁ hsource.2 fun g hg => hgrow.defined _ (hdef.2 g hg)
      refine ⟨n', inverters', .plain inverter :: tail, ?_, ht'⟩
      rw [straighten, if_pos hinv, hfirst]
      simp only [bind, Except.bind, htail]
      rfl
    · obtain ⟨n', inverters', tail, htail, ht'⟩ := ih ht hsource.2 hdef.2
      refine ⟨n', inverters', f :: tail, ?_, ht'⟩
      rw [straighten, if_neg hinv, htail]
      rfl

/-- A node whose fanins are replaced still stands for itself. -/
theorem Traced.replaceNode (ht : Traced source n inverters (node :: rest))
    (hids : ∀ m ∈ rest, m.id ≠ node.id)
    (hfanins : List.Forall₂ (ReadsLike inverters) node.fanins fanins)
    (h : n.replaceNode node.id node.kind fanins = .ok n') :
    Traced source n' inverters rest := by
  have hs := ht.toStraightened.replaceNode hids hfanins h
  obtain ⟨-, -, rfl⟩ := replaceNode_eq_ok h
  have hmem : node ∈ n.nodes := ht.pending node (.head _)
  have hnode : node ∈ source.nodes := ht.unchanged node (.head _)
  have hupdated := @Coherent.mem_nodes_updateNode _ _ ht.coherent hmem node.kind fanins
  refine ⟨hs, fun m hm => ht.unchanged m (.tail _ hm), fun m hm => ?_, fun old hold => ?_,
    fun s i hi => ?_, ?_⟩
  · rcases hupdated.1 hm with rfl | ⟨hm, -⟩
    · exact .inl ⟨node, hnode, rfl, rfl, rfl, hfanins.imp fun _ _ hf => hf.routed⟩
    · exact ht.origin m hm
  · obtain ⟨m, hm, hid, hout⟩ := ht.kept old hold
    by_cases hsame : m.id = node.id
    · rw [ht.coherent.eq_of_id hm hmem hsame] at hid hout
      exact ⟨_, hupdated.2 (.inl rfl), hid, hout⟩
    · exact ⟨m, hupdated.2 (.inr ⟨hm, hsame⟩), hid, hout⟩
  · obtain ⟨m, hm, hout, hinverts⟩ := ht.inverter s i hi
    refine ⟨m, hupdated.2 (.inr ⟨hm, fun hsame => ?_⟩), hout, hinverts⟩
    exact hinverts.ne_output hnode (congrArg Node.output (ht.coherent.eq_of_id hm hmem hsame))
  · rw [ht.coherent.map_output_updateNode]
    exact ht.single

/-- All nodes can be treated one after the other. -/
theorem Traced.exists_straightenNodes (ht : Traced source n inverters rest)
    (hl : source.Legal) (hids : (rest.map Node.id).Nodup) :
    ∃ n' inverters', straightenNodes rest n inverters = .ok n' ∧
      Traced source n' inverters' [] := by
  induction rest generalizing n inverters with
  | nil => exact ⟨n, inverters, rfl, ht⟩
  | cons node rest ih =>
    rw [List.map_cons, List.nodup_cons] at hids
    have hnode := ht.unchanged node (.head _)
    have hreads := ht.reads node (ht.pending node (.head _))
    obtain ⟨m, inverters₁, fanins, hfanins, ht₁⟩ :=
      ht.exists_straighten (hl.reads node hnode) hreads
    have hlike := (ht.toStraightened.straighten hreads hfanins).2.2
    have harity : checkArity node.id node.kind fanins = .ok () := by
      rw [checkArity_eq_ok_iff, ← hlike.length_eq]
      exact hl.arity node hnode
    have hreplace : m.replaceNode node.id node.kind fanins =
        .ok (m.updateNode node.id node.kind fanins) := by
      rw [Netlist.replaceNode, harity, ht₁.coherent.node?_of_mem (ht₁.pending node (.head _))]
      rfl
    have hother : ∀ k ∈ rest, k.id ≠ node.id :=
      fun k hk hid => hids.1 (hid ▸ List.mem_map_of_mem hk)
    obtain ⟨n', inverters', hrest, ht'⟩ := ih (ht₁.replaceNode hother hlike hreplace) hids.2
    refine ⟨n', inverters', ?_, ht'⟩
    rw [straightenNodes, hfanins]
    simp only [bind, Except.bind, hreplace]
    exact hrest

/-! ## The subject graph -/

/-- Only the stored wires change. -/
theorem Traced.rebuildWires (h : Traced source n inverters []) :
    Traced source n.rebuildWires inverters [] where
  coherent := h.coherent.rebuildWires
  name := h.name
  inputs := h.inputs
  outputs := h.outputs
  width := h.width
  reads := h.reads
  plain := h.plain
  pending := h.pending
  known := h.known
  solves cells given v hv := by
    obtain ⟨v', hv', hrest⟩ := h.solves cells given v hv
    exact ⟨v', ⟨hv'.input, hv'.node⟩, hrest⟩
  unchanged := h.unchanged
  origin := h.origin
  kept := h.kept
  inverter := h.inverter
  single := h.single

/-- A valid netlist has a subject graph, and every node of it has an origin. -/
theorem exists_ofNetlist (hc : source.Coherent) (hvalid : source.validate = .ok ()) :
    ∃ s inverters, ofNetlist source = .ok s ∧ s.fanout = s.netlist.fanout ∧
      Traced source s.netlist inverters [] := by
  have hl := hc.legal_of_validate hvalid
  obtain ⟨n, inverters, hn, ht⟩ :=
    (traced_source hc hl).exists_straightenNodes hl hc.nodeIds_nodup
  refine ⟨⟨n.rebuildWires, n.rebuildWires.fanout⟩, inverters, ?_, rfl, ht.rebuildWires⟩
  rw [ofNetlist, hvalid, hn]
  rfl

theorem Traced.plain_fanin (h : Traced source n inverters []) (hnode : node ∈ n.nodes) {f : Fanin}
    (hf : f ∈ node.fanins) : f.inverted = false :=
  (h.plain node hnode).resolve_left List.not_mem_nil f hf

/-- What a node of the subject graph reads is a signal of the source that its origin reads, or the
inverter of one. -/
theorem StandsFor.fanin (h : StandsFor inverters node old) {g : Fanin} (hg : g ∈ node.fanins) :
    ∃ f ∈ old.fanins, Routed inverters f g :=
  exists_of_forall₂ h.fanins hg

/-- Ranks of the source, spread so that the inverter of a signal fits above it. -/
def spread (source n : Netlist) (rank : String → Nat) (signal : String) : Nat :=
  if source.isTaken signal then 2 * rank signal
  else 2 * total (((n.driverNode? signal).elim [] Node.faninSignals).map rank) + 1

theorem spread_of_isTaken {rank : String → Nat} (h : source.isTaken signal = true) :
    spread source n rank signal = 2 * rank signal :=
  if_pos h

theorem Traced.spread_inverter (h : Traced source n inverters []) (hnode : node ∈ n.nodes)
    (hinverts : Inverts source node signal) (rank : String → Nat) :
    spread source n rank node.output = 2 * rank signal + 1 := by
  rw [spread, hinverts.fresh, if_neg Bool.false_ne_true, driverNode?_of_mem h.single hnode]
  simp [Node.faninSignals, hinverts.fanins, Fanin.plain, total]

theorem Traced.acyclic (h : Traced source n inverters []) (hl : source.Legal) : n.Acyclic := by
  obtain ⟨rank, hrank⟩ := hl.acyclic.ranked
  have hranked : n.Ranked (spread source n rank) := by
    intro node hnode g hg
    rcases h.origin node hnode with ⟨old, hold, hstands⟩ | ⟨s, hinverts⟩
    · rw [hstands.output, spread_of_isTaken (isTaken_of_isDefined (isDefined_of_node hold))]
      obtain ⟨f, hf, rfl | ⟨i, hi, rfl⟩⟩ := hstands.fanin hg
      · have hlt := hrank old hold g hf
        rw [spread_of_isTaken (isTaken_of_isDefined (hl.reads old hold g hf))]
        omega
      · obtain ⟨m, hm, rfl, hinverts⟩ := h.inverter _ _ hi
        have hlt := hrank old hold f hf
        rw [Fanin.plain, h.spread_inverter hm hinverts]
        omega
    · rw [hinverts.fanins, List.mem_singleton] at hg
      rw [hg, Fanin.plain, h.spread_inverter hnode hinverts,
        spread_of_isTaken (isTaken_of_isDefined hinverts.defined)]
      omega
  exact hranked.acyclic

/-- The subject graph of a legal netlist is legal. -/
theorem Traced.legal (h : Traced source n inverters []) (hl : source.Legal) : n.Legal where
  arity node hnode k hk := by
    rcases h.origin node hnode with ⟨old, hold, hstands⟩ | ⟨s, hinverts⟩
    · rw [← hstands.fanins.length_eq]
      exact hl.arity old hold k (hstands.kind ▸ hk)
    · rw [hinverts.kind] at hk
      rw [hinverts.fanins]
      exact (Option.some.inj hk).symm
  reads := h.reads
  single := h.single
  undriven node hnode hin := by
    rw [h.inputs] at hin
    rcases h.origin node hnode with ⟨old, hold, hstands⟩ | ⟨s, hinverts⟩
    · exact hl.undriven old hold (hstands.output ▸ hin)
    · have hfresh := hinverts.fresh
      rw [isTaken_of_isDefined (isDefined_of_input hin)] at hfresh
      cases hfresh
  driven output ho := by
    rw [h.outputs] at ho
    rcases isDefined_iff.1 (hl.driven output ho) with ⟨old, hold, rfl⟩ | hin
    · obtain ⟨node, hnode, -, hout⟩ := h.kept old hold
      exact hout ▸ isDefined_of_node hnode
    · exact isDefined_of_input (h.inputs ▸ hin)
  acyclic := h.acyclic hl

/-- A node that drives a signal of the source stands for a node of the source, and what drives the
signal there is the latter. -/
theorem Traced.standsFor_of_defined (h : Traced source n inverters rest) (hl : source.Legal)
    (hnode : node ∈ n.nodes) (hs : source.isDefined node.output = true) :
    ∃ old ∈ source.nodes, StandsFor inverters node old ∧
      source.driver? node.output = some old.id := by
  rcases h.origin node hnode with ⟨old, hold, hstands⟩ | ⟨s, hinverts⟩
  · refine ⟨old, hold, hstands, ?_⟩
    rw [hstands.output]
    exact driver?_of_mem hl.single hold
  · have hfresh := hinverts.fresh
    rw [isTaken_of_isDefined hs] at hfresh
    cases hfresh

/-- A node in the cone of the subject graph stands for a node in the cone of the source, or inverts
a signal that such a node reads. -/
theorem Traced.cone (h : Traced source n inverters []) (hl : source.Legal) {id : NodeId}
    (hcone : n.Cone id) : ∀ node ∈ n.nodes, node.id = id →
      (∃ old ∈ source.nodes, StandsFor inverters node old ∧ source.Cone old.id) ∨
        ∃ s, Inverts source node s ∧ ∃ old ∈ source.nodes, source.Cone old.id ∧ Reads old s := by
  induction hcone with
  | @output o d ho hd =>
    intro node hnode hid
    obtain ⟨m, hm, rfl, hid'⟩ := driver?_eq_some hd
    obtain rfl := h.coherent.eq_of_id hnode hm (hid.trans hid'.symm)
    rw [h.outputs] at ho
    obtain ⟨old, hold, hstands, hdriver⟩ := h.standsFor_of_defined hl hnode (hl.driven _ ho)
    exact .inl ⟨old, hold, hstands, .output ho hdriver⟩
  | @fanin reader g d hreader _ hg hd ih =>
    intro node hnode hid
    obtain ⟨m, hm, hout, hid'⟩ := driver?_eq_some hd
    obtain rfl := h.coherent.eq_of_id hnode hm (hid.trans hid'.symm)
    rcases ih reader hreader rfl with
      ⟨old, hold, hstands, hcone⟩ | ⟨s, hinverts, old, hold, hcone, f, hf, rfl⟩
    · obtain ⟨f, hf, hrouted⟩ := hstands.fanin hg
      rcases hrouted with rfl | ⟨i, hi, rfl⟩
      · have hdefined := hl.reads old hold g hf
        rw [← hout] at hdefined
        obtain ⟨old', hold', hstands', hdriver⟩ := h.standsFor_of_defined hl hnode hdefined
        exact .inl ⟨old', hold', hstands', .fanin hold hcone hf (hout ▸ hdriver)⟩
      · obtain ⟨m, hm, hmout, hinverts⟩ := h.inverter _ _ hi
        obtain rfl := List.inj_on_of_nodup_map h.single hm hnode (hmout.trans hout.symm)
        exact .inr ⟨f.signal, hinverts, old, hold, hcone, f, hf, rfl⟩
    · rw [hinverts.fanins, List.mem_singleton] at hg
      subst hg
      have hdefined : source.isDefined node.output = true := hout ▸ hinverts.defined
      obtain ⟨old', hold', hstands', hdriver⟩ := h.standsFor_of_defined hl hnode hdefined
      exact .inl ⟨old', hold', hstands', .fanin hold hcone hf (hout ▸ hdriver)⟩

/-- What matching relies on in a subject graph. -/
structure WellFormed (s : Subject) : Prop where
  coherent : s.netlist.Coherent
  legal : s.netlist.Legal
  plain : ∀ node ∈ s.netlist.nodes, ∀ f ∈ node.fanins, f.inverted = false
  /-- The readers are those of the netlist. -/
  fanout : s.fanout = s.netlist.fanout

theorem Traced.wellFormed {s : Subject} (h : Traced source s.netlist inverters [])
    (hl : source.Legal) (hfanout : s.fanout = s.netlist.fanout) : s.WellFormed :=
  ⟨h.coherent, h.legal hl, fun _ hnode _ hf => h.plain_fanin hnode hf, hfanout⟩

/-- The subject graphs of netlists are well-formed. -/
theorem wellFormed_of_ofNetlist {s : Subject} (hc : source.Coherent)
    (h : ofNetlist source = .ok s) : s.WellFormed := by
  have hvalid := (straightened_of_ofNetlist hc h).1
  obtain ⟨s', inverters, hs', hfanout, ht⟩ := exists_ofNetlist hc hvalid
  rw [h] at hs'
  cases hs'
  exact ht.wellFormed (hc.legal_of_validate hvalid) hfanout

/-- A signal that a cell may absorb is driven by a node. -/
theorem exists_driver {s : Subject} {x : String} (h : s.isAbsorbable x = true) :
    ∃ d ∈ s.netlist.nodes, d.output = x := by
  rw [isAbsorbable, Bool.and_eq_true, Option.isSome_iff_exists] at h
  obtain ⟨⟨id, hid⟩, -⟩ := h
  obtain ⟨d, hd, ho, -⟩ := driver?_eq_some hid
  exact ⟨d, hd, ho⟩

namespace WellFormed

variable {s : Subject}

/-- A signal that a cell may absorb has one reader. -/
theorem exists_reader (hs : s.WellFormed) {x : String} (h : s.isAbsorbable x = true) :
    ∃ r ∈ s.netlist.nodes, s.fanout.singleConsumer? x = some r.id ∧ Reads r x := by
  rw [isAbsorbable, Bool.and_eq_true, Option.isSome_iff_exists, Option.isSome_iff_exists] at h
  obtain ⟨-, id, hid⟩ := h
  obtain ⟨-, -, r, hr, rfl, hreads⟩ := singleConsumer?_eq_some (hs.fanout ▸ hid)
  exact ⟨r, hr, hid, hreads⟩

/-- A node that reads a signal that a cell may absorb is its only reader. -/
theorem eq_reader (hs : s.WellFormed) {x : String} {r : NodeId} {node : Node}
    (h : s.fanout.singleConsumer? x = some r) (hnode : node ∈ s.netlist.nodes)
    (hreads : Reads node x) : node.id = r := by
  have hcount := count_faninSignals_le hnode (hs.fanout ▸ h)
  have hpos : 0 < node.faninSignals.count x := List.count_pos_iff.2 (reads_iff.1 hreads)
  by_contra hne
  rw [if_neg hne] at hcount
  omega

/-- A primary output is not absorbed. -/
theorem not_absorbable_of_output (hs : s.WellFormed) {x : String} (h : x ∈ s.netlist.outputs) :
    s.isAbsorbable x = false := by
  rw [← Bool.not_eq_true]
  intro habsorb
  obtain ⟨r, -, hr, -⟩ := hs.exists_reader habsorb
  exact (singleConsumer?_eq_some (hs.fanout ▸ hr)).2.1 h

theorem driver?_output (hs : s.WellFormed) {node : Node} (hnode : node ∈ s.netlist.nodes) :
    s.netlist.driver? node.output = some node.id :=
  driver?_of_mem hs.legal.single hnode

end WellFormed

end Subject

end GateSynth
