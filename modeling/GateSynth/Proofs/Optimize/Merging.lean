import GateSynth.Proofs.Netlist.Substitution
import GateSynth.Proofs.Optimize.MergingEnds
import GateSynth.Proofs.Optimize.Weights

/-!
# Merged nodes

A sweep keeps a netlist and a substitution that belong together: read through the substitution, the
netlist has all that it needs (`Reduced`). A visit drops a node whose readers find the other one
instead, or it makes a buffer between two outputs (`Reduced.drop`, `Reduced.buffer`). That no loop
comes of a merge with a later node is seen from the signatures: a node that takes the place of its
representative reads the same signals, so it can take its rank as well (`Sweep.Sound`).

Merging succeeds and keeps the netlist in order, and unless there are twins among the outputs every
merge makes it lighter (`mergeEqual_swept`).
-/

namespace GateSynth

open Netlist

namespace Merging

variable {n N : Netlist} {sub : Substitution} {node rep : Node} {rank : String → Nat}

/-! ## Netlists read through a substitution -/

/-- The netlist has all that it needs when it is read through the substitution. -/
structure Reduced (n N : Netlist) (sub : Substitution) : Prop where
  coherent : N.Coherent
  name : N.name = n.name
  inputs : N.inputs = n.inputs
  outputs : N.outputs = n.outputs
  short : Short n.outputs sub
  /-- Merged signals were driven by a node. -/
  keys : ∀ {key f}, sub.find? key = some f → ∃ m ∈ n.nodes, m.output = key
  /-- Merged signals are driven no longer. -/
  gone : ∀ m ∈ N.nodes, sub.find? m.output = none
  width : ∀ s, sub.find? s = none → N.width s = n.width s
  signals : (N.nodes.map Node.output).Sublist (n.nodes.map Node.output)
  arity : ∀ m ∈ N.nodes, ∀ k, m.kind.arity? = some k → k = m.fanins.length
  reads : ∀ m ∈ N.nodes, ∀ f ∈ m.fanins, N.isDefined (target sub f.signal) = true
  driven : ∀ o ∈ n.outputs, N.isDefined o = true

/-- The rank grows along every fanin that is read through the substitution. -/
def RankedThrough (N : Netlist) (sub : Substitution) (rank : String → Nat) : Prop :=
  ∀ m ∈ N.nodes, ∀ f ∈ m.fanins, rank (target sub f.signal) < rank m.output

namespace Reduced

theorem start (hc : n.Coherent) (hl : n.Legal) : Reduced n n Table.empty :=
  ⟨hc, rfl, rfl, rfl, .empty, fun h => (by cases h), fun _ _ => rfl, fun _ _ => rfl,
    .refl _, hl.arity, hl.reads, hl.driven⟩

theorem single (h : Reduced n N sub) (hl : n.Legal) : (N.nodes.map Node.output).Nodup :=
  hl.single.sublist h.signals

theorem mem_signals (h : Reduced n N sub) (hm : node ∈ N.nodes) :
    ∃ m ∈ n.nodes, m.output = node.output :=
  List.mem_map.1 (h.signals.subset (List.mem_map_of_mem hm))

theorem redirectFanin_eq (h : Reduced n N sub) : redirectFanin sub = retarget sub :=
  funext fun f => h.short.follow (Nat.le_succ _) f

/-- Redirection reads every fanin through the substitution. -/
theorem nodes_redirect (h : Reduced n N sub) : (N.redirect sub).1.nodes =
    N.nodes.map fun m => { m with fanins := m.fanins.map (retarget sub) } := by
  rw [Netlist.nodes_redirect, h.redirectFanin_eq]

/-- Once every fanin is redirected, the netlist is in order again. -/
theorem legal (h : Reduced n N sub) (hl : n.Legal) (hrank : RankedThrough N sub rank) :
    (N.redirect sub).1.Legal := by
  have hnodes := h.nodes_redirect
  have hsame : (N.redirect sub).1.nodes.map Node.output = N.nodes.map Node.output := by
    rw [hnodes, List.map_map]
    rfl
  have hdefined : ∀ s, (N.redirect sub).1.isDefined s = N.isDefined s :=
    isDefined_congr hsame rfl
  constructor
  case arity =>
    intro m hm k hk
    rw [hnodes] at hm
    obtain ⟨old, hold, rfl⟩ := List.mem_map.1 hm
    rw [h.arity old hold k hk, List.length_map]
  case reads =>
    intro m hm f hf
    rw [hnodes] at hm
    obtain ⟨old, hold, rfl⟩ := List.mem_map.1 hm
    obtain ⟨g, hg, rfl⟩ := List.mem_map.1 hf
    rw [hdefined]
    exact h.reads old hold g hg
  case single =>
    rw [hsame]
    exact h.single hl
  case undriven =>
    intro m hm
    rw [hnodes] at hm
    obtain ⟨old, hold, rfl⟩ := List.mem_map.1 hm
    obtain ⟨m, hm, ho⟩ := h.mem_signals hold
    show old.output ∉ N.inputs
    rw [h.inputs, ← ho]
    exact hl.undriven m hm
  case driven =>
    intro o ho
    rw [hdefined]
    exact h.driven o (h.outputs ▸ ho)
  case acyclic =>
    have hranked : (N.redirect sub).1.Ranked rank := by
      intro m hm f hf
      rw [hnodes] at hm
      obtain ⟨old, hold, rfl⟩ := List.mem_map.1 hm
      obtain ⟨g, hg, rfl⟩ := List.mem_map.1 hf
      exact hrank old hold g hg
    exact hranked.acyclic

theorem preserved (h : Reduced n N sub) (hl : n.Legal) (hrank : RankedThrough N sub rank) :
    Preserved n (N.redirect sub).1 := by
  refine ⟨h.coherent.redirect sub, h.legal hl hrank, h.name, h.inputs, h.outputs,
    fun port hport => h.width port ?_, ?_⟩
  · rcases hport with hin | hout
    · cases hfind : sub.find? port with
      | none => rfl
      | some f =>
        obtain ⟨m, hm, rfl⟩ := h.keys hfind
        exact absurd hin (hl.undriven m hm)
    · exact h.short.find?_port hout
  · have hlength := h.signals.length_le
    rw [List.length_map, List.length_map] at hlength
    rw [nodeCount, h.nodes_redirect, List.length_map]
    exact hlength

/-- Reads of a dropped node find the node that is kept. -/
theorem drop (h : Reduced n N sub) (hl : n.Legal) {dropped kept : Node} (hd : dropped ∈ N.nodes)
    (hk : kept ∈ N.nodes) (he : Short.Extendable n.outputs sub dropped.output kept.output) :
    Reduced n (dropNode N dropped.id dropped.output) (sub.insert dropped.output (.plain kept.output)) := by
  have hwithout : Without N (dropNode N dropped.id dropped.output) [dropped.id] :=
    (Without.refl h.coherent).drop hd
  have hmem : ∀ {m}, m ∈ (dropNode N dropped.id dropped.output).nodes ↔ m ∈ N.nodes ∧ m.output ≠ dropped.output := by
    intro m
    rw [hwithout.mem_nodes, List.mem_singleton]
    refine and_congr_right fun hm => not_congr ⟨fun hid => ?_, fun ho => ?_⟩
    · rw [h.coherent.eq_of_id hm hd hid]
    · rw [List.inj_on_of_nodup_map (h.single hl) hm hd ho]
  have hdefined : ∀ s, N.isDefined s = true → s ≠ dropped.output →
      (dropNode N dropped.id dropped.output).isDefined s = true := by
    intro s hs hne
    rcases isDefined_iff.1 hs with ⟨m, hm, rfl⟩ | hin
    · exact isDefined_of_node (hmem.2 ⟨hm, hne⟩)
    · exact isDefined_of_input (hwithout.inputs ▸ hin)
  constructor
  case coherent => exact hwithout.coherent
  case name => exact hwithout.name.trans h.name
  case inputs => exact hwithout.inputs.trans h.inputs
  case outputs => exact hwithout.outputs.trans h.outputs
  case short => exact h.short.insert he
  case keys =>
    intro key f hkey
    rw [Table.find?_insert] at hkey
    split at hkey
    · next heq => exact heq ▸ h.mem_signals hd
    · exact h.keys hkey
  case gone =>
    intro m hm
    obtain ⟨hm, hne⟩ := hmem.1 hm
    rw [Table.find?_insert, if_neg hne]
    exact h.gone m hm
  case width =>
    intro s hs
    rw [Table.find?_insert] at hs
    split at hs
    · cases hs
    · next hne =>
      rw [hwithout.width s fun m hm hid ho => ?_, h.width s hs]
      rw [h.coherent.eq_of_id hm hd (List.mem_singleton.1 hid)] at ho
      exact hne ho.symm
  case signals =>
    refine .trans ?_ h.signals
    rw [hwithout.nodes]
    exact List.filter_sublist.map _
  case arity => exact fun m hm => h.arity m (hmem.1 hm).1
  case reads =>
    intro m hm f hf
    have hread := h.reads m (hmem.1 hm).1 f hf
    rw [h.short.target_insert he]
    split
    · exact hdefined _ (isDefined_of_node hk) he.ne
    · next hne => exact hdefined _ hread hne
  case driven =>
    intro o ho
    exact hdefined o (h.driven o ho) fun heq => he.key_free (heq ▸ ho)

/-- A node may become a buffer of another. -/
theorem buffer (h : Reduced n N sub) (hm : node ∈ N.nodes) (hr : rep ∈ N.nodes) :
    Reduced n (N.updateNode node.id (.op .buf) [.plain rep.output]) sub := by
  have hc := h.coherent
  have hmem : ∀ m, m ∈ (N.updateNode node.id (.op .buf) [.plain rep.output]).nodes ↔
      m = { node with kind := .op .buf, fanins := [.plain rep.output] } ∨
        m ∈ N.nodes ∧ m.id ≠ node.id := fun m => hc.mem_nodes_updateNode hm
  have hdefined := hc.isDefined_updateNode node.id (.op .buf) [.plain rep.output]
  constructor
  case coherent => exact hc.updateNode _ _ _
  case name => exact h.name
  case inputs => exact h.inputs
  case outputs => exact h.outputs
  case short => exact h.short
  case keys => exact h.keys
  case gone =>
    intro m hm'
    rcases (hmem m).1 hm' with rfl | ⟨hold, -⟩
    · exact h.gone node hm
    · exact h.gone m hold
  case width => exact h.width
  case signals =>
    rw [hc.map_output_updateNode]
    exact h.signals
  case arity =>
    intro m hm'
    rcases (hmem m).1 hm' with rfl | ⟨hold, -⟩
    · intro k hk
      cases hk
      rfl
    · exact h.arity m hold
  case reads =>
    intro m hm' f hf
    rw [hdefined]
    rcases (hmem m).1 hm' with rfl | ⟨hold, -⟩
    · rw [List.mem_singleton.1 hf, Fanin.plain, target_of_none (h.gone rep hr)]
      exact isDefined_of_node hr
    · exact h.reads m hold f hf
  case driven =>
    intro o ho
    rw [hdefined]
    exact h.driven o ho

end Reduced

theorem mem_dropNode (hc : N.Coherent) (hm : node ∈ N.nodes) {m : Node} :
    m ∈ (dropNode N node.id node.output).nodes ↔ m ∈ N.nodes ∧ m.id ≠ node.id := by
  have hwithout : Without N (dropNode N node.id node.output) [node.id] := (Without.refl hc).drop hm
  rw [hwithout.mem_nodes, List.mem_singleton]

/-! ## Signatures -/

/-- Equal signatures read the same fanins, in some order. -/
theorem Signature.of_inj {kind kind' : Kind} {fanins fanins' : List Fanin} {w w' : Width}
    (h : Signature.of kind fanins w = Signature.of kind' fanins' w') :
    kind = kind' ∧ fanins.Perm fanins' ∧ w = w' := by
  simp only [Signature.of, Signature.mk.injEq] at h
  obtain ⟨rfl, hfanins, rfl⟩ := h
  refine ⟨rfl, ?_, rfl⟩
  split at hfanins
  · have hsorted := List.mergeSort_perm fanins' Fanin.le
    rw [← hfanins] at hsorted
    exact (List.mergeSort_perm fanins Fanin.le).symm.trans hsorted
  · exact hfanins ▸ .refl _

theorem map_resolve {ports : List String} (h : Short ports sub) (fanins : List Fanin) :
    fanins.map (resolve sub) = fanins.map (retarget sub) :=
  List.map_congr_left fun f _ => h.follow (Nat.le_refl _) f

/-- What ends alike still ends alike behind a further entry. -/
theorem map_retarget_insert {ports : List String} (h : Short ports sub) {key goal : String}
    (he : Short.Extendable ports sub key goal) {xs ys : List Fanin}
    (heq : xs.map (retarget sub) = ys.map (retarget sub)) :
    xs.map (retarget (sub.insert key (.plain goal))) =
      ys.map (retarget (sub.insert key (.plain goal))) := by
  have hmove : retarget (sub.insert key (.plain goal)) =
      (fun g : Fanin => ⟨if g.signal = key then goal else g.signal, g.inverted⟩) ∘
        retarget sub := by
    funext f
    rw [Function.comp_apply, retarget, h.target_insert he]
    rfl
  rw [hmove, ← List.map_map, heq, List.map_map]

/-- A node that reads below another one can take its readers over together with its rank. -/
theorem RankedThrough.exchange {ports : List String} {N' : Netlist} {old new : Node}
    (hrank : RankedThrough N sub rank) (hshort : Short ports sub)
    (he : Short.Extendable ports sub old.output new.output)
    (hsub : ∀ m ∈ N'.nodes, m ∈ N.nodes) (hsingle : (N.nodes.map Node.output).Nodup)
    (hnew : new ∈ N.nodes) (hlt : rank old.output < rank new.output)
    (hbelow : ∀ f ∈ new.fanins, rank (target sub f.signal) < rank old.output) :
    RankedThrough N' (sub.insert old.output (.plain new.output))
      (Function.update rank new.output (rank old.output)) := by
  intro m hm f hf
  have hdrop : Function.update rank new.output (rank old.output)
      (target (sub.insert old.output (.plain new.output)) f.signal) ≤
        rank (target sub f.signal) := by
    rw [hshort.target_insert he]
    split
    · next hold => rw [Function.update_self, hold]
    · by_cases hnt : target sub f.signal = new.output
      · rw [hnt, Function.update_self]
        exact hlt.le
      · rw [Function.update_of_ne hnt]
  refine Nat.lt_of_le_of_lt hdrop ?_
  by_cases hmn : m.output = new.output
  · rw [List.inj_on_of_nodup_map hsingle (hsub m hm) hnew hmn] at hf
    rw [hmn, Function.update_self]
    exact hbelow f hf
  · rw [Function.update_of_ne hmn]
    exact hrank m (hsub m hm) f hf

/-! ## Sweeps -/

/-- The signature under which a visit looks up a node. -/
def Sweep.signature (s : Sweep) (node : Node) : Signature :=
  Signature.of node.kind (node.fanins.map (resolve s.substitution)) (s.netlist.width node.output)

/-- The node is there and stands for the signature. -/
structure Sweep.Represents (s : Sweep) (signature : Signature) (rep : Node) : Prop where
  found : s.representatives.find? signature = some rep.id
  there : rep ∈ s.netlist.nodes

/-- What a visit does that does not fail. -/
inductive Sweep.Step (s : Sweep) (id : NodeId) : Sweep → Prop
  | skip (hnone : ∀ node, s.netlist.node? id = some node → isMergeable s.netlist node = false) :
      Step s id s
  | store {node : Node} (hnode : s.netlist.node? id = some node)
      (hmergeable : isMergeable s.netlist node = true)
      (hfind : s.representatives.find? (s.signature node) = none) :
      Step s id { s with representatives := s.representatives.insert (s.signature node) node.id }
  | mergeNode {node rep : Node} (hnode : s.netlist.node? id = some node)
      (hmergeable : isMergeable s.netlist node = true)
      (hfind : s.Represents (s.signature node) rep)
      (hport : node.output ∉ s.netlist.outputs) :
      Step s id { s with
        netlist := dropNode s.netlist node.id node.output
        substitution := s.substitution.insert node.output (.plain rep.output)
        merged := s.merged + 1 }
  | mergeRep {node rep : Node} (hnode : s.netlist.node? id = some node)
      (hmergeable : isMergeable s.netlist node = true)
      (hfind : s.Represents (s.signature node) rep)
      (hport : node.output ∈ s.netlist.outputs) (hfree : rep.output ∉ s.netlist.outputs) :
      Step s id { s with
        netlist := dropNode s.netlist rep.id rep.output
        representatives := s.representatives.insert (s.signature node) node.id
        substitution := s.substitution.insert rep.output (.plain node.output)
        merged := s.merged + 1 }
  | mergePorts {node rep : Node} (hnode : s.netlist.node? id = some node)
      (hmergeable : isMergeable s.netlist node = true)
      (hfind : s.Represents (s.signature node) rep)
      (hport : node.output ∈ s.netlist.outputs) (hports : rep.output ∈ s.netlist.outputs) :
      Step s id { s with
        netlist := s.netlist.updateNode node.id (.op .buf) [.plain rep.output]
        merged := s.merged + 1 }

/-- Where the node that stands for the signature is there, merging with it succeeds. -/
theorem Sweep.merge_step {s : Sweep} (hc : s.netlist.Coherent) {id : NodeId}
    (hnode : s.netlist.node? id = some node) (hmergeable : isMergeable s.netlist node = true)
    (hfind : s.Represents (s.signature node) rep) :
    ∃ s', s.merge (s.signature node) rep.id id node = .ok s' ∧ s.Step id s' := by
  obtain ⟨-, rfl⟩ := hc.node?_eq_some_iff.1 hnode
  have hrep := hc.node?_of_mem hfind.there
  by_cases hport : s.netlist.isOutput node.output = true
  · by_cases hports : s.netlist.isOutput rep.output = true
    · refine ⟨_, ?_, .mergePorts hnode hmergeable hfind (isOutput_iff.1 hport)
        (isOutput_iff.1 hports)⟩
      simp [merge, hrep, hport, hports, replaceNode_buf hnode]
    · refine ⟨_, ?_, .mergeRep hnode hmergeable hfind (isOutput_iff.1 hport)
        (mt isOutput_iff.2 hports)⟩
      simp [merge, hrep, hport, hports]
  · refine ⟨_, ?_, .mergeNode hnode hmergeable hfind (mt isOutput_iff.2 hport)⟩
    simp [merge, hrep, hport]

/-- Where the nodes that stand for signatures are there, a visit succeeds. -/
theorem Sweep.visit_step {s : Sweep} (hc : s.netlist.Coherent)
    (hthere : ∀ {sig place}, s.representatives.find? sig = some place →
      ∃ rep, rep.id = place ∧ s.Represents sig rep) (id : NodeId) :
    ∃ s', s.visit id = .ok s' ∧ s.Step id s' := by
  unfold Sweep.visit
  split
  · next hnone => exact ⟨s, rfl, .skip fun node h => by rw [hnone] at h; cases h⟩
  · next node hnode =>
    dsimp only
    rw [← Sweep.signature]
    split
    · next hmergeable =>
      split
      · next place hfind =>
        obtain ⟨rep, rfl, hrep⟩ := hthere hfind
        exact Sweep.merge_step hc hnode hmergeable hrep
      · next hfind =>
        obtain ⟨-, rfl⟩ := hc.node?_eq_some_iff.1 hnode
        exact ⟨_, rfl, .store hnode hmergeable hfind⟩
    · next hmergeable =>
      refine ⟨s, rfl, .skip fun m h => ?_⟩
      rw [hnode] at h
      cases h
      exact Bool.eq_false_iff.2 hmergeable

/-- What holds during a sweep that has visited the nodes of `before` and not those of `after`. -/
structure Sweep.Sound (n : Netlist) (order before after : List NodeId) (s : Sweep) : Prop where
  reduced : Reduced n s.netlist s.substitution
  untouched : ∀ m : Node, m.id ∈ after → (m ∈ s.netlist.nodes ↔ m ∈ n.nodes)
  /-- Merged signals lead to visited nodes. -/
  behind : ∀ {key f}, s.substitution.find? key = some f →
    ∀ m ∈ n.nodes, m.id ∈ after → f.signal ≠ m.output
  /-- A representative is there and has been visited, and its signature is its own. -/
  stored : ∀ {sig place}, s.representatives.find? sig = some place →
    ∃ rep ∈ s.netlist.nodes, rep.id = place ∧ rep.id ∈ before ∧
      ∃ fanins, sig = Signature.of rep.kind fanins (n.width rep.output) ∧
        fanins.map (retarget s.substitution) = rep.fanins.map (retarget s.substitution)
  distinct : ∀ {sig sig' place}, s.representatives.find? sig = some place →
    s.representatives.find? sig' = some place → sig = sig'
  /-- No rank is above the place in the order, and a node has its place as rank until it is
  visited. -/
  ranked : ∃ rank, RankedThrough s.netlist s.substitution rank ∧
    (∀ m ∈ s.netlist.nodes, rank m.output ≤ order.idxOf m.id + 1) ∧
    ∀ m ∈ s.netlist.nodes, m.id ∈ after → rank m.output = order.idxOf m.id + 1

namespace Sweep

section Visit
variable {order before after : List NodeId} {s : Sweep} {sig : Signature}

theorem Sound.skip {id : NodeId} (h : s.Sound n order before (id :: after)) :
    s.Sound n order (before ++ [id]) after := by
  obtain ⟨rank, hrank, hle, heq⟩ := h.ranked
  refine ⟨h.reduced, fun m hm => h.untouched m (.tail _ hm),
    fun hfind m hm hid => h.behind hfind m hm (.tail _ hid), fun hfind => ?_, h.distinct,
    rank, hrank, hle, fun m hm hid => heq m hm (.tail _ hid)⟩
  obtain ⟨rep, hmem, hid, hbefore, hfanins⟩ := h.stored hfind
  exact ⟨rep, hmem, hid, List.mem_append_left _ hbefore, hfanins⟩

/-- What is looked up is found. -/
theorem Sound.represents {order before after : List NodeId} {s : Sweep} {sig : Signature}
    {place : NodeId} (h : s.Sound n order before after)
    (hfind : s.representatives.find? sig = some place) :
    ∃ rep, rep.id = place ∧ s.Represents sig rep := by
  obtain ⟨rep, hmem, rfl, -⟩ := h.stored hfind
  exact ⟨rep, rfl, hfind, hmem⟩

theorem Sound.of_represents {order before after : List NodeId} {s : Sweep} {sig : Signature}
    (h : s.Sound n order before after) (hrep : s.Represents sig rep) :
    rep ∈ s.netlist.nodes ∧ rep.id ∈ before ∧
      ∃ fanins, sig = Signature.of rep.kind fanins (n.width rep.output) ∧
        fanins.map (retarget s.substitution) = rep.fanins.map (retarget s.substitution) := by
  obtain ⟨m, hmem, hid, hbefore, hfanins⟩ := h.stored hrep.found
  obtain rfl := h.reduced.coherent.eq_of_id hmem hrep.there hid
  exact ⟨hmem, hbefore, hfanins⟩

variable (hl : n.Legal) (hnodup : order.Nodup) (horder : order = before ++ node.id :: after)
  (h : s.Sound n order before (node.id :: after)) (hm : node ∈ s.netlist.nodes)

include hnodup horder in
theorem not_before : node.id ∉ before := by
  intro hmem
  rw [horder, List.nodup_append] at hnodup
  exact hnodup.2.2 _ hmem _ (.head _) rfl

include hnodup horder in
theorem not_after {id : NodeId} (hid : id ∈ before ++ [node.id]) : id ∉ after := by
  intro hafter
  rw [horder, List.nodup_append, List.nodup_cons] at hnodup
  rcases List.mem_append.1 hid with hid | hid
  · exact hnodup.2.2 _ hid _ (.tail _ hafter) rfl
  · rw [List.mem_singleton.1 hid] at hafter
    exact hnodup.2.1.1 hafter

include hnodup horder in
theorem idxOf_lt {id : NodeId} (hid : id ∈ before) : order.idxOf id < order.idxOf node.id := by
  rw [horder, List.idxOf_append_of_mem hid,
    List.idxOf_append_of_notMem (not_before hnodup horder)]
  exact Nat.lt_of_lt_of_le (List.idxOf_lt_length_of_mem hid) (Nat.le_add_right _ _)

/-- The signature under which a node is looked up is its own. -/
theorem Sound.signature (hred : Reduced n s.netlist s.substitution) (hm : node ∈ s.netlist.nodes) :
    ∃ fanins, s.signature node = Signature.of node.kind fanins (n.width node.output) ∧
      fanins.map (retarget s.substitution) = node.fanins.map (retarget s.substitution) := by
  refine ⟨node.fanins.map (retarget s.substitution), ?_, ?_⟩
  · rw [Sweep.signature, map_resolve hred.short, hred.width _ (hred.gone node hm)]
  · rw [List.map_map]
    exact List.map_congr_left fun f _ => hred.short.retarget_retarget f

include hnodup horder h in
/-- A node that is only now visited represents no other signature. -/
theorem Sound.distinct_insert {sig₁ sig₂ : Signature} {found : NodeId}
    (h₁ : (s.representatives.insert sig node.id).find? sig₁ = some found)
    (h₂ : (s.representatives.insert sig node.id).find? sig₂ = some found) : sig₁ = sig₂ := by
  have hnew : ∀ {sig'}, s.representatives.find? sig' ≠ some node.id := by
    intro sig' hfind
    obtain ⟨m, -, hid, hbefore, -⟩ := h.stored hfind
    exact not_before hnodup horder (hid ▸ hbefore)
  rw [Table.find?_insert] at h₁ h₂
  split at h₁ <;> split at h₂
  · next e₁ e₂ => exact e₁.trans e₂.symm
  · cases h₁
    exact absurd h₂ hnew
  · cases h₂
    exact absurd h₁ hnew
  · exact h.distinct h₁ h₂

include hnodup horder h hm in
theorem Sound.store :
    Sound n order (before ++ [node.id]) after
      { s with representatives := s.representatives.insert (s.signature node) node.id } := by
  have hskip := h.skip
  refine ⟨hskip.reduced, hskip.untouched, hskip.behind, fun {sig' place} hfind => ?_,
    h.distinct_insert hnodup horder, hskip.ranked⟩
  rw [Table.find?_insert] at hfind
  split at hfind
  · next heq =>
    cases hfind
    obtain ⟨fanins, hown, hmap⟩ := Sound.signature h.reduced hm
    exact ⟨node, hm, rfl, List.mem_append_right _ (.head _), fanins, heq.trans hown, hmap⟩
  · exact hskip.stored hfind

include hnodup horder h in
/-- Dropping a node that has been visited leaves those that have not been as they are. -/
theorem Sound.untouched_drop {gone m : Node} (hgone : gone ∈ s.netlist.nodes)
    (hvisited : gone.id ∈ before ++ [node.id]) (hid : m.id ∈ after) :
    m ∈ (dropNode s.netlist gone.id gone.output).nodes ↔ m ∈ n.nodes := by
  rw [mem_dropNode h.reduced.coherent hgone, h.untouched m (.tail _ hid)]
  refine and_iff_left fun hmid => ?_
  exact not_after hnodup horder hvisited (hmid ▸ hid)

include hl hnodup horder h in
/-- A signal that is merged into one that has been visited leads to no node that has not been. -/
theorem Sound.behind_insert {kept m : Node} {merged key : String} {f : Fanin}
    (hkept : kept ∈ s.netlist.nodes) (hvisited : kept.id ∈ before ++ [node.id])
    (hfind : (s.substitution.insert merged (.plain kept.output)).find? key = some f)
    (hm : m ∈ n.nodes) (hid : m.id ∈ after) : f.signal ≠ m.output := by
  rw [Table.find?_insert] at hfind
  split at hfind
  · cases hfind
    intro ho
    have hsame := List.inj_on_of_nodup_map (h.reduced.single hl) hkept
      ((h.untouched m (.tail _ hid)).2 hm) ho
    exact not_after hnodup horder hvisited (hsame ▸ hid)
  · exact h.behind hfind m hm (.tail _ hid)

variable (hrep : s.Represents sig rep)

include hnodup horder h hrep in
theorem Sound.rep_ne : rep.id ≠ node.id := fun hid =>
  not_before hnodup horder (hid ▸ (h.of_represents hrep).2.1)

include hl h hm hrep hnodup horder in
theorem Sound.rep_output_ne : rep.output ≠ node.output := fun ho =>
  h.rep_ne hnodup horder hrep
    (congrArg Node.id (List.inj_on_of_nodup_map (h.reduced.single hl) hrep.there hm ho))

include hl hnodup horder h hm hrep in
theorem Sound.mergeNode (hport : node.output ∉ n.outputs) :
    Sound n order (before ++ [node.id]) after
      { s with
        netlist := dropNode s.netlist node.id node.output
        substitution := s.substitution.insert node.output (.plain rep.output)
        merged := s.merged + 1 } := by
  obtain ⟨hr, hbefore, -⟩ := h.of_represents hrep
  have hne := h.rep_output_ne hl hnodup horder hm hrep
  have hnode : node ∈ n.nodes := (h.untouched node (.head _)).1 hm
  have he : Short.Extendable n.outputs s.substitution node.output rep.output :=
    ⟨hport, h.reduced.gone node hm, h.reduced.gone rep hr, hne,
      .inr fun hfind => h.behind hfind node hnode (.head _)⟩
  have hmem : ∀ {m}, m ∈ (dropNode s.netlist node.id node.output).nodes ↔ m ∈ s.netlist.nodes ∧ m.id ≠ node.id :=
    mem_dropNode h.reduced.coherent hm
  constructor
  case reduced => exact h.reduced.drop hl hm hr he
  case untouched =>
    exact fun m => h.untouched_drop hnodup horder hm (List.mem_append_right _ (.head _))
  case behind =>
    exact fun hfind m => h.behind_insert hl hnodup horder hr (List.mem_append_left _ hbefore) hfind
  case stored =>
    intro sig' place hfind
    obtain ⟨rep', hmem', rfl, hbefore', fanins, hsig, hmap⟩ := h.stored hfind
    exact ⟨rep', hmem.2 ⟨hmem', h.rep_ne hnodup horder ⟨hfind, hmem'⟩⟩, rfl,
      List.mem_append_left _ hbefore', fanins, hsig, map_retarget_insert h.reduced.short he hmap⟩
  case distinct => exact h.distinct
  case ranked =>
    -- The representative is ranked below the node, so readers of the node may read it instead.
    obtain ⟨rank, hrank, hle, heq⟩ := h.ranked
    refine ⟨rank, fun m hm' f hf => ?_, fun m hm' => hle m (hmem.1 hm').1,
      fun m hm' hid => heq m (hmem.1 hm').1 (.tail _ hid)⟩
    have hlt := hrank m (hmem.1 hm').1 f hf
    rw [h.reduced.short.target_insert he]
    split
    · next htarget =>
      rw [htarget, heq node hm (.head _)] at hlt
      have hrle := hle rep hr
      have hidx := idxOf_lt hnodup horder hbefore
      omega
    · exact hlt

/-- A node reads below its representative, since it reads what its representative reads. -/
theorem Sound.rank_lt {fanins fanins' : List Fanin} (hrank : RankedThrough s.netlist s.substitution rank)
    (hr : rep ∈ s.netlist.nodes) (hperm : fanins'.Perm fanins)
    (hrmap : fanins.map (retarget s.substitution) = rep.fanins.map (retarget s.substitution))
    (hnmap : fanins'.map (retarget s.substitution) = node.fanins.map (retarget s.substitution)) :
    ∀ f ∈ node.fanins, rank (target s.substitution f.signal) < rank rep.output := by
  intro f hf
  have hmem : retarget s.substitution f ∈ rep.fanins.map (retarget s.substitution) := by
    rw [← hrmap, ← (hperm.map _).mem_iff, hnmap]
    exact List.mem_map_of_mem hf
  obtain ⟨g, hg, hgf⟩ := List.mem_map.1 hmem
  have htarget : target s.substitution g.signal = target s.substitution f.signal :=
    congrArg Fanin.signal hgf
  rw [← htarget]
  exact hrank rep hr g hg

include hl hnodup horder h hm in
theorem Sound.mergeRep (hrep : s.Represents (s.signature node) rep)
    (hport : node.output ∈ n.outputs) (hfree : rep.output ∉ n.outputs) :
    Sound n order (before ++ [node.id]) after
      { s with
        netlist := dropNode s.netlist rep.id rep.output
        representatives := s.representatives.insert (s.signature node) node.id
        substitution := s.substitution.insert rep.output (.plain node.output)
        merged := s.merged + 1 } := by
  obtain ⟨hr, hbefore, fanins, hrsig, hrmap⟩ := h.of_represents hrep
  have hne := h.rep_output_ne hl hnodup horder hm hrep
  have he : Short.Extendable n.outputs s.substitution rep.output node.output :=
    ⟨hfree, h.reduced.gone rep hr, h.reduced.gone node hm, hne.symm, .inl hport⟩
  have hmem : ∀ {m}, m ∈ (dropNode s.netlist rep.id rep.output).nodes ↔ m ∈ s.netlist.nodes ∧ m.id ≠ rep.id :=
    mem_dropNode h.reduced.coherent hr
  obtain ⟨fanins', hnsig, hnmap⟩ := Sound.signature h.reduced hm
  have hstays : node ∈ (dropNode s.netlist rep.id rep.output).nodes :=
    hmem.2 ⟨hm, (h.rep_ne hnodup horder hrep).symm⟩
  constructor
  case reduced => exact h.reduced.drop hl hr hm he
  case untouched =>
    exact fun m => h.untouched_drop hnodup horder hr (List.mem_append_left _ hbefore)
  case behind =>
    exact fun hfind m =>
      h.behind_insert hl hnodup horder hm (List.mem_append_right _ (.head _)) hfind
  case stored =>
    intro sig' place hfind
    rw [Table.find?_insert] at hfind
    split at hfind
    · next heq =>
      cases hfind
      exact ⟨node, hstays, rfl, List.mem_append_right _ (.head _), fanins', heq.trans hnsig,
        map_retarget_insert h.reduced.short he hnmap⟩
    · next hother =>
      obtain ⟨rep', hmem', rfl, hbefore', fs, hfs, hmap⟩ := h.stored hfind
      exact ⟨rep', hmem.2 ⟨hmem', fun hid => hother (h.distinct (hid ▸ hfind) hrep.found)⟩, rfl,
        List.mem_append_left _ hbefore', fs, hfs, map_retarget_insert h.reduced.short he hmap⟩
  case distinct => exact h.distinct_insert hnodup horder
  case ranked =>
    -- The node takes the rank of its representative.
    obtain ⟨rank, hrank, hle, heq⟩ := h.ranked
    obtain ⟨-, hperm, -⟩ := Signature.of_inj (hnsig.symm.trans hrsig)
    have hbelow := Sound.rank_lt hrank hr hperm hrmap hnmap
    have hlt : rank rep.output < rank node.output := by
      have hrle := hle rep hr
      have hidx := idxOf_lt hnodup horder hbefore
      rw [heq node hm (.head _)]
      omega
    refine ⟨Function.update rank node.output (rank rep.output), ?_, fun m hm' => ?_,
      fun m hm' hid => ?_⟩
    · exact hrank.exchange h.reduced.short he (fun m hm' => (hmem.1 hm').1) (h.reduced.single hl) hm
        hlt hbelow
    · have hmle := hle m (hmem.1 hm').1
      by_cases hmn : m.output = node.output
      · rw [hmn] at hmle ⊢
        rw [Function.update_self]
        omega
      · rw [Function.update_of_ne hmn]
        exact hmle
    · have hmn : m.output ≠ node.output := fun ho => by
        rw [List.inj_on_of_nodup_map (h.reduced.single hl) (hmem.1 hm').1 hm ho] at hid
        exact not_after hnodup horder (List.mem_append_right _ (.head _)) hid
      rw [Function.update_of_ne hmn]
      exact heq m (hmem.1 hm').1 (.tail _ hid)

include hnodup horder h hm hrep in
theorem Sound.mergePorts :
    Sound n order (before ++ [node.id]) after
      { s with
        netlist := s.netlist.updateNode node.id (.op .buf) [.plain rep.output]
        merged := s.merged + 1 } := by
  obtain ⟨hr, hbefore, -⟩ := h.of_represents hrep
  have hc := h.reduced.coherent
  have hmem : ∀ m, m ∈ (s.netlist.updateNode node.id (.op .buf) [.plain rep.output]).nodes ↔
      m = { node with kind := .op .buf, fanins := [.plain rep.output] } ∨
        m ∈ s.netlist.nodes ∧ m.id ≠ node.id := fun m => hc.mem_nodes_updateNode hm
  have hskip := h.skip
  constructor
  case reduced => exact h.reduced.buffer hm hr
  case untouched =>
    intro m hid
    have hmid : m.id ≠ node.id := fun hmid =>
      not_after hnodup horder (List.mem_append_right _ (.head _)) (hmid ▸ hid)
    rw [hmem, ← hskip.untouched m hid]
    refine ⟨fun hm' => ?_, fun hm' => .inr ⟨hm', hmid⟩⟩
    rcases hm' with rfl | ⟨hm', -⟩
    · exact absurd rfl hmid
    · exact hm'
  case behind => exact hskip.behind
  case stored =>
    intro sig' place hfind
    obtain ⟨rep', hmem', rfl, hbefore', hsig⟩ := h.stored hfind
    exact ⟨rep', (hmem rep').2 (.inr ⟨hmem', h.rep_ne hnodup horder ⟨hfind, hmem'⟩⟩), rfl,
      List.mem_append_left _ hbefore', hsig⟩
  case distinct => exact h.distinct
  case ranked =>
    obtain ⟨rank, hrank, hle, heq⟩ := h.ranked
    refine ⟨rank, fun m hm' f hf => ?_, fun m hm' => ?_, fun m hm' hid => ?_⟩
    · rcases (hmem m).1 hm' with rfl | ⟨hold, -⟩
      · have hidx := idxOf_lt hnodup horder hbefore
        have hrle := hle rep hr
        have hnode := heq node hm (.head _)
        rw [List.mem_singleton.1 hf, Fanin.plain, target_of_none (h.reduced.gone rep hr)]
        dsimp only
        omega
      · exact hrank m hold f hf
    · rcases (hmem m).1 hm' with rfl | ⟨hold, -⟩
      · exact hle node hm
      · exact hle m hold
    · rcases (hmem m).1 hm' with rfl | ⟨hold, -⟩
      · exact heq node hm (.head _)
      · exact heq m hold (.tail _ hid)

end Visit

variable {order before after : List NodeId} {s s' : Sweep}

/-- A visit keeps what holds during a sweep. -/
theorem Sound.step {id : NodeId} (h : s.Sound n order before (id :: after)) (hl : n.Legal)
    (hnodup : order.Nodup) (horder : order = before ++ id :: after) (hstep : s.Step id s') :
    s'.Sound n order (before ++ [id]) after := by
  have hc := h.reduced.coherent
  have houtputs := h.reduced.outputs
  cases hstep with
  | skip => exact h.skip
  | store hnode hmergeable hfind =>
    obtain ⟨hm, rfl⟩ := hc.node?_eq_some_iff.1 hnode
    exact h.store hnodup horder hm
  | mergeNode hnode hmergeable hfind hport =>
    obtain ⟨hm, rfl⟩ := hc.node?_eq_some_iff.1 hnode
    exact h.mergeNode hl hnodup horder hm hfind (houtputs ▸ hport)
  | mergeRep hnode hmergeable hfind hport hfree =>
    obtain ⟨hm, rfl⟩ := hc.node?_eq_some_iff.1 hnode
    exact h.mergeRep hl hnodup horder hm hfind (houtputs ▸ hport) (houtputs ▸ hfree)
  | mergePorts hnode hmergeable hfind hport hports =>
    obtain ⟨hm, rfl⟩ := hc.node?_eq_some_iff.1 hnode
    exact h.mergePorts hnodup horder hm hfind

/-- A visit succeeds. -/
theorem Sound.visit {id : NodeId} (h : s.Sound n order before (id :: after)) :
    ∃ s', s.visit id = .ok s' ∧ s.Step id s' :=
  visit_step h.reduced.coherent h.represents id

/-- Before the first visit the place of a driver in the order is the rank of its signal. -/
theorem Sound.start (hc : n.Coherent) (hl : n.Legal) (horder : n.topoOrder = .ok order) :
    Sound n order [] order (.start n) := by
  refine ⟨.start hc hl, fun _ _ => Iff.rfl, fun h => (by cases h), fun h => (by cases h),
    fun h => (by cases h), ?_⟩
  refine ⟨n.placeIn order, fun m hm f hf => ?_, fun m hm => ?_, fun m hm _ => ?_⟩
  · rw [Sweep.start, target_of_none rfl]
    exact hc.ranked_placeIn hl.single horder m hm f hf
  · exact (placeIn_output hl.single hm order).le
  · exact placeIn_output hl.single hm order

/-- No visit of a sweep fails, and whatever every visit keeps holds behind them. -/
theorem Sound.run {P : List NodeId → Sweep → Prop} {todo : List NodeId} (hl : n.Legal)
    (hnodup : order.Nodup)
    (hstep : ∀ ⦃before id after s s'⦄, order = before ++ id :: after →
      s.Sound n order before (id :: after) → P before s → s.Step id s' → P (before ++ [id]) s')
    (horder : order = before ++ (todo ++ after)) (h : s.Sound n order before (todo ++ after))
    (hP : P before s) :
    ∃ s', s.visitAll todo = (s', none) ∧ s'.Sound n order (before ++ todo) after ∧
      P (before ++ todo) s' := by
  induction todo generalizing before s with
  | nil =>
    rw [List.append_nil]
    exact ⟨s, rfl, h, hP⟩
  | cons id todo ih =>
    obtain ⟨s', hvisit, hs'⟩ := h.visit
    rw [List.append_cons, Sweep.visitAll, hvisit]
    exact ih (by rw [horder, List.append_assoc]; rfl) (h.step hl hnodup horder hs')
      (hstep horder h hP hs')

end Sweep

/-- A sweep succeeds, and whatever every visit keeps holds at its end. -/
theorem sweep_run {P : List NodeId → Sweep → Prop} (hl : n.Legal) (hc : n.Coherent)
    {order : List NodeId} (horder : n.topoOrder = .ok order)
    (hstep : ∀ ⦃before id after s s'⦄, order = before ++ id :: after →
      Sweep.Sound n order before (id :: after) s → P before s → s.Step id s' →
        P (before ++ [id]) s')
    (hstart : P [] (.start n)) :
    ∃ s : Sweep, sweep n = ((s.netlist.redirect s.substitution).1, .ok s.merged) ∧
      s.Sound n order order [] ∧ P order s := by
  have hsplit : order = [] ++ (order ++ []) := by simp
  obtain ⟨s, hvisits, hsound, hP⟩ := Sweep.Sound.run hl (hc.nodup_of_topoOrder horder) hstep hsplit
    ((List.append_nil order).symm ▸ .start hc hl horder) hstart
  refine ⟨s, ?_, hsound, hP⟩
  rw [sweep, horder]
  dsimp only
  rw [hvisits]

/-! ## Costs -/

/-- A literal of the netlist under way was there before the sweep. -/
def OldLiterals (n N : Netlist) : Prop :=
  ∀ m ∈ N.nodes, ∀ value, m.kind = .const value → m ∈ n.nodes

theorem weight_of_mergeable (h : isMergeable n node = true) (hliteral : n.isLiteralPort node = false)
    (hport : node.output ∈ n.outputs) : 3 ≤ n.weight node := by
  rcases n.weight_cases node with ⟨value, hkind, hweight⟩ | ⟨hkind, hweight⟩ | hweight
  · have hwide : ¬ (n.width node.output).truncate value = value := fun hfits => by
      rw [isLiteralPort_iff.2 ⟨hport, value, hkind, hfits⟩] at hliteral
      cases hliteral
    rw [hweight, if_neg hwide]
  · simp only [isMergeable, hkind, Bool.not_eq_true'] at h
    rw [hweight, if_neg (by simp [h])]
  · exact hweight

theorem weight_portBuffer {output : String} {id : NodeId} (hport : node.output ∈ n.outputs)
    (hout : output ∈ n.outputs) : n.weight ⟨id, .op .buf, [.plain node.output], output⟩ = 2 := by
  have hbuffer : isPortBuffer n ⟨id, .op .buf, [.plain node.output], output⟩ = true := by
    simp only [isPortBuffer, isOutput_iff.2 hout, Fanin.plain, isOutput_iff.2 hport]
    rfl
  simp only [weight, hbuffer, if_true]

theorem cost_dropNode (hc : n.Coherent) (hsingle : (n.nodes.map Node.output).Nodup)
    (hm : node ∈ n.nodes) : (dropNode n node.id node.output).cost + 1 ≤ n.cost := by
  have hwithout : Without n (dropNode n node.id node.output) [node.id] := (Without.refl hc).drop hm
  have hcost := hwithout.cost_le hsingle
  have hcount : (dropNode n node.id node.output).nodeCount < n.nodeCount := by
    rw [nodeCount, hwithout.nodes]
    exact List.length_filter_lt_length_iff_exists.2 ⟨node, hm, by simp⟩
  omega

section Steps
variable {order before after : List NodeId} {s s' : Sweep} {id : NodeId}

theorem Sweep.Step.oldLiterals (h : s.Sound n order before (id :: after)) (hstep : s.Step id s')
    (hold : OldLiterals n s.netlist) : OldLiterals n s'.netlist := by
  have hc := h.reduced.coherent
  cases hstep with
  | skip => exact hold
  | store => exact hold
  | mergeNode hnode _ _ _ =>
    obtain ⟨hm, -⟩ := hc.node?_eq_some_iff.1 hnode
    exact fun m hm' => hold m ((mem_dropNode hc hm).1 hm').1
  | mergeRep _ _ hfind _ _ =>
    exact fun m hm' => hold m ((mem_dropNode hc hfind.there).1 hm').1
  | mergePorts hnode _ _ _ _ =>
    obtain ⟨hm, -⟩ := hc.node?_eq_some_iff.1 hnode
    intro m hm' value hkind
    rcases (hc.mem_nodes_updateNode hm).1 hm' with rfl | ⟨hm', -⟩
    · cases hkind
    · exact hold m hm' value hkind

/-- The outputs that a visit joins have the same kind of driver and the same width. -/
theorem Sweep.Sound.rep_like (h : s.Sound n order before (id :: after))
    (hfind : s.Represents (s.signature node) rep) :
    rep.kind = node.kind ∧ s.netlist.width rep.output = s.netlist.width node.output := by
  obtain ⟨hr, -, fanins, hsig, -⟩ := h.of_represents hfind
  obtain ⟨hkind, -, hwidth⟩ := Signature.of_inj hsig
  rw [h.reduced.width _ (h.reduced.gone rep hr)]
  exact ⟨hkind.symm, hwidth.symm⟩

/-- Two literals that a visit joins are twins of the netlist before the sweep. -/
theorem Sweep.Sound.twins (h : s.Sound n order before (id :: after)) (hl : n.Legal)
    (hnodup : order.Nodup) (horder : order = before ++ id :: after)
    (hold : OldLiterals n s.netlist) (hm : node ∈ s.netlist.nodes) (hid : node.id = id)
    (hfind : s.Represents (s.signature node) rep)
    (hport : rep.output ∈ s.netlist.outputs) (hliteral : s.netlist.isLiteralPort node = true) :
    n.Twins := by
  subst hid
  obtain ⟨hout, value, hkind, hfits⟩ := isLiteralPort_iff.1 hliteral
  obtain ⟨hr, -, -⟩ := h.of_represents hfind
  obtain ⟨hrkind, hrwidth⟩ := h.rep_like hfind
  have hnode := hold node hm value hkind
  have hrep := hold rep hr value (hrkind.trans hkind)
  have hwidth := h.reduced.width _ (h.reduced.gone node hm)
  have hwidth' := h.reduced.width _ (h.reduced.gone rep hr)
  rw [h.reduced.outputs] at hout hport
  rw [hwidth, hwidth'] at hrwidth
  rw [hwidth] at hfits
  refine ⟨rep, hrep, node, hnode, h.rep_output_ne hl hnodup horder hm hfind, hrkind, hrwidth, ?_, ?_⟩
  · exact isLiteralPort_iff.2 ⟨hport, value, hrkind.trans hkind, by rw [hrwidth, hfits]⟩
  · exact isLiteralPort_iff.2 ⟨hout, value, hkind, hfits⟩

/-- Without twins every merge makes the netlist lighter. -/
theorem Sweep.Step.cost (h : s.Sound n order before (id :: after)) (hl : n.Legal)
    (hnodup : order.Nodup) (horder : order = before ++ id :: after) (hstep : s.Step id s')
    (hold : OldLiterals n s.netlist) (htwins : ¬ n.Twins) :
    s'.netlist.cost + s'.merged ≤ s.netlist.cost + s.merged := by
  have hc := h.reduced.coherent
  have hsingle := h.reduced.single hl
  cases hstep with
  | skip => exact Nat.le_refl _
  | store => exact Nat.le_refl _
  | mergeNode hnode _ _ _ =>
    obtain ⟨hm, -⟩ := hc.node?_eq_some_iff.1 hnode
    have hcost := cost_dropNode hc hsingle hm
    dsimp only
    omega
  | mergeRep _ _ hfind _ _ =>
    have hcost := cost_dropNode hc hsingle hfind.there
    dsimp only
    omega
  | @mergePorts node rep hnode hmergeable hfind hport hports =>
    obtain ⟨hm, hid⟩ := hc.node?_eq_some_iff.1 hnode
    have hliteral : s.netlist.isLiteralPort node = false := Bool.eq_false_iff.2 fun hliteral =>
      htwins (h.twins hl hnodup horder hold hm hid hfind hports hliteral)
    have hheavy := weight_of_mergeable hmergeable hliteral hport
    have hlight : s.netlist.weight ⟨node.id, .op .buf, [.plain rep.output], node.output⟩ = 2 :=
      weight_portBuffer hports hport
    have hcost := hc.cost_updateNode hm (.op .buf) [.plain rep.output]
    rw [hlight] at hcost
    dsimp only
    omega

theorem constantPort_dropNode (hc : n.Coherent) (hm : node ∈ n.nodes)
    (hfree : node.output ∉ n.outputs) {value : Word} {w : Width} {port : String}
    (h : ConstantPort n value w port) : ConstantPort (dropNode n node.id node.output) value w port := by
  have hwithout : Without n (dropNode n node.id node.output) [node.id] := (Without.refl hc).drop hm
  refine h.of_nodes hwithout.outputs (fun o ho => hwithout.width o fun m hmem hid heq => ?_)
    fun m hmem hout _ => (mem_dropNode hc hm).2 ⟨hmem, fun hid => ?_⟩
  · rw [hc.eq_of_id hmem hm (List.mem_singleton.1 hid)] at heq
    exact hfree (heq ▸ ho)
  · rw [hc.eq_of_id hmem hm hid] at hout
    exact hfree hout

/-- A constant port stays constant in a visit. -/
theorem Sweep.Step.constantPort (h : s.Sound n order before (id :: after))
    (hnodup : order.Nodup) (horder : order = before ++ id :: after) (hstep : s.Step id s')
    {value : Word} {w : Width} {port : String} (hport : ConstantPort s.netlist value w port) :
    ConstantPort s'.netlist value w port := by
  have hc := h.reduced.coherent
  cases hstep with
  | skip => exact hport
  | store => exact hport
  | mergeNode hnode _ _ hfree =>
    exact constantPort_dropNode hc (hc.node?_eq_some_iff.1 hnode).1 hfree hport
  | mergeRep _ _ hfind _ hfree => exact constantPort_dropNode hc hfind.there hfree hport
  | @mergePorts node rep hnode hmergeable hfind hout hrout =>
    obtain ⟨hm, rfl⟩ := hc.node?_eq_some_iff.1 hnode
    have hr := hfind.there
    obtain ⟨hrkind, hrwidth⟩ := h.rep_like hfind
    have hmem : ∀ m, m ∈ (s.netlist.updateNode node.id (.op .buf) [.plain rep.output]).nodes ↔
        m = { node with kind := .op .buf, fanins := [.plain rep.output] } ∨
          m ∈ s.netlist.nodes ∧ m.id ≠ node.id := fun m => hc.mem_nodes_updateNode hm
    induction hport with
    | @literal m hm' hkind hmout hwidth hfits =>
      by_cases hid : m.id = node.id
      · have hsame := hc.eq_of_id hm' hm hid
        subst hsame
        have hsource := ConstantPort.literal
          ((hmem rep).2 (.inr ⟨hr, h.rep_ne hnodup horder hfind⟩)) (hrkind.trans hkind) hrout
          (hrwidth.trans hwidth) hfits
        have hbuffer := ConstantPort.buffer ((hmem _).2 (.inl rfl)) rfl rfl hmout hwidth hsource
        exact hbuffer
      · exact .literal ((hmem m).2 (.inr ⟨hm', hid⟩)) hkind hmout hwidth hfits
    | @buffer m source hm' hkind hfanins hmout hwidth hsource ih =>
      have hid : m.id ≠ node.id := by
        intro hid
        have hsame := hc.eq_of_id hm' hm hid
        subst hsame
        have hsourceOut := isOutput_iff.2 hsource.mem_outputs
        simp [isMergeable, isPortBuffer, hkind, hfanins, isOutput_iff.2 hmout, Fanin.plain,
          hsourceOut] at hmergeable
      exact .buffer ((hmem m).2 (.inr ⟨hm', hid⟩)) hkind hfanins hmout hwidth ih

/-- As long as nothing is merged, the netlist is as it was and the mergeable nodes that were visited
stand for their signatures. -/
def Sweep.Idle (n : Netlist) (before : List NodeId) (s : Sweep) : Prop :=
  s.merged = 0 → s.netlist = n ∧ s.substitution = Table.empty ∧
    ∀ m ∈ n.nodes, m.id ∈ before → isMergeable n m = true →
      s.representatives.find? (Signature.of m.kind m.fanins (n.width m.output)) = some m.id

theorem Sweep.Step.idle (hc : n.Coherent) (hstep : s.Step id s') (hidle : s.Idle n before) :
    s'.Idle n (before ++ [id]) := by
  intro hzero
  cases hstep with
  | skip hnone =>
    obtain ⟨rfl, hsub, hreps⟩ := hidle hzero
    refine ⟨rfl, hsub, fun m hm hid hmergeable => ?_⟩
    rcases List.mem_append.1 hid with hid | hid
    · exact hreps m hm hid hmergeable
    · rw [hnone m (List.mem_singleton.1 hid ▸ hc.node?_of_mem hm)] at hmergeable
      cases hmergeable
  | @store node hnode hmergeable hfind =>
    obtain ⟨rfl, hsub, hreps⟩ := hidle hzero
    have hsig : s.signature node =
        Signature.of node.kind node.fanins (s.netlist.width node.output) := by
      have hempty : Short [] (Table.empty : Substitution) := .empty
      rw [Sweep.signature, hsub, map_resolve hempty]
      congr 1
      exact (List.map_congr_left fun f _ => rfl).trans (List.map_id _)
    refine ⟨rfl, hsub, fun m hm hid hm' => ?_⟩
    dsimp only
    rw [Table.find?_insert]
    split
    · next heq =>
      rcases List.mem_append.1 hid with hid | hid
      · rw [← heq, hreps m hm hid hm'] at hfind
        cases hfind
      · have hmnode := hc.node?_of_mem hm
        rw [List.mem_singleton.1 hid, hnode] at hmnode
        exact congrArg (Option.map Node.id) hmnode
    · next hne =>
      rcases List.mem_append.1 hid with hid | hid
      · exact hreps m hm hid hm'
      · have hmnode := hc.node?_of_mem hm
        rw [List.mem_singleton.1 hid, hnode] at hmnode
        cases hmnode
        exact absurd hsig.symm hne
  | mergeNode => cases hzero
  | mergeRep => cases hzero
  | mergePorts => cases hzero

end Steps

/-! ## Whole sweeps -/

theorem redirect_empty (n : Netlist) : (n.redirect Table.empty).1 = n := by
  have hid : ∀ slot : Option Node, (slot.map fun node =>
      { node with fanins := node.fanins.map (redirectFanin Table.empty) }) = slot := by
    intro slot
    cases slot with
    | none => rfl
    | some node =>
      have hfanins : node.fanins.map (redirectFanin Table.empty) = node.fanins :=
        (List.map_congr_left fun f _ => rfl).trans (List.map_id _)
      rw [Option.map_some, hfanins]
  have harena : (n.redirect Table.empty).1 = { n with arena := n.arena } := by
    simp only [redirect, hid, List.map_id']
  exact harena

theorem Reduced.isPortBuffer_retarget (h : Reduced n N sub) (hbuffer : isPortBuffer N node = true) :
    isPortBuffer N { node with fanins := node.fanins.map (retarget sub) } = true := by
  rw [← h.redirectFanin_eq]
  exact isPortBuffer_redirect (fun o ho => h.short.find?_port (h.outputs ▸ ho)) hbuffer

/-- Redirected fanins make no node heavier. -/
theorem Reduced.cost_redirect (h : Reduced n N sub) : (N.redirect sub).1.cost ≤ N.cost := by
  rw [cost, cost, h.nodes_redirect, List.map_map]
  refine List.sum_le_sum fun m _ => ?_
  have hport : isPortBuffer N m = true →
      isPortBuffer N { m with fanins := m.fanins.map (retarget sub) } = true :=
    h.isPortBuffer_retarget
  show N.weight { m with fanins := m.fanins.map (retarget sub) } ≤ N.weight m
  unfold weight
  cases hkind : m.kind with
  | op op =>
    cases op with
    | buf =>
      rw [hkind] at hport
      dsimp only
      split <;> split <;> first | omega | skip
      next hnew hold => exact absurd (hport hold) hnew
    | _ => exact Nat.le_refl _
  | _ => exact Nat.le_refl _

/-- Constant ports are read under their own names, so redirecting leaves them alone. -/
theorem Reduced.constantPort_redirect (h : Reduced n N sub) {value : Word} {w : Width}
    {port : String} (hport : ConstantPort N value w port) :
    ConstantPort (N.redirect sub).1 value w port := by
  have hmem : ∀ {m}, m ∈ N.nodes → { m with fanins := m.fanins.map (retarget sub) } ∈
      (N.redirect sub).1.nodes := by
    intro m hm
    rw [h.nodes_redirect]
    exact List.mem_map.2 ⟨m, hm, rfl⟩
  induction hport with
  | literal hm hkind hout hwidth hfits =>
    have hliteral := ConstantPort.literal (hmem hm) hkind hout hwidth hfits
    exact hliteral
  | @buffer m source hm hkind hfanins hout hwidth hsource ih =>
    have hfree := h.short.find?_port (h.outputs ▸ hsource.mem_outputs)
    have hsame : m.fanins.map (retarget sub) = [.plain source] := by
      rw [hfanins, List.map_singleton, retarget, Fanin.plain, target_of_none hfree]
    have hbuffer := ConstantPort.buffer (hmem hm) hkind hsame hout hwidth ih
    exact hbuffer

/-- Twins behind a sweep were twins before it. -/
theorem Reduced.twins_of_redirect (h : Reduced n N sub) (hold : OldLiterals n N)
    (htwins : (N.redirect sub).1.Twins) : n.Twins := by
  obtain ⟨a, ha, b, hb, hne, hkind, hwidth, hla, hlb⟩ := htwins
  have horigin : ∀ {m}, m ∈ (N.redirect sub).1.nodes → (N.redirect sub).1.isLiteralPort m = true →
      ∃ m' ∈ n.nodes, m'.output = m.output ∧ m'.kind = m.kind ∧
        N.width m.output = n.width m.output ∧ n.isLiteralPort m' = true := by
    intro m hm hliteral
    rw [h.nodes_redirect] at hm
    obtain ⟨m', hm', rfl⟩ := List.mem_map.1 hm
    obtain ⟨hout, value, hvalue, hfits⟩ := isLiteralPort_iff.1 hliteral
    have hw := h.width _ (h.gone m' hm')
    refine ⟨m', hold m' hm' value hvalue, rfl, rfl, hw, isLiteralPort_iff.2 ⟨?_, value, hvalue, ?_⟩⟩
    · exact h.outputs ▸ hout
    · rw [← hw]
      exact hfits
  obtain ⟨a', ha', hao, hak, haw, hal⟩ := horigin ha hla
  obtain ⟨b', hb', hbo, hbk, hbw, hbl⟩ := horigin hb hlb
  refine ⟨a', ha', b', hb', ?_, ?_, ?_, hal, hbl⟩
  · rwa [hao, hbo]
  · rw [hak, hbk, hkind]
  · rw [hao, hbo, ← haw, ← hbw]
    exact hwidth

/-- What a sweep or a sequence of sweeps does. -/
structure Swept (n n' : Netlist) (merged : Nat) : Prop where
  preserved : Preserved n n'
  cost : ¬ n.Twins → n'.cost + merged ≤ n.cost
  twins : n'.Twins → n.Twins
  locked : n.Locked → n'.Locked
  /-- If nothing is merged, nothing changes and there was nothing to merge. -/
  settled : merged = 0 → n' = n ∧ ∀ a ∈ n.nodes, ∀ b ∈ n.nodes, isMergeable n a = true →
    isMergeable n b = true → Signature.of a.kind a.fanins (n.width a.output) =
      Signature.of b.kind b.fanins (n.width b.output) → a = b

/-- What every visit of a sweep keeps besides what makes it sound. -/
structure Sweep.Kept (n : Netlist) (before : List NodeId) (s : Sweep) : Prop where
  old : OldLiterals n s.netlist
  cost : ¬ n.Twins → s.netlist.cost + s.merged ≤ n.cost
  ports : ∀ value w port, ConstantPort n value w port → ConstantPort s.netlist value w port
  idle : s.Idle n before

theorem Sweep.Kept.start (n : Netlist) : Kept n [] (.start n) :=
  ⟨fun m hm _ _ => hm, fun _ => Nat.le_refl _, fun _ _ _ h => h,
    fun _ => ⟨rfl, rfl, fun _ _ hid => by cases hid⟩⟩

theorem Sweep.Kept.step {order before after : List NodeId} {id : NodeId} {s s' : Sweep}
    (hl : n.Legal) (hc : n.Coherent) (hnodup : order.Nodup) (horder : order = before ++ id :: after)
    (hsound : s.Sound n order before (id :: after)) (h : s.Kept n before) (hstep : s.Step id s') :
    s'.Kept n (before ++ [id]) where
  old := hstep.oldLiterals hsound h.old
  cost htwins := (hstep.cost hsound hl hnodup horder h.old htwins).trans (h.cost htwins)
  ports value w port hport := hstep.constantPort hsound hnodup horder (h.ports value w port hport)
  idle := hstep.idle hc h.idle

theorem sweep_swept (hl : n.Legal) (hc : n.Coherent) :
    ∃ n' merged, sweep n = (n', .ok merged) ∧ Swept n n' merged := by
  obtain ⟨order, horder⟩ := hl.topoOrder hc
  have hnodup := hc.nodup_of_topoOrder horder
  obtain ⟨s, hsweep, hsound, hkept⟩ := sweep_run (P := Sweep.Kept n) hl hc horder
    (fun _ _ _ _ _ hsplit hs hkept hstep => hkept.step hl hc hnodup hsplit hs hstep) (.start n)
  obtain ⟨rank, hrank, -, -⟩ := hsound.ranked
  have hred := hsound.reduced
  refine ⟨_, _, hsweep, hred.preserved hl hrank, fun htwins => ?_, hred.twins_of_redirect hkept.old,
    fun hlocked => ?_, fun hzero => ?_⟩
  · have hredirect := hred.cost_redirect
    have hle := hkept.cost htwins
    omega
  · exact hlocked.imp fun value w port hport =>
      hred.constantPort_redirect (hkept.ports value w port hport)
  · obtain ⟨hnet, hsub, hreps⟩ := hkept.idle hzero
    refine ⟨by rw [hnet, hsub, redirect_empty], fun a ha b hb hma hmb hsig => ?_⟩
    have hin : ∀ {m}, m ∈ n.nodes → m.id ∈ order := fun hm =>
      (hc.perm_of_topoOrder horder).mem_iff.2 (List.mem_map_of_mem hm)
    have hfind := hreps a ha (hin ha) hma
    rw [hsig, hreps b hb (hin hb) hmb] at hfind
    exact hc.eq_of_id ha hb (Option.some.inj hfind).symm

theorem Swept.trans {n' n'' : Netlist} {merged merged' : Nat} (h : Swept n n' merged)
    (h' : Swept n' n'' merged') (hpos : merged ≠ 0) : Swept n n'' (merged + merged') := by
  refine ⟨h.preserved.trans h'.preserved, fun htwins => ?_, fun htwins => h.twins (h'.twins htwins),
    fun hlocked => h'.locked (h.locked hlocked), fun hzero => by omega⟩
  have hfirst := h.cost htwins
  have hsecond := h'.cost (mt h.twins htwins)
  omega

/-- On a netlist in order no sweep fails, so there is a last one that leaves everything as it is, and
the sweeps before it each leave a netlist in order. -/
@[elab_as_elim]
theorem mergeSweeps_induct_legal {motive : ∀ n : Netlist, Nat → n.Legal → n.Coherent → Prop}
    (last : ∀ n count hl hc, sweep n = (n, .ok 0) → motive n count hl hc)
    (more : ∀ n count m merged hl hc, sweep n = (m, .ok merged) → merged ≠ 0 →
      ∀ hswept : Swept n m merged, motive m (count + merged) hswept.preserved.legal
        hswept.preserved.coherent → motive n count hl hc)
    (n : Netlist) (count : Nat) (hl : n.Legal) (hc : n.Coherent) : motive n count hl hc := by
  obtain ⟨m, merged, hsweep, hswept⟩ := sweep_swept hl hc
  induction n, count using mergeSweeps_induct generalizing m merged with
  | fail n count n' e herror => cases herror.symm.trans hsweep
  | last n count n' hlast =>
    cases hlast.symm.trans hsweep
    exact last n count hl hc (by rw [hlast, (hswept.settled rfl).1])
  | more n count n' some hmore hsome ih =>
    cases hmore.symm.trans hsweep
    obtain ⟨m', merged', hsweep', hswept'⟩ :=
      sweep_swept hswept.preserved.legal hswept.preserved.coherent
    exact more n count _ _ hl hc hmore hsome hswept (ih _ _ m' merged' hsweep' hswept')

theorem mergeSweeps_swept (hl : n.Legal) (hc : n.Coherent) (count : Nat) :
    ∃ n' merged, n.mergeSweeps count = (n', .ok (count + merged)) ∧ Swept n n' merged := by
  induction n, count, hl, hc using mergeSweeps_induct_legal with
  | last n count hl hc hlast =>
    obtain ⟨_, _, hsweep, hswept⟩ := sweep_swept hl hc
    cases hlast.symm.trans hsweep
    exact ⟨n, 0, mergeSweeps_of_none hlast count, hswept⟩
  | more n count m merged hl hc hmore hsome hswept ih =>
    obtain ⟨n', rest, hsweeps, hrest⟩ := ih
    refine ⟨n', merged + rest, ?_, hswept.trans hrest hsome⟩
    rw [mergeSweeps_of_some hmore hsome, hsweeps, Nat.add_assoc]

end Merging

/-- Merging succeeds. -/
theorem Netlist.Legal.mergeEqual_swept {n : Netlist} (hl : n.Legal) (hc : n.Coherent) :
    ∃ n' merged, n.mergeEqual = (n', .ok merged) ∧ Merging.Swept n n' merged := by
  obtain ⟨n', merged, hsweeps, hswept⟩ := Merging.mergeSweeps_swept hl hc 0
  rw [Nat.zero_add] at hsweeps
  exact ⟨n', merged, hsweeps, hswept⟩

end GateSynth
