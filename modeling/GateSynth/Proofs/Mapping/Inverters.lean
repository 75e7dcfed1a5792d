import GateSynth.Proofs.Mapping.Origins

/-!
# One inverter for each inverted signal

The nodes of a subject graph are those of the source, in their order, and behind them one NOT node
for each signal that the source reads inverted. `Copied` is the state of the construction: the nodes
that are done, those that are not, and the inverters with the fanins that called for them. At its
end the subject graph is a copy of the source without inversions (`ofNetlist_faithful`): it is
valid, and every signal of the source has the value that it has there.
-/

namespace GateSynth

open Netlist

/-! ## Simulating alike -/

/-- Where the source can be simulated, the netlist can be too, for every meaning of the library
cells, and gives every signal of the source the value that it has there. -/
def Netlist.Mirrors (n source : Netlist) : Prop :=
  ∀ cells e given values, Evaluator.ofNetlist source cells = .ok e → e.simulate given = .ok values →
    ∃ e' values', Evaluator.ofNetlist n cells = .ok e' ∧ e'.simulate given = .ok values' ∧
      ∀ x, source.isTaken x = true → values'.find? x = values.find? x

/-! ## Replacing a node in its place -/

/-- The nodes around an updated node stay as they are. -/
theorem Netlist.Coherent.nodes_updateNode_of_append {n : Netlist} (h : n.Coherent)
    {before after : List Node} {node : Node} (hnodes : n.nodes = before ++ node :: after)
    (kind : Kind) (fanins : List Fanin) :
    (n.updateNode node.id kind fanins).nodes = before ++ { node with kind, fanins } :: after := by
  have hids := h.nodeIds_nodup
  rw [nodeIds, hnodes, List.map_append, List.map_cons, List.nodup_middle, List.nodup_cons,
    ← List.map_append] at hids
  have hother : ∀ m ∈ before ++ after,
      (if m.id = node.id then { m with kind, fanins } else m) = m :=
    fun m hm => if_neg fun (hid : m.id = node.id) => hids.1 (hid ▸ List.mem_map_of_mem hm)
  rw [h.nodes_updateNode, hnodes, List.map_append, List.map_cons, if_pos rfl,
    List.map_congr_left fun m hm => hother m (List.mem_append_left _ hm), List.map_id',
    List.map_congr_left fun m hm => hother m (List.mem_append_right _ hm), List.map_id']

namespace Subject

variable {source n n' : Netlist} {inverters inverters' : Inverters} {done rest : List Node}
  {seen fanins fanins' : List Fanin} {signal inverter : String} {node : Node}

/-! ## The nodes of a copy -/

/-- A node of the source in its copy: it is the same but for its inverted fanins, which read
inverters. -/
structure Keeps (inverters : Inverters) (old node : Node) : Prop where
  id : node.id = old.id
  kind : node.kind = old.kind
  output : node.output = old.output
  fanins : List.Forall₂ (ReadsLike inverters) old.fanins node.fanins

/-- The node of an entry of the inverters: under the name of the entry, which is new, it carries the
complement of the signal, as wide as the signal. -/
structure Complements (source n : Netlist) (entry : String × String) (node : Node) : Prop
    extends Inverts source node entry.1 where
  output : node.output = entry.2
  width : n.width node.output = source.width entry.1

theorem Keeps.grows {old : Node} (h : Keeps inverters old node)
    (hgrows : Grows n inverters n' inverters') : Keeps inverters' old node :=
  ⟨h.id, h.kind, h.output, h.fanins.imp fun _ _ hf =>
    hf.imp_right fun ⟨hinv, i, hi, hg⟩ => ⟨hinv, i, hgrows.known _ _ hi, hg⟩⟩

theorem Complements.of_width {entry : String × String} (h : Complements source n entry node)
    (hw : n'.width node.output = n.width node.output) : Complements source n' entry node :=
  ⟨h.toInverts, h.output, hw.trans h.width⟩

/-- A node on a new signal leaves the nodes of the inverters as they are. -/
theorem forall₂_complements_of_newNode {entries : List (String × String)} {added : List Node}
    {w : Width} (hnew : NewNode n n' node w) (hmem : ∀ m ∈ added, m ∈ n.nodes)
    (h : List.Forall₂ (Complements source n) entries added) :
    List.Forall₂ (Complements source n') entries added := by
  rw [List.forall₂_iff_zip] at h ⊢
  refine ⟨h.1, fun hpair => (h.2 hpair).of_width (hnew.width_of_defined ?_)⟩
  exact isDefined_of_node (hmem _ (List.of_mem_zip hpair).2)

/-- The state of the construction: `done` are the nodes that have been copied, `rest` are those that
are still as they were, and `seen` are the fanins that have been looked at. -/
structure Copied (source n : Netlist) (inverters : Inverters) (done rest : List Node)
    (seen : List Fanin) : Prop extends Straightened source n inverters rest where
  layout : ∃ kept added, n.nodes = kept ++ (rest ++ added) ∧
    List.Forall₂ (Keeps inverters) done kept ∧
    List.Forall₂ (Complements source n) inverters.entries added
  keys_nodup : inverters.keys.Nodup
  mem_keys : ∀ x, x ∈ inverters.keys ↔ ⟨x, true⟩ ∈ seen

theorem copied_source (hc : source.Coherent) (hl : source.Legal) :
    Copied source source Table.empty [] source.nodes [] where
  toStraightened := straightened_source hc hl
  layout := ⟨[], [], by simp, .nil, .nil⟩
  keys_nodup := .nil
  mem_keys _ := by simp [Table.keys, Table.empty]

/-! ## Adding an inverter -/

/-- The inverter of a signal that has none becomes the last node. -/
theorem Copied.newInverter (hs : Copied source n inverters done rest seen) {id : NodeId}
    (hsource : source.isDefined signal = true) (hdef : n.isDefined signal = true)
    (hfind : inverters.find? signal = none)
    (hgrows : Grows n inverters n' (inverters.insert signal inverter))
    (hnew : NewNode n n' ⟨id, .op .not, [.plain signal], inverter⟩ (n.width signal)) :
    Copied source n' (inverters.insert signal inverter) done rest (seen ++ [⟨signal, true⟩]) := by
  have hkey := Table.find?_eq_none_iff.1 hfind
  have htaken := hs.width signal (isTaken_of_isDefined hsource)
  obtain ⟨kept, added, hnodes, hkept, hadded⟩ := hs.layout
  refine ⟨hs.toStraightened.newInverter hdef hnew, ?_, Table.nodup_keys_insert hs.keys_nodup,
    fun x => ?_⟩
  · refine ⟨kept, added ++ [⟨id, .op .not, [.plain signal], inverter⟩], ?_,
      hkept.imp fun _ _ h => h.grows hgrows, ?_⟩
    · rw [hnew.nodes, hnodes, List.append_assoc, List.append_assoc]
    · rw [Table.insert_of_not_mem hkey]
      refine List.rel_append (forall₂_complements_of_newNode hnew (fun m hm => ?_) hadded)
        (.cons ?_ .nil)
      · rw [hnodes]
        exact List.mem_append_right _ (List.mem_append_right _ hm)
      · exact ⟨⟨rfl, rfl, hsource, hs.toStraightened.fresh hnew⟩, rfl,
          by rw [hnew.width, if_pos rfl, htaken.2]⟩
  · rw [Table.mem_keys_insert, hs.mem_keys, List.mem_append, List.mem_singleton, or_comm]
    simp

/-- After its inverter was asked for, a signal counts as read inverted. -/
theorem Copied.inverterOf (hs : Copied source n inverters done rest seen)
    (hsource : source.isDefined signal = true) (hdef : n.isDefined signal = true)
    (h : inverterOf n inverters signal = .ok (n', inverters', inverter)) :
    Copied source n' inverters' done rest (seen ++ [⟨signal, true⟩]) := by
  have hgrows := (hs.toStraightened.inverterOf hdef h).2.1
  cases hfind : inverters.find? signal with
  | some old =>
    rw [Subject.inverterOf, hfind] at h
    cases h
    have hread := (hs.mem_keys signal).1 (Table.mem_keys_of_find? hfind)
    refine { hs with mem_keys := fun x => ?_ }
    rw [hs.mem_keys, List.mem_append, List.mem_singleton]
    refine ⟨.inl, ?_⟩
    rintro (hx | hx)
    · exact hx
    · rwa [hx]
  | none =>
    obtain ⟨rfl, id, hnew⟩ := inverterOf_eq_ok hfind h
    exact hs.newInverter hsource hdef hfind hgrows hnew

/-- The fanins of a list call for the inverters of the signals that they read inverted. -/
theorem Copied.straighten (hs : Copied source n inverters done rest seen)
    (hsource : ∀ f ∈ fanins, source.isDefined f.signal = true)
    (hdef : ∀ f ∈ fanins, n.isDefined f.signal = true)
    (h : straighten fanins n inverters = .ok (n', inverters', fanins')) :
    Copied source n' inverters' done rest (seen ++ fanins) := by
  induction fanins generalizing n inverters fanins' seen with
  | nil =>
    cases h
    rwa [List.append_nil]
  | cons f fanins ih =>
    rw [List.forall_mem_cons] at hsource hdef
    rw [Subject.straighten] at h
    rw [List.append_cons]
    split at h
    · next hinv =>
      obtain ⟨⟨m, inverters₁, inverter⟩, hfirst, h⟩ := ok_of_bind h
      obtain ⟨⟨m', inverters₂, tail⟩, hrest, h⟩ := ok_of_bind h
      cases h
      have hgrows := (hs.toStraightened.inverterOf hdef.1 hfirst).2.1
      have hfirst := hs.inverterOf hsource.1 hdef.1 hfirst
      rw [← hinv] at hfirst
      exact ih hfirst hsource.2 (fun g hg => hgrows.defined _ (hdef.2 g hg)) hrest
    · next hplain =>
      obtain ⟨⟨m', inverters₂, tail⟩, hrest, h⟩ := ok_of_bind h
      cases h
      refine ih { hs with mem_keys := fun x => ?_ } hsource.2 hdef.2 hrest
      rw [hs.mem_keys, List.mem_append, List.mem_singleton]
      refine (or_iff_left ?_).symm
      rintro rfl
      exact hplain rfl

/-! ## Copying the nodes -/

/-- A node whose fanins are replaced is done, in its place. -/
theorem Copied.replaceNode (hs : Copied source n inverters done (node :: rest) seen)
    (hids : ∀ m ∈ rest, m.id ≠ node.id)
    (hfanins : List.Forall₂ (ReadsLike inverters) node.fanins fanins)
    (h : n.replaceNode node.id node.kind fanins = .ok n') :
    Copied source n' inverters (done ++ [node]) rest seen := by
  have hnext := hs.toStraightened.replaceNode hids hfanins h
  obtain ⟨-, -, rfl⟩ := replaceNode_eq_ok h
  obtain ⟨kept, added, hnodes, hkept, hadded⟩ := hs.layout
  refine ⟨hnext, ⟨kept ++ [{ node with fanins }], added, ?_, ?_, ?_⟩, hs.keys_nodup, hs.mem_keys⟩
  · rw [hs.coherent.nodes_updateNode_of_append hnodes, List.append_cons]
    rfl
  · exact List.rel_append hkept (.cons ⟨rfl, rfl, rfl, hfanins⟩ .nil)
  · exact hadded.imp fun _ _ h => h.of_width rfl

/-- Copying the nodes of a list one after the other. -/
theorem Copied.straightenNodes (hl : source.Legal)
    (hs : Copied source n inverters done rest (done.flatMap Node.fanins))
    (hsource : ∀ node ∈ rest, node ∈ source.nodes) (hids : (rest.map Node.id).Nodup)
    (h : straightenNodes rest n inverters = .ok n') :
    ∃ inverters', Copied source n' inverters' (done ++ rest) []
      ((done ++ rest).flatMap Node.fanins) := by
  induction rest generalizing n inverters done with
  | nil =>
    cases h
    rw [List.append_nil]
    exact ⟨inverters, hs⟩
  | cons node rest ih =>
    obtain ⟨⟨m, inverters₁, fanins⟩, hfanins, h⟩ := ok_of_bind h
    obtain ⟨m', hreplace, h⟩ := ok_of_bind h
    rw [List.map_cons, List.nodup_cons] at hids
    rw [List.forall_mem_cons] at hsource
    have hdef := hs.toStraightened.reads node (hs.pending node (.head _))
    have hlike := (hs.toStraightened.straighten hdef hfanins).2.2
    have hs₁ := hs.straighten (hl.reads node hsource.1) hdef hfanins
    have hother : ∀ k ∈ rest, k.id ≠ node.id :=
      fun k hk hid => hids.1 (hid ▸ List.mem_map_of_mem hk)
    have hs₂ := hs₁.replaceNode hother hlike hreplace
    rw [List.append_cons]
    refine ih ?_ hsource.2 hids.2 h
    rwa [List.flatMap_append, List.flatMap_singleton]

/-! ## The subject graph -/

/-- A subject graph that is a copy of its source without inversions. -/
structure Faithful (source : Netlist) (s : Subject) : Prop where
  valid : s.netlist.validate = .ok ()
  ports : s.netlist.inputs = source.inputs ∧ s.netlist.outputs = source.outputs
  width : ∀ x, source.isTaken x = true → s.netlist.width x = source.width x
  plain : ∀ node ∈ s.netlist.nodes, ∀ f ∈ node.fanins, f.inverted = false
  /-- The nodes of the source, and one NOT node for each signal that is read inverted. -/
  nodes : ∃ (inverters : Inverters) (kept added : List Node), s.netlist.nodes = kept ++ added ∧
    List.Forall₂ (Keeps inverters) source.nodes kept ∧
    List.Forall₂ (Complements source s.netlist) inverters.entries added ∧ inverters.keys.Nodup ∧
    ∀ x, x ∈ inverters.keys ↔ ∃ node ∈ source.nodes, ⟨x, true⟩ ∈ node.fanins
  mirrors : s.netlist.Mirrors source

/-- A signal of the source is defined in the copy if it is in the source. -/
theorem Traced.isDefined_eq (h : Traced source n inverters [])
    (hsignal : source.isTaken signal = true) :
    n.isDefined signal = source.isDefined signal := by
  rw [Bool.eq_iff_iff, isDefined_iff, isDefined_iff, h.inputs]
  refine or_congr_left ⟨?_, ?_⟩
  · rintro ⟨node, hnode, rfl⟩
    rcases h.origin node hnode with ⟨old, hold, hstands⟩ | ⟨s, hinverts⟩
    · exact ⟨old, hold, hstands.output.symm⟩
    · rw [hinverts.fresh] at hsignal
      cases hsignal
  · rintro ⟨old, hold, rfl⟩
    obtain ⟨node, hnode, -, hout⟩ := h.kept old hold
    exact ⟨node, hnode, hout⟩

/-- Every signal of the source has the same value in the subject graph. -/
theorem Traced.mirrors (h : Traced source n inverters []) (hc : source.Coherent)
    (hl : source.Legal) : n.Mirrors source := by
  intro cells e given values he hvalues
  have hv := hl.solution_of_simulate hc he hvalues
  obtain ⟨v', hv', hsame, -⟩ := h.solves cells given _ hv
  obtain ⟨e', values', he', hvalues', hfind'⟩ := (h.legal hl).simulate_of_solution h.coherent hv'
  refine ⟨e', values', he', hvalues', fun x hx => ?_⟩
  obtain ⟨_, _, he₁, hvalues₁, hfind⟩ := hl.simulate_of_solution hc hv
  cases he.symm.trans he₁
  cases hvalues.symm.trans hvalues₁
  have hdefined := h.isDefined_eq hx
  cases hx' : source.isDefined x with
  | true => rw [hfind' x (hdefined.trans hx'), hfind x hx', hsame x hx]
  | false =>
    rw [undefined_of_simulate h.coherent he' hvalues' (hdefined.trans hx'),
      undefined_of_simulate hc he hvalues hx']

/-- A valid netlist has a subject graph, which is a copy of it without inversions. -/
theorem ofNetlist_faithful (hc : source.Coherent) (hvalid : source.validate = .ok ()) :
    ∃ s, ofNetlist source = .ok s ∧ Faithful source s := by
  have hl := hc.legal_of_validate hvalid
  obtain ⟨s, inverters, hs, -, ht⟩ := exists_ofNetlist hc hvalid
  refine ⟨s, hs, ?_⟩
  obtain ⟨-, -, h⟩ := ok_of_bind hs
  obtain ⟨n, hn, h⟩ := ok_of_bind h
  cases h
  obtain ⟨inverters', hcopied⟩ := (copied_source hc hl).straightenNodes hl (fun _ h => h)
    hc.nodeIds_nodup (ok_of_mapError hn)
  obtain ⟨kept, added, hnodes, hkept, hadded⟩ := hcopied.layout
  exact {
    valid := ht.coherent.validate_eq_ok_iff.2 ⟨ht.legal hl, checkWires_rebuildWires n⟩
    ports := ⟨ht.inputs, ht.outputs⟩
    width := fun x hx => (ht.width x hx).2
    plain := fun node hnode f hf => ht.plain_fanin hnode hf
    nodes := by
      refine ⟨inverters', kept, added, hnodes, hkept, hadded.imp fun _ _ h => h.of_width rfl,
        hcopied.keys_nodup, fun x => ?_⟩
      rw [hcopied.mem_keys, List.nil_append, List.mem_flatMap]
    mirrors := ht.mirrors hc hl }

namespace Shared

/-- Two nodes read `a` inverted, at another width than their own, and a name that the first inverter
could have had is declared. -/
def netlist : Netlist where
  name := "shared"
  inputs := ["a", "b"]
  outputs := ["y"]
  widths := ⟨[("a", 2), ("b", 1), ("t", 4), ("y", 2), ("_inv0", 1)].map
    (Prod.map id fun bits => (Width.ofNat? bits).getD .one)⟩
  arena := [some ⟨⟨0⟩, .op .and, [⟨"a", true⟩, ⟨"b", false⟩], "t"⟩, none,
    some ⟨⟨2⟩, .op .or, [⟨"t", true⟩, ⟨"a", true⟩], "y"⟩]
  wires := [⟨"a", ⟨0⟩, 0⟩, ⟨"b", ⟨0⟩, 1⟩, ⟨"t", ⟨2⟩, 0⟩, ⟨"a", ⟨2⟩, 1⟩]
  nextFresh := 0

theorem coherent : netlist.Coherent := by
  refine ⟨fun {i node} h => ?_, by decide, by decide, by decide⟩
  match i, h with
  | 0, h | 2, h =>
    cases h
    rfl

/-- The nodes of its subject graph. -/
def nodes : List Node :=
  [⟨⟨0⟩, .op .and, [.plain "_inv1", .plain "b"], "t"⟩,
    ⟨⟨2⟩, .op .or, [.plain "_inv2", .plain "_inv1"], "y"⟩,
    ⟨⟨3⟩, .op .not, [.plain "a"], "_inv1"⟩, ⟨⟨4⟩, .op .not, [.plain "t"], "_inv2"⟩]

end Shared

/-- The two inverted readings of `a` share their inverter. -/
theorem ofNetlist_faithful_shared :
    Shared.netlist.Coherent ∧ Shared.netlist.validate = .ok () ∧
      ∃ s, ofNetlist Shared.netlist = .ok s ∧ Faithful Shared.netlist s ∧
        s.netlist.nodes = Shared.nodes ∧
        ∃ e' values', Evaluator.ofNetlist s.netlist .none = .ok e' ∧
          e'.simulate ⟨[("a", 1), ("b", 1)]⟩ = .ok values' ∧ values'.find? "y" = some 3 := by
  have hvalid : Shared.netlist.validate = .ok () := by
    rw [Netlist.validate_of_derived (by decide)]
    decide
  have hnodes : (ofNetlist Shared.netlist).toOption.map (fun s => s.netlist.nodes) =
      some Shared.nodes := by
    rw [ofNetlist_of_derived (by decide)]
    decide
  obtain ⟨s, hs, hfaithful⟩ := ofNetlist_faithful Shared.coherent hvalid
  rw [hs] at hnodes
  obtain ⟨e', values', he', hvalues', hsame⟩ :=
    hfaithful.mirrors .none ⟨Shared.netlist, [⟨0⟩, ⟨2⟩], .none⟩ ⟨[("a", 1), ("b", 1)]⟩
      ⟨[("y", 3), ("t", 0), ("a", 1), ("b", 1)]⟩ rfl (by decide)
  exact ⟨Shared.coherent, hvalid, s, hs, hfaithful, Option.some.inj hnodes, e', values', he',
    hvalues', (hsame "y" (by decide)).trans (by decide)⟩

end Subject

end GateSynth
