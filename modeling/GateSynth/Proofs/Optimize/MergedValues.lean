import GateSynth.Proofs.Optimize.Merging
import GateSynth.Proofs.Simulation.Reproduction

/-!
# Values of merged nodes

Nodes of one signature have one value: they read the same signals at the same widths, in another
order at most where the order does not matter (`result_eq_of_signature`). So in every solution the
signals that a sweep merges have the values and widths of those that are read instead, and a
solution is kept through the visits and through the redirection at the end (`sweep_entails`).

The last sweep of `mergeEqual` finds nothing left to merge (`mergeSweeps_settled`).
-/

namespace GateSynth

open Netlist

namespace Merging

variable {n N : Netlist} {sub : Substitution} {a b node rep : Node} {cells : CellFunctions}
  {given : Values} {v : Valuation}

/-! ## Equal signatures -/

theorem Signature.fanins_eq {kind kind' : Kind} {fanins fanins' : List Fanin} {w w' : Width}
    (h : Signature.of kind fanins w = Signature.of kind' fanins' w')
    (hordered : kind.isCommutative = false) : fanins = fanins' := by
  simp only [Signature.of, Signature.mk.injEq] at h
  obtain ⟨rfl, hfanins, -⟩ := h
  simpa only [hordered, Bool.false_eq_true, if_false] using hfanins

/-- Nodes whose fanins see what the fanins of one signature see have one result. -/
theorem result_eq_of_signature {xs ys : List Fanin}
    (hsig : Signature.of a.kind xs (n.width a.output) = Signature.of b.kind ys (n.width b.output))
    (hxs : xs.map (v.seen n) = a.fanins.map (v.seen n))
    (hys : ys.map (v.seen n) = b.fanins.map (v.seen n))
    (harity : ∀ k, a.kind.arity? = some k → k = a.fanins.length) :
    v.result n cells a = v.result n cells b := by
  obtain ⟨hkind, hperm, hwidth⟩ := Signature.of_inj hsig
  cases hcomm : a.kind.isCommutative with
  | false =>
    refine Valuation.result_congr hkind hwidth ?_
    rw [← hxs, ← hys, Signature.fanins_eq hsig hcomm]
  | true =>
    cases hop : a.kind with
    | op op =>
      rw [hop] at hcomm hkind
      have hlength : (a.fanins.map (v.seen n)).length = 2 := by
        rw [List.length_map, ← harity op.arity (by rw [hop]; rfl)]
        exact op.arity_of_isCommutative hcomm
      have hoperands : (a.fanins.map (v.seen n)).Perm (b.fanins.map (v.seen n)) := by
        rw [← hxs, ← hys]
        exact hperm.map _
      simp only [Valuation.result, hop, ← hkind, ← hwidth]
      rw [Operator.value_perm hcomm hlength hoperands]
    | const value =>
      rw [hop] at hcomm
      cases hcomm
    | module name =>
      rw [hop] at hcomm
      cases hcomm
    | cell name init =>
      rw [hop] at hcomm
      cases hcomm

/-! ## Substitutions between equal signals -/

/-- What is read in place of a signal has its value and its width. -/
def Faithful (n : Netlist) (v : Valuation) (sub : Substitution) : Prop :=
  ∀ ⦃key f⦄, sub.find? key = some f → v f.signal = v key ∧ n.width f.signal = n.width key

namespace Faithful

theorem target (h : Faithful n v sub) (s : String) :
    v (target sub s) = v s ∧ n.width (Netlist.target sub s) = n.width s := by
  cases hs : sub.find? s with
  | none => rw [target_of_none hs]; exact ⟨rfl, rfl⟩
  | some f =>
    cases hf : sub.find? f.signal with
    | none =>
      rw [target_of_some hs hf]
      exact h hs
    | some g =>
      rw [target_of_two hs hf]
      exact ⟨(h hf).1.trans (h hs).1, (h hf).2.trans (h hs).2⟩

theorem seen_retarget (h : Faithful n v sub) (f : Fanin) :
    v.seen n (retarget sub f) = v.seen n f := by
  obtain ⟨hvalue, hwidth⟩ := h.target f.signal
  simp only [Valuation.seen, retarget, hvalue, hwidth]

/-- Fanins that end alike see the same. -/
theorem map_seen (h : Faithful n v sub) {xs ys : List Fanin}
    (heq : xs.map (retarget sub) = ys.map (retarget sub)) :
    xs.map (v.seen n) = ys.map (v.seen n) := by
  have hmap : ∀ zs : List Fanin, (zs.map (retarget sub)).map (v.seen n) = zs.map (v.seen n) :=
    fun zs => by
      rw [List.map_map]
      exact List.map_congr_left fun f _ => h.seen_retarget f
  rw [← hmap xs, heq, hmap ys]

theorem insert (h : Faithful n v sub) {key goal : String} (hvalue : v goal = v key)
    (hwidth : n.width goal = n.width key) : Faithful n v (sub.insert key (.plain goal)) := by
  intro k f hk
  rw [Table.find?_insert] at hk
  split at hk
  · next heq =>
    cases hk
    rw [heq]
    exact ⟨hvalue, hwidth⟩
  · exact h hk

end Faithful

/-- Read through a faithful substitution the nodes keep their results. -/
theorem Reduced.solution (h : Reduced n N sub) (hl : n.Legal) (hsub : Faithful n v sub)
    (hresults : ∀ m ∈ N.nodes, v.result n cells m = some (v m.output))
    (hv : n.Solution cells given v) : (N.redirect sub).1.Solution cells given v := by
  constructor
  · intro i hi
    have hin : i ∈ n.inputs := h.inputs ▸ hi
    have hfree : sub.find? i = none := by
      cases hfind : sub.find? i with
      | none => rfl
      | some f =>
        obtain ⟨m, hm, rfl⟩ := h.keys hfind
        exact absurd hin (hl.undriven m hm)
    have hwidth : (N.redirect sub).1.width i = n.width i := h.width i hfree
    rw [hwidth]
    exact hv.input i hin
  · intro m hm
    rw [h.nodes_redirect] at hm
    obtain ⟨old, hold, rfl⟩ := List.mem_map.1 hm
    rw [← hresults old hold]
    refine Valuation.result_congr rfl (h.width _ (h.gone old hold)) ?_
    rw [List.map_map]
    refine List.map_congr_left fun f _ => ?_
    rw [← hsub.seen_retarget f]
    exact Valuation.seen_congr rfl (h.width _ (h.short.find?_target f.signal))

/-! ## Visits -/

/-- The valuation gives the nodes of a sweep under way their results, and merged signals have the
values and widths of what is read instead. -/
structure Sweep.Solved (n : Netlist) (cells : CellFunctions) (v : Valuation) (s : Sweep) :
    Prop where
  faithful : Faithful n v s.substitution
  results : ∀ m ∈ s.netlist.nodes, v.result n cells m = some (v m.output)

section Visits
variable {order before after : List NodeId} {s s' : Sweep} {id : NodeId}

/-- A node has the value and the width of the one that stands for its signature. -/
theorem Sweep.Solved.rep_eq (hs : s.Solved n cells v) (h : s.Sound n order before (id :: after))
    (hm : node ∈ s.netlist.nodes)
    (hfind : s.Represents (s.signature node) rep) :
    v rep.output = v node.output ∧ n.width rep.output = n.width node.output := by
  obtain ⟨hr, -, xs, hrsig, hrmap⟩ := h.of_represents hfind
  obtain ⟨ys, hnsig, hnmap⟩ := Sweep.Sound.signature h.reduced hm
  have hsig := hrsig.symm.trans hnsig
  have hresult : v.result n cells rep = v.result n cells node :=
    result_eq_of_signature hsig (hs.faithful.map_seen hrmap) (hs.faithful.map_seen hnmap)
      (h.reduced.arity rep hr)
  rw [hs.results rep hr, hs.results node hm] at hresult
  exact ⟨Option.some.inj hresult, (Signature.of_inj hsig).2.2⟩

theorem Sweep.Step.solved (h : s.Sound n order before (id :: after)) (hstep : s.Step id s')
    (hs : s.Solved n cells v) : s'.Solved n cells v := by
  have hc := h.reduced.coherent
  cases hstep with
  | skip => exact hs
  | store => exact ⟨hs.faithful, hs.results⟩
  | mergeNode hnode _ hfind _ =>
    obtain ⟨hm, -⟩ := hc.node?_eq_some_iff.1 hnode
    obtain ⟨hvalue, hwidth⟩ := hs.rep_eq h hm hfind
    exact ⟨hs.faithful.insert hvalue hwidth,
      fun m hm' => hs.results m ((mem_dropNode hc hm).1 hm').1⟩
  | mergeRep hnode _ hfind _ _ =>
    obtain ⟨hm, -⟩ := hc.node?_eq_some_iff.1 hnode
    obtain ⟨hvalue, hwidth⟩ := hs.rep_eq h hm hfind
    have hr := hfind.there
    exact ⟨hs.faithful.insert hvalue.symm hwidth.symm,
      fun m hm' => hs.results m ((mem_dropNode hc hr).1 hm').1⟩
  | @mergePorts node rep hnode _ hfind _ _ =>
    obtain ⟨hm, -⟩ := hc.node?_eq_some_iff.1 hnode
    obtain ⟨hvalue, hwidth⟩ := hs.rep_eq h hm hfind
    refine ⟨hs.faithful, fun m hm' => ?_⟩
    rcases (hc.mem_nodes_updateNode hm).1 hm' with rfl | ⟨hm', -⟩
    · have hfits := Valuation.truncate_result (hs.results node hm)
      have hseen : v.seen n (.plain rep.output) = v node.output := hvalue
      simp only [Valuation.result, List.map_singleton, hseen, Operator.value_buf, hfits]
    · exact hs.results m hm'

end Visits

/-- A sweep keeps every solution. -/
theorem sweep_entails {n' : Netlist} {merged : Nat} (hl : n.Legal) (hc : n.Coherent)
    (hsweep : sweep n = (n', .ok merged)) : Entails n n' := by
  intro cells given v hv
  obtain ⟨order, horder⟩ := hl.topoOrder hc
  obtain ⟨s, hs, hsound, hsolved⟩ := sweep_run (P := fun _ s => s.Solved n cells v) hl hc horder
    (fun _ _ _ _ _ _ hsound hsolved hstep => hstep.solved hsound hsolved)
    ⟨fun _ _ hfind => (by cases hfind), hv.node⟩
  rw [hs] at hsweep
  cases hsweep
  exact hsound.reduced.solution hl hsolved.faithful hsolved.results hv

/-- Sweeps keep every solution, and the last one finds nothing to merge. -/
theorem mergeSweeps_settled (hl : n.Legal) (hc : n.Coherent) (count : Nat) :
    Entails n (n.mergeSweeps count).1 ∧
      sweep (n.mergeSweeps count).1 = ((n.mergeSweeps count).1, .ok 0) := by
  induction n, count, hl, hc using mergeSweeps_induct_legal with
  | last n count hl hc hlast =>
    rw [mergeSweeps_of_none hlast]
    exact ⟨.refl n, hlast⟩
  | more n count m merged hl hc hmore hsome hswept ih =>
    rw [mergeSweeps_of_some hmore hsome]
    exact ⟨(sweep_entails hl hc hmore).trans ih.1, ih.2⟩

end Merging

namespace Netlist

variable {n : Netlist}

/-- Merging equal nodes keeps the function of a netlist: it succeeds, ends with a sweep that has
nothing to merge, and leaves a netlist in order that puts out the same. -/
theorem mergeEqual_reproduces (hc : n.Coherent) (hv : n.validate = .ok ()) :
    ∃ n' merged, n.mergeEqual = (n', .ok merged) ∧ Merging.sweep n' = (n', .ok 0) ∧
      n'.Reproduces n ∧ n'.inputs = n.inputs ∧ n'.outputs = n.outputs ∧
      (∀ port, port ∈ n.inputs ∨ port ∈ n.outputs → n'.width port = n.width port) ∧
      (∃ order, n'.topoOrder = .ok order) ∧
      ∀ node ∈ n'.nodes, ∀ f ∈ node.fanins, n'.isDefined f.signal = true := by
  have hl := hc.legal_of_validate hv
  obtain ⟨n', merged, hmerge, hswept⟩ := hl.mergeEqual_swept hc
  have hp := hswept.preserved
  obtain ⟨hentails, hend⟩ := Merging.mergeSweeps_settled hl hc 0
  rw [← mergeEqual, hmerge] at hentails hend
  exact ⟨n', merged, hmerge, hend, hentails.reproduces hp hl hc, hp.inputs, hp.outputs, hp.width,
    hp.legal.topoOrder hp.coherent, hp.legal.reads⟩

end Netlist

namespace EqualGates

/-- Three gates `a AND b`, of which two drive outputs, and readers of the third that invert it. -/
def netlist : Netlist where
  name := "equal"
  inputs := ["a", "b"]
  outputs := ["y", "z", "u"]
  widths := ⟨["a", "b", "s", "y", "t", "z", "u"].map (·, (Width.ofNat? 2).getD .one)⟩
  arena := [some ⟨⟨0⟩, .op .and, [.plain "a", .plain "b"], "s"⟩,
    some ⟨⟨1⟩, .op .and, [.plain "b", .plain "a"], "y"⟩,
    some ⟨⟨2⟩, .op .xor, [.plain "s", ⟨"y", true⟩], "t"⟩,
    some ⟨⟨3⟩, .op .xor, [⟨"s", true⟩, .plain "t"], "z"⟩,
    some ⟨⟨4⟩, .op .and, [.plain "a", .plain "b"], "u"⟩]
  wires := [⟨"a", ⟨0⟩, 0⟩, ⟨"b", ⟨0⟩, 1⟩, ⟨"b", ⟨1⟩, 0⟩, ⟨"a", ⟨1⟩, 1⟩, ⟨"s", ⟨2⟩, 0⟩, ⟨"y", ⟨2⟩, 1⟩,
    ⟨"s", ⟨3⟩, 0⟩, ⟨"t", ⟨3⟩, 1⟩, ⟨"a", ⟨4⟩, 0⟩, ⟨"b", ⟨4⟩, 1⟩]
  nextFresh := 0

theorem coherent : netlist.Coherent := by
  refine ⟨fun {i node} h => ?_, by decide, by decide, by decide⟩
  match i, h with
  | 0, h | 1, h | 2, h | 3, h | 4, h =>
    cases h
    rfl

theorem valid : netlist.validate = .ok () := by
  rw [Netlist.validate_of_derived (by decide)]
  decide

theorem merged : netlist.mergeEqual.2 = .ok 2 ∧ netlist.mergeEqual.1.nodeCount = 4 := by
  have hrun : (netlist.mergeEqual.2, netlist.mergeEqual.1.nodeCount) = (.ok 2, 4) := by cbv
  exact Prod.mk.inj hrun

end EqualGates

/-- The gate `s` gives way to the output `y`, of which the output `u` becomes a buffer. -/
theorem mergeEqual_reproduces_equalGates :
    EqualGates.netlist.Coherent ∧ EqualGates.netlist.validate = .ok () ∧
      ∃ n', EqualGates.netlist.mergeEqual = (n', .ok 2) ∧ n'.nodeCount = 4 ∧
        ∃ e, Evaluator.ofNetlist n' .none = .ok e ∧
          e.evaluate ⟨[("a", 3), ("b", 2)]⟩ = .ok [("y", 2), ("z", 2), ("u", 2)] := by
  obtain ⟨n', merged, hmerge, -, hreproduces, -⟩ :=
    Netlist.mergeEqual_reproduces EqualGates.coherent EqualGates.valid
  obtain ⟨hmerged, hcount⟩ := EqualGates.merged
  rw [hmerge] at hmerged hcount
  cases hmerged
  refine ⟨EqualGates.coherent, EqualGates.valid, n', hmerge, hcount, ?_⟩
  exact hreproduces _ ⟨EqualGates.netlist, [⟨0⟩, ⟨1⟩, ⟨2⟩, ⟨3⟩, ⟨4⟩], .none⟩ _ _
    rfl (by decide)

end GateSynth
