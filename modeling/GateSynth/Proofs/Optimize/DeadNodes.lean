import GateSynth.Proofs.Netlist.Cones
import GateSynth.Proofs.Optimize.Liveness
import GateSynth.Proofs.Simulation.Reproduction

/-!
# Dropped nodes

The walk from the outputs stays within the cone (`reach_cone`), and what it has reached is closed
under drivers, so the live nodes are the cone (`Coherent.mem_liveNodes_iff`). With a dead node goes
the width of its signal and nothing else of the width table (`dropFrom_widths`): no other node
drives the signal, and as an output it would not be dead. `dropDead_exact` puts this together: what
is left is the cone, with the same cone, and it computes the same.
-/

namespace GateSynth

open Netlist

namespace Liveness

variable {n n' : Netlist} {steps : Nat} {work seen : List NodeId}

/-! ## What is reached -/

/-- The drivers of what a node of the cone reads are in the cone. -/
theorem cone_of_driversOf (hc : n.Coherent) {id d : NodeId} (hid : n.Cone id)
    (hd : d ∈ driversOf n id) : n.Cone d := by
  rw [driversOf] at hd
  split at hd
  · next node hnode =>
    obtain ⟨hm, rfl⟩ := hc.node?_eq_some_iff.1 hnode
    obtain ⟨s, hs, hdriver⟩ := List.mem_filterMap.1 hd
    obtain ⟨f, hf, rfl⟩ := reads_iff.2 hs
    exact .fanin hm hid hf hdriver
  · cases hd

/-- The walk from nodes of the cone stays in the cone. -/
theorem reach_cone (hc : n.Coherent) (hwork : ∀ id ∈ work, n.Cone id)
    (hseen : ∀ id ∈ seen, n.Cone id) : ∀ id ∈ reach n steps work seen, n.Cone id := by
  induction steps generalizing work seen with
  | zero => exact hseen
  | succ steps ih =>
    cases work with
    | nil => exact hseen
    | cons id work =>
      obtain ⟨hid, hwork⟩ := List.forall_mem_cons.1 hwork
      by_cases hold : id ∈ seen
      · rw [reach, if_pos hold]
        exact ih hwork hseen
      · rw [reach_cons hold]
        refine ih (List.forall_mem_append.2 ⟨fun d => cone_of_driversOf hc hid, hwork⟩) ?_
        exact List.forall_mem_append.2 ⟨hseen, List.forall_mem_singleton.2 hid⟩

end Liveness

namespace Netlist

variable {n : Netlist} {id : NodeId}

/-- The live nodes are the cone. -/
theorem Coherent.mem_liveNodes_iff (hc : n.Coherent) : id ∈ n.liveNodes ↔ n.Cone id := by
  constructor
  · intro hlive
    refine Liveness.reach_cone hc (fun d hd => ?_) (by simp) id (Liveness.mem_liveNodes.1 hlive).2
    obtain ⟨o, ho, hdriver⟩ := List.mem_filterMap.1 hd
    exact .output ho hdriver
  · intro hcone
    induction hcone with
    | output ho hdriver =>
      obtain ⟨d, hd, -, rfl⟩ := driver?_eq_some hdriver
      exact Liveness.live_of_output hc ho hd hdriver
    | fanin hm _ hf hdriver ih =>
      obtain ⟨d, hd, -, rfl⟩ := driver?_eq_some hdriver
      exact Liveness.live_of_fanin hc hm ih hf hd hdriver

/-- Of the width table goes the entry of a signal that is no longer used. -/
theorem Coherent.widths_retireSignal (hc : n.Coherent) {s : String} (hfree : n.isDefined s = false)
    (hout : s ∉ n.outputs) {e : String × Width} :
    e ∈ (n.retireSignal s).widths.entries ↔ e ∈ n.widths.entries ∧ e.1 ≠ s := by
  have hunused : ¬ (n.isDefined s || n.isOutput s) = true := by
    rw [hfree, Bool.false_or, isOutput_iff]
    exact hout
  rw [Netlist.retireSignal, if_neg hunused]
  exact Table.mem_entries_swapErase hc.widths_nodup

end Netlist

namespace Liveness

variable {n n' : Netlist} {live : List NodeId} {nodes : List Node}

/-- Nothing drives the signal of a node that is dropped. -/
theorem isDefined_of_dropped {gone : List NodeId} (hl : n.Legal) (h : Without n n' gone) {m : Node}
    (hm : m ∈ n.nodes) : (n'.eraseNode m.id).isDefined m.output = false := by
  rw [← Bool.not_eq_true, isDefined_iff]
  rintro (⟨d, hd, ho⟩ | hin)
  · rw [h.coherent.nodes_eraseNode, List.mem_filter, h.mem_nodes] at hd
    obtain ⟨⟨hd, -⟩, hne⟩ := hd
    have hsame : d = m := List.inj_on_of_nodup_map hl.single hd hm ho
    simp [hsame] at hne
  · have hold : m.output ∈ n.inputs := h.inputs ▸ hin
    exact hl.undriven m hm hold

/-- Of the width table go the entries of the dead nodes' signals. -/
theorem dropFrom_widths {gone : List NodeId} (hl : n.Legal) (h : Without n n' gone)
    (hnodes : nodes ⊆ n.nodes) (hdead : ∀ m ∈ nodes, m.id ∉ live → m.output ∉ n.outputs)
    {e : String × Width} :
    e ∈ (dropFrom live nodes n').widths.entries ↔
      e ∈ n'.widths.entries ∧ ∀ m ∈ nodes, m.id ∉ live → m.output ≠ e.1 := by
  induction nodes generalizing n' gone with
  | nil => simp [dropFrom]
  | cons m rest ih =>
    obtain ⟨hm, hrest⟩ := List.cons_subset.1 hnodes
    obtain ⟨hfirst, hdead⟩ := List.forall_mem_cons.1 hdead
    rw [dropFrom, List.forall_mem_cons]
    by_cases hlive : m.id ∈ live
    · rw [if_pos hlive, ih h hrest hdead]
      simp [hlive]
    · have hout : m.output ∉ (n'.eraseNode m.id).outputs := h.outputs.symm ▸ hfirst hlive
      rw [if_neg hlive, ih (h.drop hm) hrest hdead,
        (h.coherent.eraseNode m.id).widths_retireSignal (isDefined_of_dropped hl h hm) hout]
      simp only [hlive, not_false_eq_true, true_imp_iff, and_assoc, ne_comm]
      rfl

end Liveness

namespace Netlist

variable {n n' : Netlist} {node : Node}

/-- A node is dropped unless it is in the cone. -/
theorem Coherent.mem_dropDead_iff (hc : n.Coherent) :
    node ∈ n.dropDead.1.nodes ↔ node ∈ n.nodes ∧ n.Cone node.id := by
  rw [hc.mem_dropDead, hc.mem_liveNodes_iff]

/-- An entry of the width table is dropped with the node that drives its signal. -/
theorem Legal.mem_widths_dropDead (hl : n.Legal) (hc : n.Coherent) {e : String × Width} :
    e ∈ n.dropDead.1.widths.entries ↔
      e ∈ n.widths.entries ∧ ∀ node ∈ n.nodes, node.output = e.1 → n.Cone node.id := by
  have hdead : ∀ m ∈ n.nodes, m.id ∉ n.liveNodes → m.output ∉ n.outputs := fun m hm hdead ho =>
    hdead (Liveness.live_of_output hc ho hm (driver?_of_mem hl.single hm))
  have hwidths : n.dropDead.1.widths = (Liveness.dropFrom n.liveNodes n.nodes n).widths := by
    rw [dropDead]
    dsimp only
    split <;> rfl
  rw [hwidths, Liveness.dropFrom_widths hl (.refl hc) (List.Subset.refl _) hdead]
  refine and_congr_right fun _ => forall₂_congr fun m _ => ?_
  rw [← hc.mem_liveNodes_iff]
  exact not_imp_not

/-- The cone is still the cone when all else is dropped. -/
theorem Legal.cone_dropDead (hl : n.Legal) (hc : n.Coherent) {id : NodeId} (h : n.Cone id) :
    n.dropDead.1.Cone id := by
  have hp := hl.dropDead_preserved hc
  have hdriver : ∀ {s d}, n.Cone d → n.driver? s = some d → n.dropDead.1.driver? s = some d := by
    intro s d hcone hd
    obtain ⟨node, hm, rfl, rfl⟩ := driver?_eq_some hd
    exact driver?_of_mem hp.legal.single (hc.mem_dropDead_iff.2 ⟨hm, hcone⟩)
  induction h with
  | output ho hd => exact .output (hp.outputs ▸ ho) (hdriver (.output ho hd) hd)
  | fanin hm hcone hf hd ih =>
    exact .fanin (hc.mem_dropDead_iff.2 ⟨hm, hcone⟩) ih hf (hdriver (.fanin hm hcone hf hd) hd)

/-- Live nodes read live nodes only, and so every solution is one without the dead nodes. -/
theorem Legal.dropDead_entails (hl : n.Legal) (hc : n.Coherent) : Entails n n.dropDead.1 := by
  intro cells given v hv
  have h := hc.dropDead_without
  have hp := hl.dropDead_preserved hc
  have hwidth : ∀ s, (∀ d ∈ n.nodes, d.output = s → d.id ∈ n.liveNodes) →
      n.dropDead.1.width s = n.width s := by
    intro s hs
    refine h.width s fun m hm hgone ho => ?_
    exact (h.mem_nodes.1 (hc.mem_dropDead.2 ⟨hm, hs m hm ho⟩)).2 hgone
  refine ⟨fun i hi => ?_, fun node hnode => ?_⟩
  · rw [hp.inputs] at hi
    rw [hp.width i (.inl hi)]
    exact hv.input i hi
  · obtain ⟨hm, hlive⟩ := hc.mem_dropDead.1 hnode
    rw [← hv.node node hm]
    refine Valuation.result_congr rfl (hwidth _ fun d hd ho => ?_)
      (List.map_congr_left fun f hf => Valuation.seen_congr rfl (hwidth _ fun d hd ho => ?_))
    · rwa [List.inj_on_of_nodup_map hl.single hd hm ho]
    · exact Liveness.live_of_fanin hc hm hlive hf hd (by rw [← ho, driver?_of_mem hl.single hd])

/-- Dropping dead nodes is exact: what is left is the cone of the primary outputs, with the nodes as
they were and in their order; the width table loses the entries of the other nodes' signals and no
more; the ports are the same; the netlist puts out what it did; and a second run drops nothing. -/
theorem dropDead_exact (hc : n.Coherent) (hv : n.validate = .ok ()) :
    ∃ n' removed, n.dropDead = (n', removed) ∧ n'.nodeCount + removed = n.nodeCount ∧
      n'.nodes.Sublist n.nodes ∧
      (∀ node, node ∈ n'.nodes ↔ node ∈ n.nodes ∧ n.Cone node.id) ∧
      (∀ entry, entry ∈ n'.widths.entries ↔
        entry ∈ n.widths.entries ∧ ∀ node ∈ n.nodes, node.output = entry.1 → n.Cone node.id) ∧
      n'.name = n.name ∧ n'.inputs = n.inputs ∧ n'.outputs = n.outputs ∧
      (∀ port, port ∈ n.inputs ∨ port ∈ n.outputs → n'.width port = n.width port) ∧
      n'.Reproduces n ∧ n'.dropDead = (n', 0) := by
  have hl := hc.legal_of_validate hv
  have hp := hl.dropDead_preserved hc
  refine ⟨n.dropDead.1, n.dropDead.2, rfl, ?_, ?_, fun node => hc.mem_dropDead_iff,
    fun e => hl.mem_widths_dropDead hc, hp.name, hp.inputs, hp.outputs, hp.width,
    (hl.dropDead_entails hc).reproduces hp hl hc, dropDead_of_live fun m hm => ?_⟩
  · rw [dropDead_count]
    exact Nat.add_sub_cancel' hp.nodeCount
  · rw [hc.dropDead_without.nodes]
    exact List.filter_sublist
  · rw [hp.coherent.mem_liveNodes_iff]
    exact hl.cone_dropDead hc (hc.mem_dropDead_iff.1 hm).2

end Netlist

namespace DeadChain

/-- A gate that is put out among three that are not: one with a reader, its reader, and one of four
bits. -/
def netlist : Netlist where
  name := "chain"
  inputs := ["a", "b"]
  outputs := ["y"]
  widths := ⟨[("a", 2), ("b", 2), ("s", 2), ("t", 1), ("y", 2), ("w", 4)].map
    (Prod.map id fun bits => (Width.ofNat? bits).getD .one)⟩
  arena := [some ⟨⟨0⟩, .op .or, [.plain "a", .plain "b"], "s"⟩,
    some ⟨⟨1⟩, .op .and, [.plain "b", ⟨"a", true⟩], "y"⟩,
    some ⟨⟨2⟩, .op .not, [.plain "s"], "t"⟩,
    some ⟨⟨3⟩, .op .add, [.plain "y", .plain "y"], "w"⟩]
  wires := [⟨"a", ⟨0⟩, 0⟩, ⟨"b", ⟨0⟩, 1⟩, ⟨"b", ⟨1⟩, 0⟩, ⟨"a", ⟨1⟩, 1⟩, ⟨"s", ⟨2⟩, 0⟩,
    ⟨"y", ⟨3⟩, 0⟩, ⟨"y", ⟨3⟩, 1⟩]
  nextFresh := 0

theorem coherent : netlist.Coherent := by
  refine ⟨fun {i node} h => ?_, by decide, by decide, by decide⟩
  match i, h with
  | 0, h | 1, h | 2, h | 3, h =>
    cases h
    rfl

end DeadChain

/-- One gate and three widths are left. -/
theorem dropDead_exact_deadChain :
    DeadChain.netlist.Coherent ∧ DeadChain.netlist.validate = .ok () ∧
      ∃ n', DeadChain.netlist.dropDead = (n', 3) ∧ n'.nodes.map Node.id = [⟨1⟩] ∧
        n'.widths.keys = ["a", "b", "y"] ∧ n'.dropDead = (n', 0) ∧
        ∃ e, Evaluator.ofNetlist n' (fun _ _ _ _ => none) = .ok e ∧
          e.evaluate ⟨[("a", 1), ("b", 3)]⟩ = .ok [("y", 2)] := by
  have hvalid : DeadChain.netlist.validate = .ok () := by
    rw [Netlist.validate_of_derived (by decide)]
    decide
  obtain ⟨n', removed, hdrop, -, -, -, -, -, -, -, -, hreproduces, hagain⟩ :=
    Netlist.dropDead_exact DeadChain.coherent hvalid
  have hsummary : (fun r : Netlist × Nat => (r.2, r.1.nodes.map Node.id, r.1.widths.keys))
      DeadChain.netlist.dropDead = (3, [⟨1⟩], ["a", "b", "y"]) := by decide
  rw [hdrop] at hsummary
  simp only [Prod.mk.injEq] at hsummary
  obtain ⟨rfl, hnodes, hwidths⟩ := hsummary
  refine ⟨DeadChain.coherent, hvalid, n', hdrop, hnodes, hwidths, hagain, ?_⟩
  exact hreproduces _ ⟨DeadChain.netlist, [⟨0⟩, ⟨1⟩, ⟨2⟩, ⟨3⟩], fun _ _ _ _ => none⟩ _ _
    rfl (by decide)

end GateSynth
