import GateSynth.Proofs.Library.Generic
import GateSynth.Proofs.Mapping.AreaOptimality
import GateSynth.Proofs.Mapping.Arrivals
import GateSynth.Proofs.Mapping.Remapping

/-!
# Selected and measured arrival times

Each instance of a mapped netlist stands for a node of the subject graph, and its output arrives at
the time that the selection found for this node: both are the times of one cover, which are unique
at every root (`Timed.eq_at_root`). Nothing is asked of sums and maxima, so the two times are the
same double as well (`arrivals_of_extract`).
-/

namespace GateSynth

open Netlist

namespace Selection

variable {ν : Type} [Quantity ν] {lib : Library ν} {s : Subject} {sel : Selection ν}
  {strategy : Strategy} {pairs : List (Node × Match ν)} {time time' : String → ν}

/-- The times of a cover are unique at its roots. -/
theorem Timed.eq_at_root (hlib : lib.Checked) (hs : s.WellFormed) (h : Placed s lib pairs)
    (ht : Timed s pairs time) (ht' : Timed s pairs time') {p : Node × Match ν} (hp : p ∈ pairs) :
    time p.1.output = time' p.1.output := by
  refine h.roots_induction (R := (· = ·)) hlib hs rfl ht.undriven ht'.undriven
    (fun q hq hleaves => ?_) p.1.output fun d hd hdo => ⟨p, hp, ?_⟩
  · rw [ht.root q hq, ht'.root q hq]
    exact Match.arrival_congr hleaves
  · exact List.inj_on_of_nodup_map hs.legal.single (h.node p hp) hd hdo.symm

omit [Quantity ν] in
/-- What can be extracted is the netlist of the instances of a closed set of choices. -/
theorem placed_of_extract (hlib : lib.Checked) (hs : s.WellFormed) (hsound : sel.Sound s lib)
    {mapped : Netlist} (h : sel.extract s = .ok mapped) :
    ∃ needed order, Placed s lib (sel.placements s.netlist needed order) ∧
      (∀ p ∈ sel.placements s.netlist needed order, sel.chosen? p.1.id = some p.2) ∧
      mapped = assembled s.netlist (sel.placements s.netlist needed order) := by
  obtain ⟨order, horder⟩ := hs.legal.topoOrder hs.coherent
  rcases required_cases sel s.netlist with
    ⟨needed, hrequired, hneeded, hchosen⟩ | ⟨id, hrequired, -⟩
  · have hplaced := placed_placements hs hsound horder hneeded hchosen
    have hextract := extract_eq_ok hlib hs horder hrequired hplaced
    exact ⟨needed, order, hplaced, fun p hp => ((mem_placements_iff hs horder hneeded).1 hp).2.2,
      Except.ok.inj (h.symm.trans hextract)⟩
  · rw [extract, hrequired] at h
    cases h

/-- The output of every instance of an extracted netlist arrives when the selection says for the
node that the instance stands for. The mapping arrives at the latest of the selected times of its
outputs. -/
theorem arrivals_of_extract {n mapped : Netlist} (hc : n.Coherent) (hlib : lib.Checked)
    (hsubject : Subject.ofNetlist n = .ok s) (hselect : s.select lib strategy = .ok sel)
    (hextract : sel.extract s = .ok mapped) :
    ∃ arrivals r, lib.arrivals mapped = .ok arrivals ∧
      (∀ k ∈ mapped.nodes, ∃ node ∈ s.netlist.nodes, ∃ choice,
        sel.best.find? node.id = some choice ∧ k.output = node.output ∧
          k.kind = choice.candidate.kind ∧ k.fanins = choice.candidate.leaves.map Fanin.plain ∧
          arrivals.find? k.output = some choice.cost.arrival) ∧
      n.mapOnto lib strategy = .ok r ∧ r.netlist = mapped ∧
      r.criticalArrival = Library.latestOf (mapped.outputs.map (sel.arrival s)) ∧
      (∀ node ∈ s.netlist.nodes, ∀ choice, sel.best.find? node.id = some choice →
        sel.arrival s node.output = choice.cost.arrival) ∧
      ∀ x, s.netlist.driver? x = none → sel.arrival s x = Quantity.zero := by
  have hs := Subject.wellFormed_of_ofNetlist hc hsubject
  have hsettled := settled_of_select hlib hs hselect
  obtain ⟨needed, order, hplaced, hchosen, rfl⟩ :=
    placed_of_extract hlib hs (sound_of_select hselect) hextract
  obtain ⟨arrivals, harrivals⟩ := hplaced.arrivals_isOk hlib hs
  have htimed := hsettled.timed hs hplaced.node hchosen
  have hmeasured := hplaced.timed_of_arrivals hlib hs harrivals
  have hmap : ∃ r, n.mapOnto lib strategy = .ok r ∧
      r.netlist = assembled s.netlist (sel.placements s.netlist needed order) ∧
      r.criticalArrival = Library.criticalArrival
        (assembled s.netlist (sel.placements s.netlist needed order)) arrivals := by
    rw [Netlist.mapOnto, hsubject]
    simp only [bind, Except.bind, hselect, hextract, harrivals, hplaced.totalArea hlib hs]
    exact ⟨_, rfl, rfl, rfl⟩
  obtain ⟨r, hr, hnetlist, hcritical⟩ := hmap
  have hinstance : ∀ k ∈ (assembled s.netlist (sel.placements s.netlist needed order)).nodes,
      ∃ node ∈ s.netlist.nodes, ∃ choice, sel.best.find? node.id = some choice ∧
        k.output = node.output ∧ k.kind = choice.candidate.kind ∧
        k.fanins = choice.candidate.leaves.map Fanin.plain ∧
        arrivals.find? k.output = some choice.cost.arrival := by
    intro k hk
    have hcoherent := coherent_assembled hs (sel.placements s.netlist needed order)
    obtain ⟨cell, -, hfound⟩ := Library.find?_arrivals_output hcoherent harrivals
      (hplaced.legal_assembled hlib hs).single hk
    obtain ⟨p, hp, place, rfl⟩ := mem_nodes_assembled hk
    obtain ⟨choice, hchoice, hm⟩ := Option.map_eq_some_iff.1 (hchosen p hp)
    have htime : (arrivals.find? (instanceAt place p).output).getD Quantity.zero =
        sel.arrival s p.1.output := hmeasured.eq_at_root hlib hs hplaced htimed hp
    rw [arrival_of_best hs (hplaced.node p hp) hchoice] at htime
    refine ⟨p.1, hplaced.node p hp, choice, hchoice, rfl, by rw [hm]; rfl, by rw [hm]; rfl, ?_⟩
    rw [hfound] at htime ⊢
    exact congrArg some htime
  exact ⟨arrivals, r, harrivals, hinstance, hr, hnetlist,
    hcritical.trans (hplaced.criticalArrival_eq hlib hs harrivals htimed),
    fun node hnode choice hchoice => arrival_of_best hs hnode hchoice,
    fun x hx => arrival_of_undriven hx⟩

end Selection

namespace Halves

/-- Cells whose delays are not exact as doubles. The compound cell is smaller but slower than the
two gates that it replaces. -/
def doubleLibrary : Library Float :=
  ⟨"doubles",
    [⟨"INV", .op .not [.pin "A"], ["A"], "Y", 1.0, .uniform 0.1⟩,
      ⟨"AND2", .op .and [.pin "A", .pin "B"], ["A", "B"], "Y", 1.0, .uniform 0.2⟩,
      ⟨"NAND2", .op .not [.op .and [.pin "A", .pin "B"]], ["A", "B"], "Y", 1.0, .uniform 0.7⟩]⟩

end Halves

open Selection in
/-- Both gates that are chosen for their times arrive, as doubles, when the selection says. -/
theorem arrivals_of_extract_halves :
    Halves.netlist.Coherent ∧ Halves.doubleLibrary.Checked ∧
    ∃ s sel mapped arrivals, Subject.ofNetlist Halves.netlist = .ok s ∧
      s.select Halves.doubleLibrary .delayOptimal = .ok sel ∧ sel.extract s = .ok mapped ∧
      Halves.doubleLibrary.arrivals mapped = .ok arrivals ∧ mapped.nodes.length = 2 ∧
      ∀ k ∈ mapped.nodes, ∃ node ∈ s.netlist.nodes, ∃ choice,
        sel.best.find? node.id = some choice ∧ k.output = node.output ∧
          arrivals.find? k.output = some choice.cost.arrival := by
  have hlib : Halves.doubleLibrary.Checked := ⟨by decide, by decide⟩
  have hsubject : Subject.ofNetlist Halves.netlist =
      .ok ⟨Halves.netlist, Halves.netlist.fanout⟩ :=
    Subject.ofNetlist_of_plain Halves.coherent
      ((Netlist.validate_of_derived (by decide)).trans (by decide)) (by decide) (by decide)
  have hs := Subject.wellFormed_of_ofNetlist Halves.coherent hsubject
  have horder : Halves.netlist.topoOrder = .ok [⟨0⟩, ⟨1⟩] := by decide
  have hselect : (⟨Halves.netlist, Halves.netlist.fanout⟩ : Subject).select Halves.doubleLibrary
      .delayOptimal = .ok (along ⟨Halves.netlist, Halves.netlist.fanout⟩ Halves.doubleLibrary
        .delayOptimal [⟨0⟩, ⟨1⟩] .empty) := by
    rw [Subject.select, horder]
    rfl
  generalize hsel : along ⟨Halves.netlist, Halves.netlist.fanout⟩ Halves.doubleLibrary
    .delayOptimal [⟨0⟩, ⟨1⟩] .empty = sel at hselect
  have hboth : (sel.required Halves.netlist).toOption = some [⟨1⟩, ⟨0⟩] := by
    rw [← hsel]
    decide +kernel
  have hrequired := ok_of_toOption hboth
  have hplaces : (sel.placements Halves.netlist [⟨1⟩, ⟨0⟩] [⟨0⟩, ⟨1⟩]).length = 2 := by
    rw [← hsel]
    decide +kernel
  rcases required_cases sel Halves.netlist with
    ⟨needed, hneeded, hdemanded, hchosen⟩ | ⟨id, herror, -⟩
  · cases hrequired.symm.trans hneeded
    have hextract := extract_eq_ok hlib hs horder hrequired
      (placed_placements hs (sound_of_select hselect) horder hdemanded hchosen)
    obtain ⟨arrivals, -, harrivals, hinstances, -⟩ :=
      arrivals_of_extract Halves.coherent hlib hsubject hselect hextract
    refine ⟨Halves.coherent, hlib, _, sel, _, arrivals, hsubject, hselect, hextract, harrivals,
      ?_, fun k hk => ?_⟩
    · rw [nodes_assembled, List.length_mapIdx]
      exact hplaces
    · obtain ⟨node, hnode, choice, hchoice, houtput, -, -, hfound⟩ := hinstances k hk
      exact ⟨node, hnode, choice, hchoice, houtput, hfound⟩
  · rw [hrequired] at herror
    cases herror

end GateSynth
