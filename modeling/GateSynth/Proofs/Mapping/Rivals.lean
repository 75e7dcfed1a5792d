import GateSynth.Proofs.Mapping.ExactCosts
import GateSynth.Proofs.Mapping.Remapping
import Mathlib.Data.List.Pairwise
import Mathlib.Data.Prod.Lex
import Mathlib.Logic.Relation

/-!
# Rivals of a choice

Matches are compared one after the other, and with a tolerance. No match behind the chosen one beats
it. A match ahead of it may: it was given up for a match that it does not beat, and from there the
scan drifted to the choice, each match beating only the one before (`foldl_prefer_rivals`). Nothing
beats the choice where the comparison ranks the matches (`Choice.Ranked`), as it does with rational
costs that differ by more than the tolerance wherever they differ (`Choice.ranked_of_resolved`).
-/

namespace GateSynth

open Relation

section
variable {ν : Type} [Quantity ν] {strategy : Strategy}

/-- The cost of the first choice is really better than that of the second. -/
def Choice.Beats (strategy : Strategy) (c d : Choice ν) : Prop :=
  Cost.isBetter strategy c.cost d.cost = true

/-- Comparing ranks the choices: not both of two beat each other, and what does not beat a choice
does not beat those either that the choice does not beat. -/
structure Choice.Ranked (strategy : Strategy) (choices : List (Choice ν)) : Prop where
  asymm : ∀ c ∈ choices, ∀ d ∈ choices, c.Beats strategy d → ¬ d.Beats strategy c
  trans : ∀ c ∈ choices, ∀ d ∈ choices, ∀ e ∈ choices,
    ¬ c.Beats strategy d → ¬ d.Beats strategy e → ¬ c.Beats strategy e

/-- One choice of a list is given up for another one that beats it. -/
def Choice.Displaced (strategy : Strategy) (choices : List (Choice ν)) (c d : Choice ν) : Prop :=
  c ∈ choices ∧ d ∈ choices ∧ d.Beats strategy c

namespace Selection

variable {choices : List (Choice ν)} {kept best : Choice ν}

/-! ## The scan -/

theorem displaced_mono {choices' : List (Choice ν)} (h : choices ⊆ choices') {c d : Choice ν}
    (hcd : ReflTransGen (Choice.Displaced strategy choices) c d) :
    ReflTransGen (Choice.Displaced strategy choices') c d :=
  ReflTransGen.mono (fun _ _ hstep => ⟨h hstep.1, h hstep.2.1, hstep.2.2⟩) _ _ hcd

/-- What the scan leaves of a choice ahead of the best one: it or a choice that it does not beat was
kept, and given up for choices that each beat the one before, the best one last. -/
def GivenUp (strategy : Strategy) (choices : List (Choice ν)) (best c : Choice ν) : Prop :=
  ∃ first ∈ choices, (c = first ∨ ¬ c.Beats strategy first) ∧
    ReflTransGen (Choice.Displaced strategy choices) first best

theorem GivenUp.mono {choices' : List (Choice ν)} (h : choices ⊆ choices') {c : Choice ν}
    (hc : GivenUp strategy choices best c) : GivenUp strategy choices' best c := by
  obtain ⟨first, hfirst, hnot, hchain⟩ := hc
  exact ⟨first, h hfirst, hnot, displaced_mono h hchain⟩

/-- The scan ends at a choice that nothing behind it beats, and whatever is ahead of it was given
up. -/
theorem foldl_prefer_rivals_of_some (h : choices.foldl (prefer strategy) (some kept) = some best) :
    ReflTransGen (Choice.Displaced strategy (kept :: choices)) kept best ∧
      ∃ before after, kept :: choices = before ++ best :: after ∧
        (∀ c ∈ after, ¬ c.Beats strategy best) ∧
        ∀ c ∈ before, GivenUp strategy (kept :: choices) best c := by
  induction choices generalizing kept with
  | nil =>
    cases h
    exact ⟨.refl, [], [], rfl, nofun, nofun⟩
  | cons next rest ih =>
    rw [List.foldl_cons, prefer] at h
    split at h
    · next hbeats =>
      obtain ⟨hchain, before, after, hsplit, hafter, hbefore⟩ := ih h
      have hsub : next :: rest ⊆ kept :: next :: rest := List.subset_cons_self _ _
      have hchain' : ReflTransGen (Choice.Displaced strategy (kept :: next :: rest)) kept best :=
        .head ⟨.head _, .tail _ (.head _), hbeats⟩ (displaced_mono hsub hchain)
      refine ⟨hchain', kept :: before, after, by rw [hsplit, List.cons_append], hafter, ?_⟩
      rw [List.forall_mem_cons]
      exact ⟨⟨kept, .head _, .inl rfl, hchain'⟩, fun c hc => (hbefore c hc).mono hsub⟩
    · next hnot =>
      obtain ⟨hchain, before, after, hsplit, hafter, hbefore⟩ := ih h
      have hsub : kept :: rest ⊆ kept :: next :: rest :=
        List.cons_subset_cons _ (List.subset_cons_self _ _)
      have hchain' := displaced_mono hsub hchain
      refine ⟨hchain', ?_⟩
      cases before with
      | nil =>
        cases hsplit
        exact ⟨[], next :: rest, rfl, List.forall_mem_cons.2 ⟨hnot, hafter⟩, nofun⟩
      | cons first before =>
        cases hsplit
        refine ⟨kept :: next :: before, after, rfl, hafter, ?_⟩
        simp only [List.forall_mem_cons] at hbefore ⊢
        exact ⟨hbefore.1.mono hsub, ⟨kept, .head _, .inr hnot, hchain'⟩,
          fun c hc => (hbefore.2 c hc).mono hsub⟩

theorem foldl_prefer_rivals (h : choices.foldl (prefer strategy) none = some best) :
    ∃ before after, choices = before ++ best :: after ∧
      (∀ c ∈ after, ¬ c.Beats strategy best) ∧ ∀ c ∈ before, GivenUp strategy choices best c := by
  cases choices with
  | nil => cases h
  | cons kept rest => exact (foldl_prefer_rivals_of_some h).2

/-- Where the choices are ranked, none is beaten by one that it was given up for. -/
theorem GivenUp.not_beats {c : Choice ν} (h : GivenUp strategy choices best c)
    (hranked : Choice.Ranked strategy choices) (hc : c ∈ choices) : ¬ c.Beats strategy best := by
  obtain ⟨first, hfirst, hnot, hchain⟩ := h
  induction hchain with
  | refl =>
    rcases hnot with rfl | hnot
    · exact fun hself => hranked.asymm c hc c hc hself hself
    · exact hnot
  | tail _ hstep ih =>
    obtain ⟨hd, he, hbeats⟩ := hstep
    exact hranked.trans c hc _ hd _ he ih (hranked.asymm _ he _ hd hbeats)

/-- Of ranked choices none beats the one that is preferred. -/
theorem not_beats_of_ranked (hranked : Choice.Ranked strategy choices)
    (h : choices.foldl (prefer strategy) none = some best) :
    ∀ c ∈ choices, ¬ c.Beats strategy best := by
  obtain ⟨before, after, hsplit, hafter, hbefore⟩ := foldl_prefer_rivals h
  intro c hc
  have hmem := hsplit ▸ hc
  rw [List.mem_append, List.mem_cons] at hmem
  rcases hmem with hmem | rfl | hmem
  · exact (hbefore c hmem).not_beats hranked hc
  · exact fun hself => hranked.asymm c hc c hc hself hself
  · exact hafter c hmem

/-! ## Candidates -/

section
variable {sel : Selection ν} {s : Subject} {candidates : List (Match ν)}

/-- A match of a list that can be used, at its place and at its cost. -/
structure Candidate (sel : Selection ν) (s : Subject) (candidates : List (Match ν))
    (c : Choice ν) : Prop where
  place : candidates[c.index]? = some c.candidate
  cost : sel.costOf s c.candidate = .ok c.cost

theorem mem_usable_iff {c : Choice ν} :
    c ∈ sel.usable s candidates ↔ sel.Candidate s candidates c := by
  rw [usable, List.mem_filterMap]
  constructor
  · rintro ⟨⟨m, index⟩, hm, hc⟩
    dsimp only at hc
    split at hc
    · next cost hcost =>
      cases hc
      exact ⟨List.mem_zipIdx_iff_getElem?.1 hm, hcost⟩
    · cases hc
  · rintro ⟨hplace, hcost⟩
    exact ⟨(c.candidate, c.index), List.mem_zipIdx_iff_getElem?.2 hplace, by simp only [hcost]⟩

/-- The matches that can be used are those with a cost. -/
theorem exists_candidate_iff {m : Match ν} (hm : m ∈ candidates) :
    (∃ c, sel.Candidate s candidates c ∧ c.candidate = m) ↔ ∃ cost, sel.costOf s m = .ok cost := by
  constructor
  · rintro ⟨c, hc, rfl⟩
    exact ⟨c.cost, hc.cost⟩
  · rintro ⟨cost, hcost⟩
    obtain ⟨c, hc, hcm, -⟩ := exists_mem_usable hm hcost
    exact ⟨c, mem_usable_iff.1 hc, hcm⟩

/-- The usable matches stand in the order of their places. -/
theorem pairwise_usable (sel : Selection ν) (s : Subject) (candidates : List (Match ν)) :
    (sel.usable s candidates).Pairwise fun c d => c.index < d.index := by
  have hplaces : candidates.zipIdx.Pairwise fun a b => a.2 < b.2 := by
    rw [← List.pairwise_map, List.zipIdx_map_snd]
    exact List.pairwise_lt_range'
  refine hplaces.filterMap _ fun a b hab c hc d hd => ?_
  dsimp only at hc hd
  split at hc
  · cases hc
    split at hd
    · cases hd
      exact hab
    · cases hd
  · cases hc

end

end Selection

open Selection in
/-- A coverable node has a choice among its matches with covered leaves. No such match behind the
choice beats it; one ahead of it was given up, in the end for the choice, by steps each of which
took a match for one that beats it. Where comparing ranks the matches, none at all beats the
choice. -/
theorem Subject.select_rivals {n : Netlist} {s : Subject} {lib : Library ν} {sel : Selection ν}
    {node : Node} (hc : n.Coherent) (hlib : lib.Checked) (hsubject : Subject.ofNetlist n = .ok s)
    (hselect : s.select lib strategy = .ok sel) (hnode : node ∈ s.netlist.nodes)
    (hcoverable : s.Coverable lib node.id) :
    (∀ m ∈ s.nodeMatches lib node, (∃ rival, sel.Candidate s (s.nodeMatches lib node) rival ∧
        rival.candidate = m) ↔
      ∀ leaf ∈ m.leaves, ∀ d, s.netlist.driver? leaf = some d → s.Coverable lib d) ∧
    ∃ choice, sel.best.find? node.id = some choice ∧
      sel.Candidate s (s.nodeMatches lib node) choice ∧
      (∀ rival, sel.Candidate s (s.nodeMatches lib node) rival →
        (choice.index < rival.index → ¬ rival.Beats strategy choice) ∧
        (rival.index < choice.index →
          GivenUp strategy (sel.usable s (s.nodeMatches lib node)) choice rival)) ∧
      (Choice.Ranked strategy (sel.usable s (s.nodeMatches lib node)) →
        ∀ rival, sel.Candidate s (s.nodeMatches lib node) rival →
          ¬ rival.Beats strategy choice) := by
  have hs := Subject.wellFormed_of_ofNetlist hc hsubject
  have hsettled := settled_of_select hlib hs hselect
  refine ⟨fun m hm => ?_, ?_⟩
  · rw [exists_candidate_iff hm, costOf_isOk_iff_of_nodeMatches hlib hs hnode hm]
    refine forall₄_congr fun leaf _ d hd => ?_
    obtain ⟨below, hbelow, -, rfl⟩ := Netlist.driver?_eq_some hd
    exact hsettled.chosen?_isSome_iff hlib hs hbelow
  have hsome := (hsettled.chosen?_isSome_iff hlib hs hnode).2 hcoverable
  rw [chosen?, Option.isSome_map] at hsome
  obtain ⟨choice, hchoice⟩ := Option.isSome_iff_exists.1 hsome
  have hfold := (hsettled.best node hnode).symm.trans hchoice
  have hmem := (mem_of_foldl_prefer hfold).resolve_left (Option.some_ne_none choice).symm
  obtain ⟨before, after, hsplit, hafter, hbefore⟩ := foldl_prefer_rivals hfold
  have hplaces := pairwise_usable sel s (s.nodeMatches lib node)
  rw [hsplit, List.pairwise_append, List.pairwise_cons] at hplaces
  obtain ⟨-, ⟨hlater, -⟩, hearlier⟩ := hplaces
  have hunbeaten := fun hranked rival hrival =>
    not_beats_of_ranked hranked hfold rival (mem_usable_iff.2 hrival)
  refine ⟨choice, hchoice, mem_usable_iff.1 hmem, fun rival hrival => ?_, hunbeaten⟩
  have hrival := mem_usable_iff.2 hrival
  rw [hsplit, List.mem_append, List.mem_cons] at hrival
  rcases hrival with hrival | rfl | hrival
  · exact ⟨fun hlt => absurd hlt (hearlier rival hrival choice (.head _)).not_gt,
      fun _ => hbefore rival hrival⟩
  · exact ⟨fun hlt => absurd hlt (lt_irrefl _), fun hlt => absurd hlt (lt_irrefl _)⟩
  · exact ⟨fun _ => hafter rival hrival, fun hlt => absurd hlt (hlater rival hrival).not_gt⟩

end

/-! ## Rational costs that are told apart -/

section
variable {strategy : Strategy} {choices : List (Choice ℚ)}

/-- In both quantities the choices are equal or differ by more than the tolerance. -/
def Choice.Resolved (strategy : Strategy) (choices : List (Choice ℚ)) : Prop :=
  ∀ c ∈ choices, ∀ d ∈ choices,
    ((c.cost.key strategy).1 = (d.cost.key strategy).1 ∨
      Quantity.apart (c.cost.key strategy).1 (d.cost.key strategy).1 = true) ∧
    ((c.cost.key strategy).2 = (d.cost.key strategy).2 ∨
      Quantity.apart (c.cost.key strategy).2 (d.cost.key strategy).2 = true)

instance (strategy : Strategy) (choices : List (Choice ℚ)) :
    Decidable (Choice.Resolved strategy choices) :=
  inferInstanceAs (Decidable (∀ c ∈ choices, ∀ d ∈ choices, _ ∧ _))

theorem Quantity.not_apart_self (a : ℚ) : Quantity.apart a a = false := by
  refine decide_eq_false ?_
  rw [sub_self, abs_zero]
  exact lt_asymm exactTolerance_pos

/-- Choices that are told apart are compared by what the strategy looks at first and then by the
other quantity. -/
theorem Choice.Resolved.beats_iff (h : Choice.Resolved strategy choices) {c d : Choice ℚ}
    (hc : c ∈ choices) (hd : d ∈ choices) :
    c.Beats strategy d ↔ toLex (c.cost.key strategy) < toLex (d.cost.key strategy) := by
  obtain ⟨hfirst, hsecond⟩ := h c hc d hd
  rw [Beats, Cost.isBetter, Prod.Lex.toLex_lt_toLex]
  dsimp only
  rcases hfirst with hfirst | hfirst
  · rw [hfirst, Quantity.not_apart_self]
    rcases hsecond with hsecond | hsecond
    · simp [hsecond, Quantity.not_apart_self]
    · simp [hsecond, Quantity.less]
  · have hne : (c.cost.key strategy).1 ≠ (d.cost.key strategy).1 := by
      intro heq
      rw [heq, Quantity.not_apart_self] at hfirst
      cases hfirst
    simp [hfirst, hne, Quantity.less]

/-- Choices that are told apart are ranked. -/
theorem Choice.ranked_of_resolved (h : Choice.Resolved strategy choices) :
    Choice.Ranked strategy choices where
  asymm c hc d hd := by
    rw [h.beats_iff hc hd, h.beats_iff hd hc]
    exact lt_asymm
  trans c hc d hd e he := by
    rw [h.beats_iff hc hd, h.beats_iff hd he, h.beats_iff hc he, not_lt, not_lt, not_lt]
    exact fun hdc hed => hed.trans hdc

end

namespace Drift

/-- A one-bit inverter. -/
def netlist : Netlist where
  name := "t"
  inputs := ["a"]
  outputs := ["y"]
  widths := ⟨[("a", .one), ("y", .one)]⟩
  arena := [some ⟨⟨0⟩, .op .not, [.plain "a"], "y"⟩]
  wires := [⟨"a", ⟨0⟩, 0⟩]
  nextFresh := 0

/-- The subject graph is the netlist itself. -/
def subject : Subject := ⟨netlist, netlist.fanout⟩

/-- A cell that inverts. -/
def inverter {ν : Type} (name : String) (area delay : ν) : Cell ν :=
  ⟨name, .op .not [.pin "A"], ["A"], "Y", area, .uniform delay⟩

/-- The areas of neighbours differ by less than the tolerance, those of the last two by more. -/
def library (ν : Type) [OfScientific ν] : Library ν :=
  ⟨"drift", [inverter "NEAR" 1.0000000006 2.0, inverter "SMALL" 1.0 2.0,
    inverter "FAST" 1.0000000012 1.0]⟩

/-- The areas are equal or differ by more than the tolerance. -/
def resolvedLibrary : Library ℚ :=
  ⟨"resolved", [inverter "LARGE" 2 1, inverter "SLOW" 1 3, inverter "FAST" 1 2]⟩

theorem coherent : netlist.Coherent := by
  refine ⟨fun {i node} h => ?_, by decide, by decide, by decide⟩
  match i, h with
  | 0, h =>
    cases h
    rfl

theorem ofNetlist_netlist : Subject.ofNetlist netlist = .ok subject :=
  Subject.ofNetlist_of_plain coherent (by decide +kernel) (by decide) (by decide)

/-- What the selection for area takes for the inverter is beaten by another match. -/
def Beaten {ν : Type} [Quantity ν] (lib : Library ν) : Prop :=
  ∃ sel node choice rival, subject.select lib .areaOptimal = .ok sel ∧
    node ∈ subject.netlist.nodes ∧ sel.best.find? node.id = some choice ∧
    sel.Candidate subject (subject.nodeMatches lib node) rival ∧ rival.Beats .areaOptimal choice

/-- It suffices that the second match beats what is chosen. -/
theorem beaten_of_run {ν : Type} [Quantity ν] {lib : Library ν}
    (h : (do
      let sel ← (subject.select lib .areaOptimal).toOption
      let choice ← sel.best.find? ⟨0⟩
      let m ← (subject.nodeMatches lib ⟨⟨0⟩, .op .not, [.plain "a"], "y"⟩)[1]?
      let cost ← (sel.costOf subject m).toOption
      return Cost.isBetter .areaOptimal cost choice.cost) = some true) : Beaten lib := by
  obtain ⟨sel, hsel, h⟩ := Option.bind_eq_some_iff.1 h
  obtain ⟨choice, hchoice, h⟩ := Option.bind_eq_some_iff.1 h
  obtain ⟨m, hm, h⟩ := Option.bind_eq_some_iff.1 h
  obtain ⟨cost, hcost, h⟩ := Option.bind_eq_some_iff.1 h
  exact ⟨sel, _, choice, ⟨1, m, cost⟩, ok_of_toOption hsel, .head _, hchoice,
    ⟨hm, ok_of_toOption hcost⟩, Option.some.inj h⟩

end Drift

/-- The areas 1.0000000006 and 1 are equal within the tolerance, and so are 1.0000000006 and
1.0000000012, but 1 and 1.0000000012 are not: the scan passes from the first cell to the last one,
which the second one beats. -/
theorem select_beaten : Drift.netlist.Coherent ∧
    Subject.ofNetlist Drift.netlist = .ok Drift.subject ∧ (Drift.library Float).Checked ∧
    Drift.Beaten (Drift.library Float) ∧ Drift.Beaten (Drift.library ℚ) :=
  ⟨Drift.coherent, Drift.ofNetlist_netlist, ⟨by decide, by decide⟩,
    Drift.beaten_of_run (by decide), Drift.beaten_of_run (by decide +kernel)⟩

open Selection in
/-- Of three cells whose figures are told apart the last one is chosen, and none beats it. -/
theorem select_rivals_resolved : Drift.netlist.Coherent ∧ Drift.resolvedLibrary.Checked ∧
    Subject.ofNetlist Drift.netlist = .ok Drift.subject ∧
    ∃ sel node choice, Drift.subject.select Drift.resolvedLibrary .areaOptimal = .ok sel ∧
      node ∈ Drift.subject.netlist.nodes ∧ Drift.subject.Coverable Drift.resolvedLibrary node.id ∧
      Choice.Ranked .areaOptimal
        (sel.usable Drift.subject (Drift.subject.nodeMatches Drift.resolvedLibrary node)) ∧
      sel.best.find? node.id = some choice ∧ choice.index = 2 ∧
      ∀ rival, sel.Candidate Drift.subject
        (Drift.subject.nodeMatches Drift.resolvedLibrary node) rival →
          ¬ rival.Beats .areaOptimal choice := by
  have hchecked : Drift.resolvedLibrary.Checked := ⟨by decide, by decide⟩
  have hs := Subject.wellFormed_of_ofNetlist Drift.coherent Drift.ofNetlist_netlist
  have horder : Drift.subject.netlist.topoOrder = .ok [⟨0⟩] := by decide
  have hselect : Drift.subject.select Drift.resolvedLibrary .areaOptimal =
      .ok (along Drift.subject Drift.resolvedLibrary .areaOptimal [⟨0⟩] .empty) := by
    rw [Subject.select, horder]
    rfl
  generalize hsel : along Drift.subject Drift.resolvedLibrary .areaOptimal [⟨0⟩] .empty = sel
    at hselect
  have hnode : ⟨⟨0⟩, .op .not, [.plain "a"], "y"⟩ ∈ Drift.subject.netlist.nodes := .head _
  have hindex : (sel.best.find? ⟨0⟩).map Choice.index = some 2 := by
    rw [← hsel]
    decide +kernel
  have hresolved : Choice.Resolved .areaOptimal (sel.usable Drift.subject
      (Drift.subject.nodeMatches Drift.resolvedLibrary ⟨⟨0⟩, .op .not, [.plain "a"], "y"⟩)) := by
    rw [← hsel]
    decide +kernel
  have hranked := Choice.ranked_of_resolved hresolved
  obtain ⟨found, hfound, hfoundIndex⟩ := Option.map_eq_some_iff.1 hindex
  have hcoverable : Drift.subject.Coverable Drift.resolvedLibrary ⟨0⟩ :=
    ((settled_of_select hchecked hs hselect).chosen?_isSome_iff hchecked hs hnode).1
      (by rw [chosen?, hfound]; rfl)
  obtain ⟨-, choice, hchoice, -, -, hbest⟩ := Subject.select_rivals Drift.coherent hchecked
    Drift.ofNetlist_netlist hselect hnode hcoverable
  cases hfound.symm.trans hchoice
  exact ⟨Drift.coherent, hchecked, Drift.ofNetlist_netlist, sel, _, found, hselect, hnode,
    hcoverable, hranked, hfound, hfoundIndex, hbest hranked⟩

end GateSynth
