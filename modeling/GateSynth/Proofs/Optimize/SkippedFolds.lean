import GateSynth.Proofs.Optimize.FixedPoints
import GateSynth.Proofs.Optimize.RefusedDivisions

/-!
# Skipped folds in reports

A report puts together what the passes of the last round have listed. Each run of the folding pass
lists a node that it refuses once (`Coherent.runPass_skips`), so a node is reported at most as often
as the settings have that pass (`Coherent.runRound_skips`), and exactly so often if the rounds have
converged (`optimize_skips`). With the pass given twice every such node is reported twice.
-/

namespace GateSynth

open Netlist

/-- The nodes whose folds were skipped, pass after pass. -/
def skipped (reports : List PassReport) : List NodeId :=
  reports.flatMap fun p => p.outcome.foldErrors.map FoldError.node

namespace Netlist

variable {n n' : Netlist} {pass : Pass} {strict : Bool} {outcome : PassOutcome} {id : NodeId}

/-- The node with this identifier divides by a constant zero. -/
def Refuses (n : Netlist) (id : NodeId) : Prop :=
  ∃ node ∈ n.nodes, node.id = id ∧ Folding.DividesByZero n node

/-! ## One pass -/

theorem foldErrors_of_ne (hne : pass ≠ .constprop)
    (hok : (n.applyPass pass strict).2 = .ok outcome) : outcome.foldErrors = [] := by
  cases pass with
  | constprop => exact absurd rfl hne
  | dce =>
    cases hok
    rfl
  | strash =>
    rw [applyPass] at hok
    dsimp only at hok
    split at hok <;> cases hok
    rfl
  | balance =>
    rw [applyPass] at hok
    dsimp only at hok
    split at hok <;> cases hok
    rfl

/-- Folding lists each node that it leaves refused once. -/
theorem Legal.foldConstants_skips (hl : n.Legal) (hc : n.Coherent)
    (hok : (n.foldConstants false).2 = .ok outcome) :
    (outcome.foldErrors.map FoldError.node).Nodup ∧
      ∀ id, id ∈ outcome.foldErrors.map FoldError.node ↔ (n.foldConstants false).1.Refuses id := by
  obtain ⟨n', found, hon, hfold⟩ := hl.foldConstants_foldsOn hc
  obtain ⟨hnodup, hexact⟩ := hon.exact hc hl
  rw [hfold] at hok ⊢
  cases hok
  refine ⟨hnodup, fun id => ?_⟩
  simp only [List.mem_map, hexact]
  constructor
  · rintro ⟨_, ⟨node, hm, hzero, rfl⟩, rfl⟩
    exact ⟨node, hm, rfl, hzero⟩
  · rintro ⟨node, hm, rfl, hzero⟩
    exact ⟨_, ⟨node, hm, hzero, rfl⟩, rfl⟩

/-- A folding pass lists each node that it leaves refused once and no other, another pass lists
nothing. -/
theorem Coherent.runPass_skips (hc : n.Coherent) (h : n.runPass pass false = (n', .ok outcome))
    (id : NodeId) :
    (outcome.foldErrors.map FoldError.node).count id ≤ [pass].count .constprop ∧
      (n'.Refuses id →
        (outcome.foldErrors.map FoldError.node).count id = [pass].count .constprop) ∧
      (id ∈ outcome.foldErrors.map FoldError.node → n'.Refuses id) := by
  obtain ⟨hl, hok, rfl⟩ := hc.of_runPass_ok h
  by_cases hfolds : pass = .constprop
  · subst hfolds
    obtain ⟨hnodup, hexact⟩ := hl.foldConstants_skips hc hok
    exact ⟨List.nodup_iff_count_le_one.1 hnodup id,
      fun hrefuses => List.count_eq_one_of_mem hnodup ((hexact id).2 hrefuses), (hexact id).1⟩
  · rw [foldErrors_of_ne hfolds hok]
    simp [hfolds]

/-! ## Rounds -/

variable {round : Nat} {passes : List Pass} {reports all : List PassReport}

/-- In a round a node is listed at most once by each folding pass; in a round without changes those
that are refused are listed by each of them, and no others. -/
theorem Coherent.runRound_skips (hc : n.Coherent)
    (h : runRound false round passes n reports = (n', .ok all)) :
    ∃ new, all = reports ++ new ∧
      (∀ id, (skipped new).count id ≤ passes.count .constprop) ∧
      (total (new.map fun p => p.outcome.changes) = 0 →
        ∀ id, (n'.Refuses id ↔ n.Refuses id) ∧
          (n'.Refuses id → (skipped new).count id = passes.count .constprop) ∧
          (id ∈ skipped new → n'.Refuses id)) := by
  induction passes generalizing n reports with
  | nil =>
    cases h
    exact ⟨[], (List.append_nil _).symm, by simp [skipped], by simp [skipped]⟩
  | cons pass rest ih =>
    rw [runRound] at h
    split at h
    · cases h
    · next after outcome hpass =>
      have hafter := (hc.runPass_intact (validate_of_runPass hpass) pass false).preserved.coherent
      rw [hpass] at hafter
      obtain ⟨new, rfl, hlimit, hidle⟩ := ih hafter h
      have hskips := hc.runPass_skips hpass
      let report : PassReport := ⟨pass, round, outcome, n.nodeCount, after.nodeCount⟩
      have hskipped : skipped (report :: new) =
          outcome.foldErrors.map FoldError.node ++ skipped new := rfl
      have hpasses : (pass :: rest).count .constprop =
          [pass].count .constprop + rest.count .constprop := by
        rw [← List.count_append, List.singleton_append]
      refine ⟨report :: new, List.append_assoc _ _ _, fun id => ?_, fun hzero id => ?_⟩
      · rw [hskipped, hpasses, List.count_append]
        exact Nat.add_le_add (hskips id).1 (hlimit id)
      · obtain ⟨hfirst, hrest⟩ := Nat.add_eq_zero_iff.1 hzero
        obtain ⟨rfl, -⟩ := hc.runPass_idle hpass hfirst
        obtain ⟨hsame, hcount, hrefused⟩ := hidle hrest id
        refine ⟨hsame, fun hrefuses => ?_, fun hmem => ?_⟩
        · rw [hskipped, hpasses, List.count_append, (hskips id).2.1 (hsame.1 hrefuses),
            hcount hrefuses]
        · rw [hskipped, List.mem_append] at hmem
          exact hmem.elim (fun hmem => hsame.2 ((hskips id).2.2 hmem)) hrefused

/-- Optimizing without strict mode succeeds, and a node is reported at most as often as the passes
have folding, so once if they have it once. If the rounds have converged, the nodes that divide by a
constant zero in the result are reported exactly so often, and no others. -/
theorem optimize_skips (hc : n.Coherent) (hv : n.validate = .ok ()) {settings : OptSettings}
    (hlenient : settings.strict = false) :
    ∃ n' report, n.optimize settings = (n', .ok report) ∧
      (∀ id, (report.foldErrors.map FoldError.node).count id ≤ settings.passes.count .constprop) ∧
      (settings.passes.count .constprop ≤ 1 → (report.foldErrors.map FoldError.node).Nodup) ∧
      (report.converged = true → ∀ id,
        (n'.Refuses id →
          (report.foldErrors.map FoldError.node).count id = settings.passes.count .constprop) ∧
        (id ∈ report.foldErrors.map FoldError.node → n'.Refuses id)) := by
  have hintact := hc.optimize_intact hv settings
  cases hresult : (n.optimize settings).2 with
  | error e =>
    have hstrict := (hintact.error e hresult).1
    rw [hlenient] at hstrict
    cases hstrict
  | ok report =>
    have hoptimize : n.optimize settings = ((n.optimize settings).1, .ok report) :=
      Prod.ext rfl hresult
    obtain ⟨m, new, hm, hround, herrors, hidle⟩ := hc.runRounds_last hoptimize (by simp)
    rw [hlenient] at hround
    obtain ⟨_, rfl, hlimit, hexact⟩ := hm.runRound_skips hround
    have hskipped : report.foldErrors.map FoldError.node = skipped new := by
      rw [herrors, List.map_flatMap]
      rfl
    refine ⟨_, report, hoptimize, ?_⟩
    rw [hskipped]
    refine ⟨hlimit, fun honce => ?_, fun hend id => (hexact (hidle hend) id).2⟩
    exact List.nodup_iff_count_le_one.2 fun id => (hlimit id).trans honce

end Netlist

/-- The default passes have folding once, so each of the two divisions is reported once at most. -/
theorem optimize_skips_lateZero :
    LateZero.netlist.Coherent ∧ LateZero.netlist.validate = .ok () ∧
      OptSettings.default.strict = false ∧ OptSettings.default.passes.count .constprop = 1 ∧
      ∃ n' report, LateZero.netlist.optimize .default = (n', .ok report) ∧
        (report.foldErrors.map FoldError.node).Nodup := by
  have hlenient : OptSettings.default.strict = false := rfl
  have honce : OptSettings.default.passes.count .constprop = 1 := by decide
  obtain ⟨n', report, hoptimize, -, hnodup, -⟩ :=
    Netlist.optimize_skips LateZero.coherent LateZero.validate hlenient
  exact ⟨LateZero.coherent, LateZero.validate, hlenient, honce, n', report, hoptimize,
    hnodup honce.le⟩

/-- With the folding pass given twice the report lists one division twice. -/
theorem optimize_repeatedFold :
    let settings : OptSettings := ⟨[.constprop, .constprop], 8, false⟩
    ZeroDivisor.netlist.Coherent ∧ ZeroDivisor.netlist.validate = .ok () ∧
      ∃ n' report, ZeroDivisor.netlist.optimize settings = (n', .ok report) ∧
        report.foldErrors.map FoldError.node = [⟨4⟩, ⟨4⟩] ∧
        ¬ (report.foldErrors.map FoldError.node).Nodup := by
  intro settings
  have hrun : (ZeroDivisor.netlist.optimize settings).2.toOption.map
      (fun r => r.foldErrors.map FoldError.node) = some [⟨4⟩, ⟨4⟩] := by cbv
  obtain ⟨report, hreport, htwice⟩ := Option.map_eq_some_iff.1 hrun
  refine ⟨ZeroDivisor.coherent, ZeroDivisor.valid, _, report, Prod.ext rfl (ok_of_toOption hreport), htwice,
    ?_⟩
  rw [htwice]
  decide

end GateSynth
