import GateSynth.Mapping.Basic
import GateSynth.Proofs.Library.Checked
import GateSynth.Proofs.Mapping.Covers
import GateSynth.Proofs.Mapping.Subjects
import GateSynth.Proofs.Optimize.BalancedValues
import GateSynth.Proofs.Optimize.DeadNodes
import GateSynth.Proofs.Optimize.FoldedValues
import GateSynth.Proofs.Optimize.Integrity
import GateSynth.Proofs.Optimize.MergedValues
import GateSynth.Proofs.Simulation.Implementation

/-!
# The stages of a flow

Each stage of a flow leaves a netlist that implements the one it starts from: a pass, whether it is
kept or taken back (`Coherent.runPass_implements`), all rounds of passes
(`Coherent.optimize_implements`), and mapping onto a library whose cells are checked
(`Coherent.mapOnto_implements`). Optimization validates the netlist first if there is a pass to run,
and mapping always does, so a netlist that comes through is valid.
-/

namespace GateSynth.Netlist

variable {n n' : Netlist} {cells : CellFunctions}

/-! ## Passes -/

/-- Whatever a pass makes of a netlist implements it, also where the pass ends with an error. -/
theorem Legal.applyPass_implements (hl : n.Legal) (hc : n.Coherent) (pass : Pass) (strict : Bool) :
    Implements cells n (n.applyPass pass strict).1 := by
  have hp := (hl.applyPass_preserved hc pass strict).1
  cases pass with
  | strash =>
    obtain ⟨hentails, -⟩ := Merging.mergeSweeps_settled hl hc 0
    obtain ⟨n', merged, hmerge, -⟩ := hl.mergeEqual_swept hc
    rw [← mergeEqual, hmerge] at hentails
    rw [applyPass] at hp ⊢
    dsimp only at hp ⊢
    rw [hmerge] at hp ⊢
    exact hentails.implements hp
  | constprop =>
    have hkept : Folding.KeptByChanges fun m _ => Entails n m :=
      fun _ _ _ _ _ hmc hml h hm hbecomes => h.trans (hbecomes.entails hml hmc hm)
    obtain ⟨_, hentails, -⟩ := hl.foldConstants_holds hc strict hkept (.refl n)
    exact hentails.holds.implements hp
  | dce => exact (hl.dropDead_entails hc).implements hp
  | balance =>
    obtain ⟨n', rebuilt, hbalance, hbalanced⟩ := hl.balanceTrees_balanced hc
    rw [applyPass] at hp ⊢
    dsimp only at hp ⊢
    rw [hbalance] at hp ⊢
    refine hp.implements fun given v hv => ?_
    have hcontinues := Balancing.continues_of_steps hbalanced.steps
    obtain ⟨v', hv', hports, -⟩ := hcontinues.solves cells given v hv
    exact ⟨v', hv', hports⟩

theorem Coherent.runPass_implements (hc : n.Coherent) (hv : n.validate = .ok ()) (pass : Pass)
    (strict : Bool) : Implements cells n (n.runPass pass strict).1 := by
  have hl := hc.legal_of_validate hv
  rw [hl.runPass_eq hc hv]
  split
  · exact .refl hc hl
  · exact (hl.applyPass_implements hc pass strict).rebuildWires

/-! ## Rounds -/

theorem Coherent.runRound_implements (hc : n.Coherent) (hv : n.validate = .ok ()) {strict : Bool}
    {round : Nat} {passes : List Pass} {reports : List PassReport}
    {r : Netlist × Except OptError (List PassReport)}
    (hr : runRound strict round passes n reports = r) : Implements cells n r.1 := by
  subst hr
  induction passes generalizing n reports with
  | nil => exact .refl hc (hc.legal_of_validate hv)
  | cons pass rest ih =>
    have hpass := hc.runPass_intact hv pass strict
    have himplements : Implements cells n (n.runPass pass strict).1 :=
      hc.runPass_implements hv pass strict
    rw [runRound]
    split
    · next after e heq =>
      rw [heq] at himplements
      exact himplements
    · next after outcome heq =>
      rw [heq] at himplements hpass
      exact himplements.trans (ih himplements.coherent hpass.valid)

theorem Coherent.runRounds_implements (hc : n.Coherent) (hv : n.validate = .ok ())
    (settings : OptSettings) (left round : Nat) (reports : List PassReport) :
    Implements cells n (runRounds settings left round n reports).1 := by
  fun_induction runRounds settings left round n reports with
  | case1 left round n reports after e heq => exact hc.runRound_implements hv heq
  | case2 left round n reports after new heq all hzero => exact hc.runRound_implements hv heq
  | case3 round n reports after new heq all hchanged => exact hc.runRound_implements hv heq
  | case4 round n reports after new heq all hchanged left ih =>
    have hround := hc.runRound_intact hv heq
    exact (hc.runRound_implements hv heq).trans (ih hround.preserved.coherent hround.valid)

/-- Optimization validates a netlist before it changes anything. -/
theorem validate_of_runRound {strict : Bool} {round : Nat} {passes : List Pass}
    {reports new : List PassReport} (h : runRound strict round passes n reports = (n', .ok new)) :
    n' = n ∨ n.validate = .ok () := by
  cases passes with
  | nil =>
    cases h
    exact .inl rfl
  | cons pass rest =>
    right
    rw [runRound, runPass] at h
    cases hv : n.validate with
    | ok => rfl
    | error e =>
      rw [hv] at h
      cases h

theorem validate_of_runRounds {settings : OptSettings} {left round : Nat}
    {reports : List PassReport} {report : OptReport}
    (h : runRounds settings left round n reports = (n', .ok report)) :
    n' = n ∨ n.validate = .ok () := by
  fun_induction runRounds settings left round n reports with
  | case1 left round n reports after e heq => cases h
  | case2 left round n reports after new heq all hzero =>
    cases h
    exact validate_of_runRound heq
  | case3 round n reports after new heq all hchanged =>
    cases h
    exact validate_of_runRound heq
  | case4 round n reports after new heq all hchanged left ih =>
    rcases validate_of_runRound heq with rfl | hv
    · exact ih h
    · exact .inr hv

/-- Optimization that succeeds leaves the netlist as it is, or the netlist is valid and what comes
of it implements it. -/
theorem Coherent.optimize_implements (hc : n.Coherent) {settings : OptSettings} {report : OptReport}
    (h : n.optimize settings = (n', .ok report)) :
    n' = n ∨ n.validate = .ok () ∧ Implements cells n n' := by
  refine (validate_of_runRounds h).imp_right fun hv => ⟨hv, ?_⟩
  have himplements : Implements cells n (n.optimize settings).1 :=
    hc.runRounds_implements hv settings _ _ _
  rwa [h] at himplements

/-! ## Mapping -/

/-- A netlist that is mapped is valid, and the cover implements it. -/
theorem Coherent.mapOnto_implements {ν : Type} [Quantity ν] {lib : Library ν} {strategy : Strategy}
    {r : Mapping ν} (hc : n.Coherent) (hlib : lib.Checked) (h : n.mapOnto lib strategy = .ok r) :
    n.validate = .ok () ∧ Implements lib.functions n r.netlist := by
  obtain ⟨s, hs, h⟩ := ok_of_bind h
  obtain ⟨sel, hsel, h⟩ := ok_of_bind h
  obtain ⟨mapped, hmapped, h⟩ := ok_of_bind h
  obtain ⟨arrivals, -, h⟩ := ok_of_bind h
  obtain ⟨area, -, h⟩ := ok_of_bind h
  cases h
  obtain ⟨hvalid, inverters, hsub⟩ := Subject.straightened_of_ofNetlist hc hs
  have hplain : ∀ node ∈ s.netlist.nodes, ∀ f ∈ node.fanins, f.inverted = false :=
    fun node hnode => (hsub.plain node hnode).resolve_left List.not_mem_nil
  obtain ⟨hcover, hmappedValid⟩ := Selection.cover_of_extract hlib hsub.coherent hplain
    (Selection.sound_of_select hsel) hmapped
  have htaken : ∀ port, port ∈ n.inputs ∨ port ∈ n.outputs → n.isTaken port = true := by
    rintro port (hin | hout)
    · exact isTaken_of_isDefined (isDefined_of_input hin)
    · exact isTaken_of_output hout
  refine ⟨hvalid, hcover.coherent, hcover.coherent.legal_of_validate hmappedValid,
    hcover.inputs.trans hsub.inputs, hcover.outputs.trans hsub.outputs, fun port hport => ?_,
    fun given v hv => ?_⟩
  · rw [hcover.width port (by rwa [hcover.inputs, hcover.outputs, hsub.inputs, hsub.outputs]),
      (hsub.width port (htaken port hport)).2]
  · obtain ⟨v', hv', hold, -⟩ := hsub.solves lib.functions given v hv
    exact ⟨v', hcover.solution hv', fun o ho => hold o (htaken o (.inr ho))⟩

end GateSynth.Netlist
