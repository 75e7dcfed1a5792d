import GateSynth.Proofs.Optimize.Integrity

/-!
# Fixed points of optimization

A pass that reports no changes has left everything but the stored wires as it was, and as no pass
looks at these (`mergeEqual_withWires`), it does the same once more on what it leaves
(`Coherent.runPass_idle`). This carries over to the passes of a round and to the last of all rounds:
what an optimization that has converged leaves is optimized to itself, in one round
(`optimize_of_converged`).
-/

namespace GateSynth

/-! ## Stored wires -/

namespace Netlist

/-- The netlist with other stored wires. -/
def withWires (n : Netlist) (wires : List Wire) : Netlist := { n with wires }

section
variable (n : Netlist) (wires : List Wire)

@[simp] theorem node?_withWires (id : NodeId) : (n.withWires wires).node? id = n.node? id := rfl

@[simp] theorem isOutput_withWires (signal : String) :
    (n.withWires wires).isOutput signal = n.isOutput signal := rfl

@[simp] theorem width_withWires (signal : String) :
    (n.withWires wires).width signal = n.width signal := rfl

@[simp] theorem topoOrder_withWires : (n.withWires wires).topoOrder = n.topoOrder := rfl

@[simp] theorem eraseNode_withWires (id : NodeId) :
    (n.withWires wires).eraseNode id = (n.eraseNode id).withWires wires := rfl

@[simp] theorem updateNode_withWires (id : NodeId) (kind : Kind) (fanins : List Fanin) :
    (n.withWires wires).updateNode id kind fanins =
      (n.updateNode id kind fanins).withWires wires := rfl

@[simp] theorem replaceNode_withWires (id : NodeId) (kind : Kind) (fanins : List Fanin) :
    (n.withWires wires).replaceNode id kind fanins =
      (n.replaceNode id kind fanins).map (withWires · wires) := by
  rw [replaceNode, replaceNode]
  cases checkArity id kind fanins with
  | error e => rfl
  | ok _ =>
    cases hnode : n.node? id with
    | none => simp [hnode, Except.map, throw, throwThe, MonadExceptOf.throw, bind, Except.bind]
    | some node => simp [hnode, Except.map, bind, Except.bind, pure, Except.pure]

@[simp] theorem retireSignal_withWires (signal : String) :
    (n.withWires wires).retireSignal signal = (n.retireSignal signal).withWires wires := by
  by_cases h : (n.isDefined signal || n.isOutput signal) = true
  · rw [retireSignal, retireSignal, if_pos h]
    exact if_pos h
  · rw [retireSignal, retireSignal, if_neg h]
    exact if_neg h

end

end Netlist

open Netlist

variable {wires : List Wire}

namespace Merging

/-- The sweep with other stored wires. -/
def Sweep.withWires (s : Sweep) (wires : List Wire) : Sweep :=
  { s with netlist := s.netlist.withWires wires }

@[simp] theorem Sweep.netlist_withWires (s : Sweep) :
    (s.withWires wires).netlist = s.netlist.withWires wires := rfl

@[simp] theorem Sweep.representatives_withWires (s : Sweep) :
    (s.withWires wires).representatives = s.representatives := rfl

@[simp] theorem Sweep.substitution_withWires (s : Sweep) :
    (s.withWires wires).substitution = s.substitution := rfl

@[simp] theorem isMergeable_withWires (n : Netlist) (node : Node) :
    isMergeable (n.withWires wires) node = isMergeable n node := rfl

@[simp] theorem dropNode_withWires (n : Netlist) (id : NodeId) (signal : String) :
    dropNode (n.withWires wires) id signal = (dropNode n id signal).withWires wires :=
  retireSignal_withWires (n.eraseNode id) wires signal

theorem Sweep.merge_withWires (s : Sweep) (signature : Signature) (rep id : NodeId) (node : Node) :
    (s.withWires wires).merge signature rep id node =
      (s.merge signature rep id node).map (Sweep.withWires · wires) := by
  simp only [Sweep.merge, netlist_withWires, node?_withWires, isOutput_withWires,
    dropNode_withWires, replaceNode_withWires]
  split
  · rfl
  · split
    · rfl
    · split
      · rfl
      · cases s.netlist.replaceNode id (.op .buf) [.plain _] <;> rfl

theorem Sweep.visit_withWires (s : Sweep) (id : NodeId) :
    (s.withWires wires).visit id = (s.visit id).map (Sweep.withWires · wires) := by
  cases hnode : s.netlist.node? id with
  | none => simp [Sweep.visit, hnode, Except.map]
  | some node =>
    by_cases hmergeable : isMergeable s.netlist node = true
    · cases hrep : s.representatives.find? (.of node.kind
        (node.fanins.map (resolve s.substitution)) (s.netlist.width node.output)) with
      | some rep => simp [Sweep.visit, hnode, hmergeable, hrep, s.merge_withWires]
      | none => simp [Sweep.visit, hnode, hmergeable, hrep, withWires, Except.map]
    · simp [Sweep.visit, hnode, hmergeable, Except.map]

theorem Sweep.visitAll_withWires (order : List NodeId) (s : Sweep) (wires : List Wire) :
    visitAll order (s.withWires wires) =
      ((visitAll order s).1.withWires wires, (visitAll order s).2) := by
  induction order generalizing s with
  | nil => rfl
  | cons id rest ih =>
    rw [visitAll, visitAll, s.visit_withWires]
    cases s.visit id with
    | error e => rfl
    | ok s' => exact ih s'

theorem sweep_withWires (n : Netlist) :
    sweep (n.withWires wires) = ((sweep n).1.withWires wires, (sweep n).2) := by
  rw [sweep, sweep, topoOrder_withWires]
  cases n.topoOrder with
  | error e => rfl
  | ok order =>
    have hvisits := Sweep.visitAll_withWires order (.start n) wires
    dsimp only
    rw [show Sweep.start (n.withWires wires) = (Sweep.start n).withWires wires from rfl, hvisits]
    obtain ⟨s, _ | e⟩ := Sweep.visitAll order (.start n) <;> rfl

theorem mergeSweeps_withWires (n : Netlist) (merged : Nat) :
    (n.withWires wires).mergeSweeps merged =
      ((n.mergeSweeps merged).1.withWires wires, (n.mergeSweeps merged).2) := by
  have hswept : ∀ {n n' answer}, sweep n = (n', answer) →
      sweep (n.withWires wires) = (n'.withWires wires, answer) := fun h => by
    rw [sweep_withWires, h]
  induction n, merged using mergeSweeps_induct with
  | fail n merged n' e h => rw [mergeSweeps_of_error h, mergeSweeps_of_error (hswept h)]
  | last n merged n' h => rw [mergeSweeps_of_none h, mergeSweeps_of_none (hswept h)]
  | more n merged n' more h hsome ih =>
    rw [mergeSweeps_of_some h hsome, mergeSweeps_of_some (hswept h) hsome, ih]

end Merging

namespace Folding

/-- The state with other stored wires. -/
def State.withWires (s : State) (wires : List Wire) : State :=
  { s with netlist := s.netlist.withWires wires }

@[simp] theorem State.netlist_withWires (s : State) :
    (s.withWires wires).netlist = s.netlist.withWires wires := rfl

@[simp] theorem State.errors_withWires (s : State) : (s.withWires wires).errors = s.errors := rfl

@[simp] theorem State.changed_withWires (s : State) : (s.withWires wires).changed = s.changed := rfl

@[simp] theorem constOperand_withWires (n : Netlist) :
    constOperand (n.withWires wires) = constOperand n := rfl

theorem State.visit_withWires (strict : Bool) (s : State) (id : NodeId) :
    (s.withWires wires).visit strict id =
      ((s.visit strict id).1.withWires wires, (s.visit strict id).2) := by
  cases hnode : s.netlist.node? id with
  | none => simp [State.visit, hnode]
  | some node =>
    cases hfold : fold node (node.fanins.map (constOperand s.netlist))
      (s.netlist.width node.output) with
    | keep => simp [State.visit, hnode, hfold]
    | become kind used =>
      by_cases hsame : kind = node.kind ∧ used = node.fanins
      · simp [State.visit, hnode, hfold, hsame]
      · have hbecomes : Becomes s.netlist node kind used := hfold
        simp [State.visit, hnode, hfold, hsame, hbecomes.replaceNode_eq hnode, Except.map,
          withWires]
    | divisionByZero => cases strict <;> simp [State.visit, hnode, hfold, withWires]

theorem State.visitAll_withWires (strict : Bool) (order : List NodeId) (s : State) :
    visitAll strict order (s.withWires wires) =
      ((visitAll strict order s).1.withWires wires, (visitAll strict order s).2) := by
  induction order generalizing s with
  | nil => rfl
  | cons id rest ih =>
    rcases hvisit : s.visit strict id with ⟨s', _ | error⟩
    · simp [visitAll, visit_withWires, hvisit, ih]
    · simp [visitAll, visit_withWires, hvisit]

theorem foldSweeps_withWires (strict : Bool) (n : Netlist) (errors : Table NodeId FoldError)
    (changes : Nat) :
    (n.withWires wires).foldSweeps strict errors changes =
      ((n.foldSweeps strict errors changes).1.withWires wires,
        (n.foldSweeps strict errors changes).2) := by
  have hordered : ∀ {n : Netlist} {order}, n.topoOrder = order →
      (n.withWires wires).topoOrder = order := fun h => (topoOrder_withWires _ _).trans h
  have hvisited : ∀ {n : Netlist} {errors order s stop},
      State.visitAll strict order ⟨n, errors, 0⟩ = (s, stop) →
        State.visitAll strict order ⟨n.withWires wires, errors, 0⟩ = (s.withWires wires, stop) := by
    intro n errors order s stop h
    have hvisits : State.visitAll strict order ((⟨n, errors, 0⟩ : State).withWires wires) = _ :=
      State.visitAll_withWires strict order ⟨n, errors, 0⟩
    rwa [h] at hvisits
  induction n, errors, changes using foldSweeps_induct strict with
  | unordered n errors changes e h =>
    rw [foldSweeps_of_unordered h, foldSweeps_of_unordered (hordered h)]
  | stopped n errors changes order s error h hs =>
    rw [foldSweeps_of_stopped h hs, foldSweeps_of_stopped (hordered h) (hvisited hs)]
    rfl
  | last n errors changes order s h hs hnone =>
    rw [foldSweeps_of_last h hs hnone, foldSweeps_of_last (hordered h) (hvisited hs) hnone]
    rfl
  | more n errors changes order s h hs hsome ih =>
    rw [foldSweeps_of_more h hs hsome, foldSweeps_of_more (hordered h) (hvisited hs) hsome]
    exact ih

end Folding

namespace Liveness

theorem reach_withWires (n : Netlist) (steps : Nat) (work seen : List NodeId) :
    reach (n.withWires wires) steps work seen = reach n steps work seen := by
  fun_induction reach n steps work seen with
  | case1 => rfl
  | case2 => rfl
  | case3 steps seen id work hseen ih => rw [reach, if_pos hseen, ih]
  | case4 steps seen id work hseen drivers ih => rw [reach, if_neg hseen, ← ih]; rfl

theorem dropFrom_withWires (live : List NodeId) (nodes : List Node) (n : Netlist)
    (wires : List Wire) :
    dropFrom live nodes (n.withWires wires) = (dropFrom live nodes n).withWires wires := by
  induction nodes generalizing n with
  | nil => rfl
  | cons node rest ih =>
    by_cases hlive : node.id ∈ live <;> simp [dropFrom, hlive, ih]

end Liveness

/-! ## One pass -/

namespace Netlist

variable {n n' : Netlist} {pass : Pass} {strict : Bool} {outcome : PassOutcome}

theorem mergeEqual_withWires (n : Netlist) (wires : List Wire) :
    (n.withWires wires).mergeEqual = (n.mergeEqual.1.withWires wires, n.mergeEqual.2) :=
  Merging.mergeSweeps_withWires n 0

theorem foldConstants_withWires (n : Netlist) (wires : List Wire) (strict : Bool) :
    (n.withWires wires).foldConstants strict =
      ((n.foldConstants strict).1.withWires wires, (n.foldConstants strict).2) :=
  Folding.foldSweeps_withWires strict n Table.empty 0

theorem dropDead_count_withWires (n : Netlist) (wires : List Wire) :
    (n.withWires wires).dropDead.2 = n.dropDead.2 := by
  have hlive : (n.withWires wires).liveNodes = n.liveNodes := by
    rw [liveNodes, liveNodes, Liveness.reach_withWires]
    rfl
  have hdropped := Liveness.dropFrom_withWires n.liveNodes n.nodes n wires
  rw [dropDead, dropDead, hlive]
  exact congrArg (fun m => n.nodeCount - m.nodeCount) hdropped

/-- A pass that reports no changes makes none, and neither does it when the wires are stored
anew. -/
theorem Legal.applyPass_idle (hl : n.Legal) (hc : n.Coherent)
    (hok : (n.applyPass pass strict).2 = .ok outcome) (hzero : outcome.changes = 0) :
    (n.applyPass pass strict).1 = n ∧
      n.rebuildWires.applyPass pass strict = (n.rebuildWires, .ok outcome) := by
  cases pass with
  | strash =>
    obtain ⟨same, merged, hmerge, hswept⟩ := hl.mergeEqual_swept hc
    have hmerge' := mergeEqual_withWires n n.derivedWires
    simp only [applyPass, hmerge] at hok hmerge' ⊢
    cases hok
    obtain ⟨rfl, -⟩ := hswept.settled hzero
    exact ⟨rfl, by rw [show same.rebuildWires.mergeEqual = _ from hmerge']; rfl⟩
  | constprop =>
    have hsame := hl.foldConstants_of_count hc hok hzero
    refine ⟨hsame, (foldConstants_withWires n n.derivedWires strict).trans ?_⟩
    exact Prod.ext (congrArg (withWires · n.derivedWires) hsame) hok
  | dce =>
    cases hok
    refine ⟨hc.dropDead_of_count hzero, ?_⟩
    have hcount := dropDead_count_withWires n n.derivedWires
    have hsame := hc.rebuildWires.dropDead_of_count (hcount.trans hzero)
    exact Prod.ext hsame (congrArg (fun k => Except.ok (PassOutcome.changed k)) hcount)
  | balance =>
    obtain ⟨same, rebuilt, hbalance, hbalanced⟩ := hl.balanceTrees_balanced hc
    simp only [applyPass, hbalance] at hok ⊢
    cases hok
    obtain rfl := hbalanced.same hzero
    obtain ⟨same', rebuilt', hbalance', hbalanced'⟩ :=
      hl.rebuildWires.balanceTrees_balanced hc.rebuildWires
    have hzero' := hbalanced'.settled fun q hq => hbalanced.flat q hq.of_rebuildWires
    rw [hbalance', hbalanced'.same hzero', hzero', show rebuilt = 0 from hzero]
    exact ⟨rfl, rfl⟩

/-- A pass only succeeds on a valid netlist. -/
theorem validate_of_runPass (h : n.runPass pass strict = (n', .ok outcome)) :
    n.validate = .ok () := by
  rw [runPass] at h
  split at h
  · cases h
  · assumption

/-- A pass that succeeds does what it does on a valid netlist, and stores the wires anew. -/
theorem Coherent.of_runPass_ok (hc : n.Coherent) (h : n.runPass pass strict = (n', .ok outcome)) :
    n.Legal ∧ (n.applyPass pass strict).2 = .ok outcome ∧
      n' = (n.applyPass pass strict).1.rebuildWires := by
  have hv := validate_of_runPass h
  have hl := hc.legal_of_validate hv
  rw [hl.runPass_eq hc hv] at h
  split at h
  · cases h
  · next found hok =>
    cases h
    exact ⟨hl, hok, rfl⟩

/-- A pass that reports no changes only stores the wires anew, and does the same once more on what
it leaves. -/
theorem Coherent.runPass_idle (hc : n.Coherent) (h : n.runPass pass strict = (n', .ok outcome))
    (hzero : outcome.changes = 0) :
    n' = n.rebuildWires ∧ n'.runPass pass strict = (n', .ok outcome) := by
  obtain ⟨hl, hok, rfl⟩ := hc.of_runPass_ok h
  obtain ⟨hsame, hagain⟩ := hl.applyPass_idle hc hok hzero
  rw [hsame, hl.rebuildWires.runPass_eq hc.rebuildWires (hc.validate_rebuildWires hl), hagain]
  exact ⟨rfl, rfl⟩

/-! ## Rounds -/

variable {round : Nat} {passes : List Pass} {reports all : List PassReport}

/-- The passes of a round that report no changes store the wires anew at most, and do and report the
same once more on what they leave. -/
theorem Coherent.runRound_idle (hc : n.Coherent)
    (h : runRound strict round passes n reports = (n', .ok all)) :
    n'.Coherent ∧ ∃ new, all = reports ++ new ∧ (∀ p ∈ new, p.round = round) ∧
      (total (new.map fun p => p.outcome.changes) = 0 →
        (n' = n ∨ n' = n.rebuildWires) ∧ ∀ round' reports',
          runRound strict round' passes n' reports' =
            (n', .ok (reports' ++ new.map fun p => { p with round := round' }))) := by
  induction passes generalizing n reports with
  | nil =>
    cases h
    refine ⟨hc, [], (List.append_nil _).symm, by simp, fun _ => ⟨.inl rfl, fun _ reports' => ?_⟩⟩
    rw [List.map_nil, List.append_nil]
    rfl
  | cons pass rest ih =>
    rw [runRound] at h
    split at h
    · cases h
    · next after outcome hpass =>
      have hafter := (hc.runPass_intact (validate_of_runPass hpass) pass strict).preserved.coherent
      rw [hpass] at hafter
      obtain ⟨hcoherent, new, rfl, hround, hidle⟩ := ih hafter h
      refine ⟨hcoherent, ⟨pass, round, outcome, n.nodeCount, after.nodeCount⟩ :: new,
        List.append_assoc _ _ _, List.forall_mem_cons.2 ⟨rfl, hround⟩, fun hzero => ?_⟩
      obtain ⟨hfirst, hrest⟩ := Nat.add_eq_zero_iff.1 hzero
      obtain ⟨rfl, hagain⟩ := hc.runPass_idle hpass hfirst
      obtain ⟨hsame, hrerun⟩ := hidle hrest
      obtain rfl : n' = n.rebuildWires := hsame.elim id id
      refine ⟨.inr rfl, fun round' reports' => ?_⟩
      rw [runRound, hagain]
      dsimp only
      rw [hrerun, List.append_assoc]
      rfl

/-- Of all passes in a report only those of the last round have its number. -/
theorem foldErrors_append {converged : Bool} {new : List PassReport}
    (hearlier : ∀ p ∈ reports, p.round < round) (hnew : ∀ p ∈ new, p.round = round) :
    (⟨round, converged, reports ++ new⟩ : OptReport).foldErrors =
      new.flatMap fun p => p.outcome.foldErrors := by
  have hold : reports.filter (fun p => p.round = round) = [] :=
    List.filter_eq_nil_iff.2 fun p hp => by simpa using (hearlier p hp).ne
  have hkept : new.filter (fun p => p.round = round) = new :=
    List.filter_eq_self.2 fun p hp => by simpa using hnew p hp
  rw [OptReport.foldErrors, List.filter_append, hold, hkept, List.nil_append]

/-- The last round is the one that leaves the result, and its skipped folds are those of the
report. -/
theorem Coherent.runRounds_last {settings : OptSettings} {left : Nat} {report : OptReport}
    (hc : n.Coherent) (h : runRounds settings left round n reports = (n', .ok report))
    (hearlier : ∀ p ∈ reports, p.round < round) :
    ∃ m new, m.Coherent ∧
      runRound settings.strict report.rounds settings.passes m [] = (n', .ok new) ∧
      report.foldErrors = new.flatMap (fun p => p.outcome.foldErrors) ∧
      (report.converged = true → total (new.map fun p => p.outcome.changes) = 0) := by
  fun_induction runRounds settings left round n reports with
  | case1 => cases h
  | case2 left round n reports after new hround all hzero =>
    cases h
    obtain ⟨-, _, rfl, hnumber, -⟩ := hc.runRound_idle hround
    exact ⟨n, _, hc, hround, foldErrors_append hearlier hnumber, fun _ => hzero⟩
  | case3 round n reports after new hround all hchanged =>
    cases h
    obtain ⟨-, _, rfl, hnumber, -⟩ := hc.runRound_idle hround
    exact ⟨n, _, hc, hround, foldErrors_append hearlier hnumber, fun hend => by cases hend⟩
  | case4 round n reports after new hround all hchanged left ih =>
    obtain ⟨hcoherent, _, rfl, hnumber, -⟩ := hc.runRound_idle hround
    refine ih hcoherent h fun p hp => ?_
    rcases List.mem_append.1 hp with hp | hp
    · exact Nat.lt_succ_of_lt (hearlier p hp)
    · exact Nat.lt_succ_of_le (hnumber p hp).le

/-- What an optimization that has converged leaves is a fixed point: optimized with the same
settings it stays exactly as it is, in one round without changes that leaves alone the same
divisions by a constant zero. -/
theorem optimize_of_converged (hc : n.Coherent) {settings : OptSettings} {report : OptReport}
    (h : n.optimize settings = (n', .ok report)) (hend : report.converged = true) :
    ∃ again, n'.optimize settings = (n', .ok again) ∧ again.rounds = 1 ∧
      again.converged = true ∧ again.totalChanges = 0 ∧ again.foldErrors = report.foldErrors := by
  obtain ⟨m, new, hm, hround, herrors, hidle⟩ := hc.runRounds_last h (by simp)
  obtain ⟨-, _, rfl, -, hrerun⟩ := hm.runRound_idle hround
  obtain ⟨-, hrerun⟩ := hrerun (hidle hend)
  let again : List PassReport := new.map fun p => { p with round := 1 }
  have hzero : total (again.map fun p => p.outcome.changes) = 0 := by
    rw [List.map_map]
    exact hidle hend
  refine ⟨⟨1, true, again⟩, ?_, rfl, rfl, hzero, ?_⟩
  · rw [optimize, runRounds, hrerun]
    exact if_pos hzero
  · have hlast : (⟨1, true, [] ++ again⟩ : OptReport).foldErrors =
        again.flatMap fun p => p.outcome.foldErrors :=
      foldErrors_append (by simp) (by simp [again])
    rw [List.flatMap_map] at hlast
    exact hlast.trans herrors.symm

end Netlist

/-- The equal gates are merged in the first round, the second one changes nothing, and the division
by zero is met in both and once more when the result is optimized. -/
theorem optimize_of_converged_zeroDivisor :
    let settings : OptSettings := ⟨[.balance, .strash, .constprop, .dce], 3, false⟩
    ∃ n' report again, ZeroDivisor.netlist.optimize settings = (n', .ok report) ∧
      report.rounds = 2 ∧ report.converged = true ∧ report.totalChanges = 1 ∧
      n'.optimize settings = (n', .ok again) ∧ again.rounds = 1 ∧ again.totalChanges = 0 ∧
      again.foldErrors = [⟨⟨4⟩, "DIV", [none, some 0]⟩] := by
  intro settings
  have hrun : (ZeroDivisor.netlist.optimize settings).2.toOption.map
      (fun r => (r.rounds, r.converged, r.totalChanges, r.foldErrors)) =
        some (2, true, 1, [⟨⟨4⟩, "DIV", [none, some 0]⟩]) := by cbv
  obtain ⟨report, hreport, hsummary⟩ := Option.map_eq_some_iff.1 hrun
  simp only [Prod.mk.injEq] at hsummary
  obtain ⟨hrounds, hend, hchanges, herrors⟩ := hsummary
  have hoptimize : ZeroDivisor.netlist.optimize settings =
      ((ZeroDivisor.netlist.optimize settings).1, .ok report) :=
    Prod.ext rfl (ok_of_toOption hreport)
  obtain ⟨again, hagain, honce, -, hnone, hsame⟩ :=
    Netlist.optimize_of_converged ZeroDivisor.coherent hoptimize hend
  exact ⟨_, report, again, hoptimize, hrounds, hend, hchanges, hagain, honce, hnone,
    hsame.trans herrors⟩

end GateSynth
