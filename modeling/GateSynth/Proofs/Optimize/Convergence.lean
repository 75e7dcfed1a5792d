import GateSynth.Proofs.Optimize.Integrity

/-!
# Convergence of rounds

A round never fails on a valid netlist (`exists_round`). Where no two primary outputs are literals
of one value and one width, a round that changes anything makes the netlist lighter, unless all it
does is to build trees anew, which the round before has done already; so the rounds come to an end.
Where two primary outputs are such literals, merging makes one a buffer of the other and folding
makes the buffer a literal again, in every round anew. `optimize_converges_iff` puts the two
together: the rounds come to an end exactly if no round leaves such literals.
-/

namespace GateSynth

namespace Netlist

variable {n n' : Netlist} {pass : Pass} {outcome : PassOutcome} {changes : Nat}

/-! ## One pass -/

theorem Legal.runPass_of_ok (hl : n.Legal) (hc : n.Coherent) (hv : n.validate = .ok ())
    (happly : n.applyPass pass false = (n', .ok outcome)) :
    n.runPass pass false = (n'.rebuildWires, .ok outcome) := by
  rw [hl.runPass_eq hc hv, happly]

theorem Legal.runPass_strash (hl : n.Legal) (hc : n.Coherent) (hv : n.validate = .ok ()) :
    ∃ n' merged, n.runPass .strash false = (n'.rebuildWires, .ok (.changed merged)) ∧
      Merging.Swept n n' merged := by
  obtain ⟨n', merged, hmerge, hswept⟩ := hl.mergeEqual_swept hc
  refine ⟨n', merged, hl.runPass_of_ok hc hv ?_, hswept⟩
  rw [applyPass]
  dsimp only
  rw [hmerge]

theorem Legal.runPass_constprop (hl : n.Legal) (hc : n.Coherent) (hv : n.validate = .ok ()) :
    ∃ outcome, n.runPass .constprop false = ((n.foldConstants false).1.rebuildWires, .ok outcome) ∧
      (n.foldConstants false).2 = .ok outcome := by
  obtain ⟨outcome, hok⟩ := hl.foldConstants_isOk hc
  exact ⟨outcome, hl.runPass_of_ok hc hv (Prod.ext rfl hok), hok⟩

theorem Legal.runPass_dce (hl : n.Legal) (hc : n.Coherent) (hv : n.validate = .ok ()) :
    n.runPass .dce false = (n.dropDead.1.rebuildWires, .ok (.changed n.dropDead.2)) :=
  hl.runPass_of_ok hc hv rfl

theorem Legal.runPass_balance (hl : n.Legal) (hc : n.Coherent) (hv : n.validate = .ok ()) :
    ∃ n' rebuilt, n.runPass .balance false = (n'.rebuildWires, .ok (.changed rebuilt)) ∧
      Balanced n n' rebuilt := by
  obtain ⟨n', rebuilt, hbalance, hbalanced⟩ := hl.balanceTrees_balanced hc
  refine ⟨n', rebuilt, hl.runPass_of_ok hc hv ?_, hbalanced⟩
  rw [applyPass]
  dsimp only
  rw [hbalance]

/-! ## One round -/

/-- What the four passes of a round do. -/
structure Round (n n' : Netlist) (changes : Nat) : Prop where
  run : ∀ round reports, ∃ new,
    runRound false round Pass.all n reports = (n', .ok (reports ++ new)) ∧
      total (new.map fun p => p.outcome.changes) = changes
  preserved : Preserved n n'
  wires : n'.rebuildWires = n'
  flat : ∀ q, ¬ Balancing.Deep n' q
  idle : changes = 0 → n' = n.rebuildWires
  locked : n.Locked → n'.Locked
  /-- There is always something to do if constant ports are equal. -/
  busy : n.Locked → changes ≠ 0
  /-- In all other cases the netlist gets lighter, once its trees are flat. -/
  cost : n.rebuildWires = n → ¬ n.Twins → (∀ q, ¬ Balancing.Deep n q) → changes ≠ 0 →
    n'.cost < n.cost

/-- A round is its four passes, one after the other. -/
theorem runRound_all {n₁ n₂ n₃ n₄ : Netlist} {o₁ o₂ o₃ o₄ : PassOutcome}
    (h₁ : n.runPass .strash false = (n₁, .ok o₁)) (h₂ : n₁.runPass .constprop false = (n₂, .ok o₂))
    (h₃ : n₂.runPass .dce false = (n₃, .ok o₃)) (h₄ : n₃.runPass .balance false = (n₄, .ok o₄))
    (round : Nat) (reports : List PassReport) :
    ∃ new, runRound false round Pass.all n reports = (n₄, .ok (reports ++ new)) ∧
      total (new.map fun p => p.outcome.changes) =
        o₁.changes + o₂.changes + o₃.changes + o₄.changes := by
  refine ⟨[⟨.strash, round, o₁, n.nodeCount, n₁.nodeCount⟩,
    ⟨.constprop, round, o₂, n₁.nodeCount, n₂.nodeCount⟩,
    ⟨.dce, round, o₃, n₂.nodeCount, n₃.nodeCount⟩,
    ⟨.balance, round, o₄, n₃.nodeCount, n₄.nodeCount⟩], ?_, ?_⟩
  · simp only [Pass.all, runRound, h₁, h₂, h₃, h₄, List.append_assoc]
    rfl
  · simp only [List.map_cons, List.map_nil, total]
    omega

/-- If merging and folding find nothing, no two constant ports are equal: both would be literals,
which would be merged. -/
theorem not_locked_of_settled (hl : n.Legal)
    (hmerge : ∀ a ∈ n.nodes, ∀ b ∈ n.nodes, Merging.isMergeable n a = true →
      Merging.isMergeable n b = true →
      Merging.Signature.of a.kind a.fanins (n.width a.output) =
        Merging.Signature.of b.kind b.fanins (n.width b.output) → a = b)
    (hfold : ∀ node ∈ n.nodes, ∀ kind used, ¬ Folding.Becomes n node kind used) : ¬ n.Locked := by
  rintro ⟨value, w, a, b, hne, ha, hb⟩
  have hliteral : ∀ {port}, ConstantPort n value w port →
      ∃ node ∈ n.nodes, node.kind = .const value ∧ node.output = port := by
    intro port hport
    rcases Folding.becomes_of_constantPort hl hport with hfound | ⟨node, hm, hbecomes⟩
    · exact hfound
    · exact absurd hbecomes (hfold node hm _ _)
  have hfanins : ∀ {node : Node}, node ∈ n.nodes → node.kind = .const value → node.fanins = [] :=
    fun {node} hm hkind => List.eq_nil_of_length_eq_zero
      (hl.arity node hm 0 (by rw [hkind]; rfl)).symm
  have hmergeable : ∀ {node : Node}, node.kind = .const value →
      Merging.isMergeable n node = true := by
    intro node hkind
    rw [Merging.isMergeable, hkind, Merging.isPortBuffer, hkind]
    rfl
  obtain ⟨x, hx, hxkind, rfl⟩ := hliteral ha
  obtain ⟨y, hy, hykind, rfl⟩ := hliteral hb
  refine hne (congrArg Node.output (hmerge x hx y hy (hmergeable hxkind) (hmergeable hykind) ?_))
  rw [hxkind, hykind, hfanins hx hxkind, hfanins hy hykind, ha.width_eq, hb.width_eq]

/-- A round on a valid netlist succeeds. -/
theorem exists_round (hc : n.Coherent) (hv : n.validate = .ok ()) :
    ∃ n' changes, Round n n' changes := by
  have hl := hc.legal_of_validate hv
  obtain ⟨n₁, merged, hstrash, hswept⟩ := hl.runPass_strash hc hv
  have hp₁ := hswept.preserved.rebuildWires
  have hv₁ := hswept.preserved.coherent.validate_rebuildWires hswept.preserved.legal
  obtain ⟨outcome, hconstprop, hok⟩ := hp₁.legal.runPass_constprop hp₁.coherent hv₁
  have hfolded : Preserved n₁.rebuildWires (n₁.rebuildWires.foldConstants false).1 :=
    hp₁.legal.foldConstants_preserved hp₁.coherent
  have hp₂ := hfolded.rebuildWires
  have hv₂ := hfolded.coherent.validate_rebuildWires hfolded.legal
  generalize hn₂ : (n₁.rebuildWires.foldConstants false).1.rebuildWires = n₂ at hconstprop hp₂ hv₂
  have hdce := hp₂.legal.runPass_dce hp₂.coherent hv₂
  have hdropped := hp₂.legal.dropDead_preserved hp₂.coherent
  have hp₃ := hdropped.rebuildWires
  have hv₃ := hdropped.coherent.validate_rebuildWires hdropped.legal
  obtain ⟨n₄, rebuilt, hbalance, hbalanced⟩ := hp₃.legal.runPass_balance hp₃.coherent hv₃
  have hidle : merged = 0 → outcome.changes = 0 → n₂.dropDead.2 = 0 →
      n₂.dropDead.1.rebuildWires = n.rebuildWires := by
    intro h₁ h₂ h₃
    obtain ⟨rfl, -⟩ := hswept.settled h₁
    have hsame : n₂ = n₁.rebuildWires := by
      rw [← hn₂, hp₁.legal.foldConstants_of_count hp₁.coherent hok h₂]
      rfl
    rw [hp₂.coherent.dropDead_of_count h₃, hsame]
    rfl
  refine ⟨n₄.rebuildWires, merged + outcome.changes + n₂.dropDead.2 + rebuilt, ?_⟩
  constructor
  case run =>
    exact fun round reports => runRound_all hstrash hconstprop hdce hbalance round reports
  case preserved => exact ((hp₁.trans hp₂).trans hp₃).trans hbalanced.preserved.rebuildWires
  case wires => rfl
  case flat => exact fun q hq => hbalanced.flat q hq.of_rebuildWires
  case idle =>
    intro hzero
    rw [hbalanced.same (by omega), hidle (by omega) (by omega) (by omega)]
    rfl
  case locked =>
    intro hlocked
    have hlocked₁ := locked_rebuildWires.2 (hswept.locked hlocked)
    have hlocked₂ : n₂.Locked :=
      hn₂ ▸ locked_rebuildWires.2 (hp₁.legal.foldConstants_locked hp₁.coherent hlocked₁)
    have hlocked₃ := locked_rebuildWires.2 (hp₂.legal.dropDead_locked hp₂.coherent hlocked₂)
    exact locked_rebuildWires.2 (hbalanced.locked hlocked₃)
  case busy =>
    intro hlocked hzero
    obtain ⟨rfl, hmerge⟩ := hswept.settled (by omega)
    have hfold : ∀ node ∈ n₁.rebuildWires.nodes, ∀ kind used,
        ¬ Folding.Becomes n₁.rebuildWires node kind used :=
      fun node hm kind used => hp₁.legal.foldConstants_settled hp₁.coherent hok (by omega) hm
    exact not_locked_of_settled hp₁.legal hmerge hfold (locked_rebuildWires.2 hlocked)
  case cost =>
    intro hwires htwins hflat hchanges
    have hcost₁ := hswept.cost htwins
    have hcost₂ := hp₁.legal.foldConstants_cost hp₁.coherent hok
    have hcost₃ := hp₂.legal.dropDead_cost hp₂.coherent
    have hcost₄ := hbalanced.cost
    rw [← cost_rebuildWires (n₁.rebuildWires.foldConstants false).1, hn₂, cost_rebuildWires]
      at hcost₂
    rw [cost_rebuildWires] at hcost₄ ⊢
    by_cases hzero : merged + outcome.changes + n₂.dropDead.2 = 0
    · -- Only the trees are left to change, and these are flat.
      have hsame := hidle (by omega) (by omega) (by omega)
      rw [hwires] at hsame
      rw [hsame] at hbalanced
      have hsettled := hbalanced.settled hflat
      omega
    · omega

/-! ## Round after round -/

/-- The default passes in as many rounds as given, without stopping at divisions by zero. -/
abbrev lenient (rounds : Nat) : OptSettings := ⟨Pass.all, rounds, false⟩

theorem optimize_succ (n : Netlist) (left : Nat) :
    n.optimize (lenient (left + 1)) = runRounds (lenient (left + 1)) left 1 n [] := rfl

/-- A run of rounds comes to an end within the rounds it has. -/
def Settles (r : Netlist × Except OptError OptReport) : Prop :=
  ∃ report, r.2 = .ok report ∧ report.converged = true

theorem not_settles_unconverged {rounds : Nat} {passes : List PassReport} :
    ¬ Settles (n, .ok ⟨rounds, false, passes⟩) := by
  rintro ⟨report, hreport, hend⟩
  cases hreport
  cases hend

namespace Round

variable (h : Round n n' changes) (round : Nat) (reports : List PassReport)
include h

theorem validate : n'.validate = .ok () := by
  rw [← h.wires]
  exact h.preserved.coherent.validate_rebuildWires h.preserved.legal

/-- A round without changes is the last one. -/
theorem runRounds_idle (hzero : changes = 0) :
    ∃ passes, ∀ rounds left, runRounds (lenient rounds) left round n reports =
      (n', .ok ⟨round, true, passes⟩) := by
  obtain ⟨new, hnew, hchanges⟩ := h.run round []
  refine ⟨reports ++ new, fun rounds left => ?_⟩
  rw [runRounds, hnew]
  dsimp only [List.nil_append]
  rw [if_pos (hchanges.trans hzero)]

/-- A round with changes is the last one if no round is left. -/
theorem runRounds_zero (hbusy : changes ≠ 0) :
    ∃ passes, ∀ rounds, runRounds (lenient rounds) 0 round n reports =
      (n', .ok ⟨round, false, passes⟩) := by
  obtain ⟨new, hnew, hchanges⟩ := h.run round []
  refine ⟨reports ++ new, fun rounds => ?_⟩
  rw [runRounds, hnew]
  dsimp only [List.nil_append]
  rw [if_neg (hchanges.trans_ne hbusy)]

/-- After a round with changes another follows if there is one left. -/
theorem runRounds_succ (hbusy : changes ≠ 0) :
    ∃ passes, ∀ rounds left, runRounds (lenient rounds) (left + 1) round n reports =
      runRounds (lenient rounds) left (round + 1) n' passes := by
  obtain ⟨new, hnew, hchanges⟩ := h.run round []
  refine ⟨reports ++ new, fun rounds left => ?_⟩
  rw [runRounds, hnew]
  dsimp only [List.nil_append]
  rw [if_neg (hchanges.trans_ne hbusy)]

/-- If two constant ports are equal after some rounds, then the first of them changes something. -/
theorem busy_of_result {rounds left : Nat}
    (hlocked : (runRounds (lenient rounds) left round n reports).1.Locked) : changes ≠ 0 := by
  intro hzero
  obtain ⟨passes, hrun⟩ := h.runRounds_idle round reports hzero
  rw [hrun, h.idle hzero, locked_rebuildWires] at hlocked
  exact h.busy hlocked hzero

end Round

/-- If two constant ports are equal, they stay so in every round, and every round has changes to
make. -/
theorem Locked.not_settles (hlocked : n.Locked) (hc : n.Coherent) (hv : n.validate = .ok ())
    (rounds left round : Nat) (reports : List PassReport) :
    ¬ Settles (runRounds (lenient rounds) left round n reports) := by
  induction left generalizing n round reports with
  | zero =>
    obtain ⟨n', changes, hround⟩ := exists_round hc hv
    obtain ⟨passes, hrun⟩ := hround.runRounds_zero round reports (hround.busy hlocked)
    rw [hrun]
    exact not_settles_unconverged
  | succ left ih =>
    obtain ⟨n', changes, hround⟩ := exists_round hc hv
    obtain ⟨passes, hrun⟩ := hround.runRounds_succ round reports (hround.busy hlocked)
    rw [hrun]
    exact ih (hround.locked hlocked) hround.preserved.coherent hround.validate _ _

/-- If two constant ports are equal after some rounds, more rounds come to no end either. -/
theorem not_settles_of_locked (hc : n.Coherent) (hv : n.validate = .ok ())
    (rounds round : Nat) (reports : List PassReport) {left more : Nat} (hle : left ≤ more)
    (hlocked : (runRounds (lenient rounds) left round n reports).1.Locked) (rounds' : Nat) :
    ¬ Settles (runRounds (lenient rounds') more round n reports) := by
  -- The rounds that both runs have in common are taken off one by one.
  induction left generalizing n round reports more with
  | zero =>
    obtain ⟨n', changes, hround⟩ := exists_round hc hv
    have hbusy := hround.busy_of_result _ _ hlocked
    obtain ⟨passes, hrun⟩ := hround.runRounds_zero round reports hbusy
    cases more with
    | zero =>
      rw [hrun]
      exact not_settles_unconverged
    | succ more =>
      obtain ⟨passes', hrun'⟩ := hround.runRounds_succ round reports hbusy
      rw [hrun] at hlocked
      rw [hrun']
      exact hlocked.not_settles hround.preserved.coherent hround.validate _ _ _ _
  | succ left ih =>
    obtain ⟨n', changes, hround⟩ := exists_round hc hv
    obtain ⟨passes, hrun⟩ := hround.runRounds_succ round reports (hround.busy_of_result _ _ hlocked)
    obtain ⟨more, rfl⟩ := Nat.exists_eq_add_of_le' (Nat.one_le_of_lt hle)
    rw [hrun] at hlocked ⊢
    exact ih hround.preserved.coherent hround.validate _ _ (Nat.le_of_succ_le_succ hle) hlocked

/-- A netlist of flat trees gets lighter in every round, as long as no two outputs are equal
literals, so the rounds come to an end. -/
theorem exists_settles (hc : n.Coherent) (hv : n.validate = .ok ()) (hwires : n.rebuildWires = n)
    (hflat : ∀ q, ¬ Balancing.Deep n q) (htwins : ¬ n.Twins)
    (hnever : ∀ left, ∃ rounds round reports,
      ¬ (runRounds (lenient rounds) left round n reports).1.Twins) :
    ∃ bound, ∀ rounds left round reports, bound ≤ left →
      Settles (runRounds (lenient rounds) left round n reports) := by
  induction hcost : n.cost using Nat.strong_induction_on generalizing n with
  | _ cost ih =>
  obtain ⟨n', changes, hround⟩ := exists_round hc hv
  by_cases hzero : changes = 0
  · refine ⟨0, fun rounds left round reports _ => ?_⟩
    obtain ⟨passes, hrun⟩ := hround.runRounds_idle round reports hzero
    rw [hrun]
    exact ⟨_, rfl, rfl⟩
  · have htwins' : ¬ n'.Twins := by
      obtain ⟨rounds, round, reports, hfree⟩ := hnever 0
      obtain ⟨passes, hrun⟩ := hround.runRounds_zero round reports hzero
      rwa [hrun] at hfree
    have hnever' : ∀ left, ∃ rounds round reports,
        ¬ (runRounds (lenient rounds) left round n' reports).1.Twins := by
      intro left
      obtain ⟨rounds, round, reports, hfree⟩ := hnever (left + 1)
      obtain ⟨passes, hrun⟩ := hround.runRounds_succ round reports hzero
      rw [hrun] at hfree
      exact ⟨_, _, _, hfree⟩
    have hlighter := hround.cost hwires htwins hflat hzero
    obtain ⟨bound, hbound⟩ := ih n'.cost (hcost ▸ hlighter) hround.preserved.coherent
      hround.validate hround.wires hround.flat htwins' hnever' rfl
    refine ⟨bound + 1, fun rounds left round reports hle => ?_⟩
    obtain ⟨left, rfl⟩ := Nat.exists_eq_add_of_le' (Nat.one_le_of_lt hle)
    obtain ⟨passes, hrun⟩ := hround.runRounds_succ round reports hzero
    rw [hrun]
    exact hbound _ _ _ _ (Nat.le_of_succ_le_succ hle)

theorem not_twins_of_outputs {port : String} (h : n.outputs = [port]) : ¬ n.Twins := by
  rintro ⟨a, -, b, -, hne, -, -, ha, hb⟩
  have hao := (isLiteralPort_iff.1 ha).1
  have hbo := (isLiteralPort_iff.1 hb).1
  rw [h, List.mem_singleton] at hao hbo
  exact hne (hao.trans hbo.symm)

/-- The rounds come to an end exactly if no number of them leaves two equal literals at the primary
outputs. -/
theorem optimize_converges_iff (hc : n.Coherent) (hv : n.validate = .ok ()) :
    (∃ enough, ∀ rounds, enough ≤ rounds → Settles (n.optimize (lenient rounds))) ↔
      ∀ rounds, ¬ (n.optimize (lenient rounds)).1.Twins := by
  constructor
  · rintro ⟨enough, hsettles⟩ rounds htwins
    have hmore : rounds - 1 ≤ max enough rounds - 1 := by omega
    exact not_settles_of_locked hc hv rounds 1 [] hmore htwins.locked _
      (hsettles (max enough rounds) (Nat.le_max_left _ _))
  · intro hnever
    obtain ⟨n', changes, hround⟩ := exists_round hc hv
    by_cases hzero : changes = 0
    · refine ⟨0, fun rounds _ => ?_⟩
      obtain ⟨passes, hrun⟩ := hround.runRounds_idle 1 [] hzero
      rw [optimize, hrun]
      exact ⟨_, rfl, rfl⟩
    · -- The first round flattens the trees, from then on the netlist gets lighter.
      have htwins : ¬ n'.Twins := by
        have hfree := hnever 1
        obtain ⟨passes, hrun⟩ := hround.runRounds_zero 1 [] hzero
        rwa [optimize_succ, hrun] at hfree
      have hnever' : ∀ left, ∃ rounds round reports,
          ¬ (runRounds (lenient rounds) left round n' reports).1.Twins := by
        intro left
        have hfree := hnever (left + 2)
        obtain ⟨passes, hrun⟩ := hround.runRounds_succ 1 [] hzero
        rw [optimize_succ, hrun] at hfree
        exact ⟨_, _, _, hfree⟩
      obtain ⟨bound, hbound⟩ := exists_settles hround.preserved.coherent hround.validate
        hround.wires hround.flat htwins hnever'
      refine ⟨bound + 2, fun rounds hle => ?_⟩
      obtain ⟨more, rfl⟩ := Nat.exists_eq_add_of_le' (Nat.le_of_add_left_le hle)
      obtain ⟨passes, hrun⟩ := hround.runRounds_succ 1 [] hzero
      rw [optimize_succ, hrun]
      exact hbound _ _ _ _ (by omega)

end Netlist

open Netlist

/-! ## One output, and two that are equal literals -/

namespace PaddedGate

/-- `b AND (a OR 0)`. -/
def netlist : Netlist where
  name := "padded"
  inputs := ["a", "b"]
  outputs := ["y"]
  widths := ⟨["a", "b", "y"].map (·, Width.one)⟩
  arena := [some ⟨⟨0⟩, .const 0, [], "zero"⟩,
    some ⟨⟨1⟩, .op .or, [.plain "a", .plain "zero"], "t"⟩,
    some ⟨⟨2⟩, .op .and, [.plain "b", .plain "t"], "y"⟩]
  wires := [⟨"a", ⟨1⟩, 0⟩, ⟨"zero", ⟨1⟩, 1⟩, ⟨"b", ⟨2⟩, 0⟩, ⟨"t", ⟨2⟩, 1⟩]
  nextFresh := 0

theorem coherent : netlist.Coherent := by
  refine ⟨fun {i node} h => ?_, by decide, by decide, by decide⟩
  match i, h with
  | 0, h | 1, h | 2, h =>
    cases h
    rfl

theorem validate : netlist.validate = .ok () := by
  rw [Netlist.validate_of_derived (by decide)]
  decide

end PaddedGate

/-- With one output there are no two that are equal. -/
theorem optimize_converges_iff_paddedGate :
    PaddedGate.netlist.Coherent ∧ PaddedGate.netlist.validate = .ok () ∧
      ∃ enough, ∀ rounds, enough ≤ rounds →
        Settles (PaddedGate.netlist.optimize (lenient rounds)) := by
  refine ⟨PaddedGate.coherent, PaddedGate.validate, ?_⟩
  refine (optimize_converges_iff PaddedGate.coherent PaddedGate.validate).2 fun rounds => ?_
  have houtputs : (PaddedGate.netlist.optimize (lenient rounds)).1.outputs = ["y"] :=
    (PaddedGate.coherent.optimize_intact PaddedGate.validate _).preserved.outputs
  exact not_twins_of_outputs houtputs

namespace EqualLiterals

/-- Two outputs that are zero. -/
def netlist : Netlist where
  name := "twins"
  inputs := []
  outputs := ["y", "z"]
  widths := ⟨["y", "z"].map (·, Width.one)⟩
  arena := [some ⟨⟨0⟩, .const 0, [], "y"⟩, some ⟨⟨1⟩, .const 0, [], "z"⟩]
  wires := []
  nextFresh := 0

theorem coherent : netlist.Coherent := by
  refine ⟨fun {i node} h => ?_, by decide, by decide, by decide⟩
  match i, h with
  | 0, h | 1, h =>
    cases h
    rfl

theorem validate : netlist.validate = .ok () := by
  rw [Netlist.validate_of_derived (by decide)]
  decide

end EqualLiterals

/-- One of the outputs becomes a buffer and then zero again, in every round. -/
theorem optimize_equalLiterals :
    EqualLiterals.netlist.Coherent ∧ EqualLiterals.netlist.validate = .ok () ∧
      ∀ rounds, ¬ Settles (EqualLiterals.netlist.optimize (lenient rounds)) := by
  have htwins : EqualLiterals.netlist.Twins := by decide
  exact ⟨EqualLiterals.coherent, EqualLiterals.validate, fun rounds =>
    htwins.locked.not_settles EqualLiterals.coherent EqualLiterals.validate _ _ _ _⟩

end GateSynth
