import GateSynth.Netlist.Validate
import GateSynth.Optimize.Balancing
import GateSynth.Optimize.Folding
import GateSynth.Optimize.Liveness
import GateSynth.Optimize.Merging
import GateSynth.Total

/-!
# Rounds of passes

`Netlist.optimize` runs the passes of its settings in order, round after round, until a round
changes nothing or the limit of rounds is reached. Every pass is run by `Netlist.runPass`, which
validates the netlist before and after and takes the pass back if anything goes wrong.
-/

namespace GateSynth

/-- How to optimize. -/
structure OptSettings where
  /-- The passes of a round, in order. -/
  passes : List Pass
  /-- The largest number of rounds; zero counts as one. -/
  maxRounds : Nat
  /-- A division by a constant zero is an error. -/
  strict : Bool
deriving DecidableEq

/-- All passes, eight rounds, divisions by a constant zero are left alone. -/
def OptSettings.default : OptSettings := ⟨Pass.all, 8, false⟩

/-- One pass of one round in a report. -/
structure PassReport where
  /-- The pass. -/
  pass : Pass
  /-- The round, counted from one. -/
  round : Nat
  /-- What the pass did. -/
  outcome : PassOutcome
  /-- The number of nodes before the pass. -/
  nodesBefore : Nat
  /-- The number of nodes after the pass. -/
  nodesAfter : Nat
deriving DecidableEq

/-- What an optimization did. -/
structure OptReport where
  /-- The number of rounds. -/
  rounds : Nat
  /-- The last round changed nothing. -/
  converged : Bool
  /-- The passes in the order in which they ran. -/
  passes : List PassReport
deriving DecidableEq

namespace OptReport

/-- The number of changes of all passes together. -/
def totalChanges (r : OptReport) : Nat := total (r.passes.map fun p => p.outcome.changes)

/-- The divisions by a constant zero that the last round left alone. -/
def foldErrors (r : OptReport) : List FoldError :=
  (r.passes.filter fun p => p.round = r.rounds).flatMap fun p => p.outcome.foldErrors

end OptReport

namespace Netlist

/-- Run a pass as it is. -/
def applyPass (pass : Pass) (strict : Bool) (n : Netlist) :
    Netlist × Except OptError PassOutcome :=
  let counted := fun (r : Netlist × Except NetlistError Nat) =>
    match r with
    | (n, .ok changes) => (n, Except.ok (PassOutcome.changed changes))
    | (n, .error e) => (n, Except.error (OptError.structural pass e))
  match pass with
  | .strash => counted n.mergeEqual
  | .constprop => n.foldConstants strict
  | .dce =>
    let (n, removed) := n.dropDead
    (n, .ok (.changed removed))
  | .balance => counted n.balanceTrees

/-- Run a pass on a valid netlist; the result is valid and has its wires stored, or else the
netlist is as it was. -/
def runPass (pass : Pass) (strict : Bool) (n : Netlist) :
    Netlist × Except OptError PassOutcome :=
  match n.validate with
  | .error e => (n, .error (.structural pass e))
  | .ok () =>
    match n.applyPass pass strict with
    | (_, .error e) => (n, .error e)
    | (result, .ok outcome) =>
      let result := result.rebuildWires
      match result.validate with
      | .error e => (n, .error (.structural pass e))
      | .ok () => (result, .ok outcome)

/-- Run the passes of a list in one round, adding to the reports of earlier passes. -/
def runRound (strict : Bool) (round : Nat) :
    List Pass → Netlist → List PassReport → Netlist × Except OptError (List PassReport)
  | [], n, reports => (n, .ok reports)
  | pass :: rest, n, reports =>
    match n.runPass pass strict with
    | (after, .error e) => (after, .error e)
    | (after, .ok outcome) =>
      let report : PassReport := ⟨pass, round, outcome, n.nodeCount, after.nodeCount⟩
      runRound strict round rest after (reports ++ [report])

/-- Run `left + 1` rounds at most, of which the first has number `round`. -/
def runRounds (settings : OptSettings) :
    (left round : Nat) → Netlist → List PassReport → Netlist × Except OptError OptReport
  | left, round, n, reports =>
    match runRound settings.strict round settings.passes n [] with
    | (n, .error e) => (n, .error e)
    | (n, .ok new) =>
      let reports := reports ++ new
      if total (new.map fun p => p.outcome.changes) = 0 then (n, .ok ⟨round, true, reports⟩)
      else
        match left with
        | 0 => (n, .ok ⟨round, false, reports⟩)
        | left + 1 => runRounds settings left (round + 1) n reports

/-- Optimize a netlist. On failure the netlist is what the passes before have left. -/
def optimize (n : Netlist) (settings : OptSettings) : Netlist × Except OptError OptReport :=
  runRounds settings (settings.maxRounds - 1) 1 n []

end Netlist

end GateSynth
