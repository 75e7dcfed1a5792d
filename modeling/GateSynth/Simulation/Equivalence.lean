import GateSynth.Simulation.Evaluator

/-!
# Equivalence

Two netlists with the same ports are compared on every assignment of their inputs.
`checkEquivalence` gives the first assignment, in index order, on which an output of the
reference differs in the candidate.
-/

namespace GateSynth

/-- An assignment on which two netlists differ. -/
structure Counterexample where
  /-- The values of the primary inputs of the reference. -/
  inputs : List (String × Word)
  /-- The first output that differs. -/
  output : String
  /-- Its value in the reference. -/
  expected : Word
  /-- Its value in the candidate. -/
  actual : Word
deriving DecidableEq

namespace Equivalence

/-- The first fault of the ports: an input of the reference, the number of inputs, an output of
the reference. -/
def portFault? (reference candidate : Netlist) : Option PortFault :=
  match reference.inputs.find? fun i =>
    !candidate.isInput i || reference.width i != candidate.width i with
  | some i => some (.input i)
  | none =>
    if reference.inputs.length ≠ candidate.inputs.length then some .inputCount
    else (reference.outputs.find? fun o => !candidate.isOutput o).map .output

/-- The first output whose value differs, with both values. -/
def firstDifference (actual : List (String × Word)) :
    List (String × Word) → Option (String × Word × Word)
  | [] => none
  | (output, want) :: rest =>
    let got := (Table.findEntry output actual).getD 0
    if got = want then firstDifference actual rest else some (output, want, got)

/-- Compare two netlists on one assignment. -/
def compareAt (reference candidate : Evaluator) (index : Nat) :
    Except EvalError (Option Counterexample) := do
  let given := reference.assignment (UInt64.ofNat index)
  let expected ← reference.evaluate given
  let actual ← candidate.evaluate given
  match firstDifference actual expected with
  | some (output, want, got) =>
    let inputs := reference.netlist.inputs.map fun i => (i, (given.find? i).getD 0)
    return some ⟨inputs, output, want, got⟩
  | none => return none

/-- Compare two netlists on `count` assignments from `index` on. -/
def searchFrom (reference candidate : Evaluator) :
    (count index : Nat) → Except EvalError (Option Counterexample)
  | 0, _ => .ok none
  | count + 1, index =>
    match compareAt reference candidate index with
    | .ok none => searchFrom reference candidate count (index + 1)
    | found => found

end Equivalence

/-- Compare two netlists on every assignment; `none` means that they agree. -/
def checkEquivalence (reference candidate : Evaluator) (limit : Nat) :
    Except EvalError (Option Counterexample) :=
  match Equivalence.portFault? reference.netlist candidate.netlist with
  | some fault => .error (.portMismatch fault)
  | none => do
    let count ← reference.assignmentCount limit
    Equivalence.searchFrom reference candidate count 0

end GateSynth
