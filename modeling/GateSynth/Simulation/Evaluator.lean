import GateSynth.Netlist.Order
import GateSynth.Simulation.Apply
import GateSynth.Total

/-!
# Simulation

An evaluator is a netlist with an order of its nodes and the functions of the library cells.
`simulate` gives every signal its value: a primary input the given value at its width, a node
what its kind, or its cell, makes of its fanins. An inverted fanin is complemented at the width
of the signal it reads, and a division by zero gives zero.

An assignment index packs the values of all primary inputs into one word, the first input in the
low bits; `truthTable` runs through every index.
-/

namespace GateSynth

/-- The value of every signal that has one. -/
abbrev Values := Table String Word

/-- The functions of library cells: from the name of a cell, its literal, its operands and the
width of its output to its value, where it has one. -/
abbrev CellFunctions := String → Option Word → List Word → Width → Option Word

/-- No library: no cell has a function. -/
def CellFunctions.none : CellFunctions := fun _ _ _ _ => Option.none

/-- What is wrong with the ports of two netlists that are compared. -/
inductive PortFault where
  /-- An input is missing in the candidate or has another width there. -/
  | input (name : String)
  /-- The candidate has more inputs. -/
  | inputCount
  /-- An output is missing in the candidate. -/
  | output (name : String)
deriving DecidableEq

/-- Why a netlist cannot be evaluated. -/
inductive EvalError where
  /-- The netlist is not in order. -/
  | structural (error : NetlistError)
  /-- A primary input has no value. -/
  | missingInput (name : String)
  /-- A node has no function. -/
  | unevaluable (node : NodeId) (kind : String)
  /-- There are too many assignments to try them all. -/
  | tooWide (bits limit : Nat)
  /-- Two netlists have different ports. -/
  | portMismatch (fault : PortFault)
deriving DecidableEq

/-- The wording of a port fault. -/
def PortFault.text : PortFault → String
  | input name => s!"input '{name}'"
  | inputCount => "input count"
  | output name => s!"output '{name}'"

/-- The wording of an error. -/
def EvalError.message : EvalError → String
  | structural error => error.message
  | missingInput name => s!"No value supplied for primary input '{name}'"
  | unevaluable node kind => s!"Node {node} ({kind}) cannot be evaluated"
  | tooWide bits limit =>
    s!"Design has {bits} input bits, exhaustive evaluation is limited to {limit}"
  | portMismatch fault => "Port mismatch: " ++ fault.text

/-- A netlist ready for simulation. -/
structure Evaluator where
  /-- The netlist. -/
  netlist : Netlist
  /-- Its nodes, drivers first. -/
  order : List NodeId
  /-- The functions of its library cells. -/
  cells : CellFunctions

namespace Evaluator

/-- Prepare a netlist for simulation. -/
def ofNetlist (n : Netlist) (cells : CellFunctions) : Except EvalError Evaluator :=
  match n.topoOrder with
  | .ok order => .ok ⟨n, order, cells⟩
  | .error e => .error (.structural e)

/-! ## One assignment -/

/-- The values of the primary inputs, each at its width. -/
def inputValues (n : Netlist) (given : Values) : List String → Values → Except EvalError Values
  | [], values => .ok values
  | input :: rest, values =>
    match given.find? input with
    | some value => inputValues n given rest (values.insert input ((n.width input).truncate value))
    | none => .error (.missingInput input)

/-- The value that a fanin sees. -/
def faninValue (n : Netlist) (values : Values) (f : Fanin) : Word :=
  let value := (values.find? f.signal).getD 0
  if f.inverted then (n.width f.signal).complement value else value

/-- The value of a node whose fanins have theirs. -/
def nodeValue (n : Netlist) (cells : CellFunctions) (values : Values) (node : Node) :
    Except EvalError Word :=
  let w := n.width node.output
  let operands := node.fanins.map (faninValue n values)
  match node.kind.apply operands w with
  | .ok value => .ok (w.truncate value)
  | .error .divisionByZero => .ok 0
  | .error .noFunction =>
    match node.kind with
    | .cell name init =>
      match cells name init operands w with
      | some value => .ok (w.truncate value)
      | none => .error (.unevaluable node.id node.kind.text)
    | _ => .error (.unevaluable node.id node.kind.text)

/-- Run through nodes in order, giving each its value. -/
def run (n : Netlist) (cells : CellFunctions) : List NodeId → Values → Except EvalError Values
  | [], values => .ok values
  | id :: rest, values =>
    match n.node? id with
    | some node =>
      match nodeValue n cells values node with
      | .ok value => run n cells rest (values.push node.output value)
      | .error e => .error e
    | none => run n cells rest values

/-- The value of every signal for given values of the primary inputs. -/
def simulate (e : Evaluator) (given : Values) : Except EvalError Values := do
  let values ← inputValues e.netlist given e.netlist.inputs Table.empty
  run e.netlist e.cells e.order values

/-- The values of the primary outputs, in their order. -/
def evaluate (e : Evaluator) (given : Values) : Except EvalError (List (String × Word)) := do
  let values ← e.simulate given
  return e.netlist.outputs.map fun output => (output, (values.find? output).getD 0)

/-! ## All assignments -/

/-- The number of bits of all primary inputs together. They are added up in 32 bits, which hold the
sum as long as it is below 2 ^ 32; assignments are counted only where it is below 64. -/
def inputBits (e : Evaluator) : Nat :=
  total (e.netlist.inputs.map fun input => (e.netlist.width input).bits)

/-- The values that an index packs for the inputs of a list, from bit `shift` on. -/
def unpack (n : Netlist) (index : Nat) : List String → (shift : Nat) → Values → Values
  | [], _, values => values
  | input :: rest, shift, values =>
    let w := n.width input
    let value := w.truncate (UInt64.ofNat (index >>> shift))
    unpack n index rest (shift + w.bits) (values.insert input value)

/-- The values of the primary inputs that an assignment index packs. -/
def assignment (e : Evaluator) (index : Word) : Values :=
  unpack e.netlist index.toNat e.netlist.inputs 0 Table.empty

/-- The number of assignments, if it is within reach. -/
def assignmentCount (e : Evaluator) (limit : Nat) : Except EvalError Nat :=
  let bits := e.inputBits
  if bits > limit ∨ bits ≥ 64 then .error (.tooWide bits limit) else .ok (Nat.pow 2 bits)

end Evaluator

/-- The output values of a netlist for every assignment. -/
structure TruthTable where
  /-- The primary inputs with their widths; an index packs them in this order. -/
  inputs : List (String × Width)
  /-- The primary outputs; each row has their values in this order. -/
  outputs : List String
  /-- One row for each assignment index. -/
  rows : List (List Word)

namespace TruthTable

/-- The value of an output in a row. -/
def output? (t : TruthTable) (row : Nat) (name : String) : Option Word := do
  let column ← t.outputs.findIdx? fun o => o = name
  let values ← t.rows[row]?
  values[column]?

end TruthTable

namespace Evaluator

/-- Evaluate every assignment. -/
def truthTable (e : Evaluator) (limit : Nat) : Except EvalError TruthTable := do
  let count ← e.assignmentCount limit
  let rows ← (List.range count).mapM fun index => do
    let outputs ← e.evaluate (e.assignment (UInt64.ofNat index))
    return outputs.map Prod.snd
  return ⟨e.netlist.inputs.map fun i => (i, e.netlist.width i), e.netlist.outputs, rows⟩

end Evaluator

end GateSynth
