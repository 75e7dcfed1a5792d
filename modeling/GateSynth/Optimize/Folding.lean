import GateSynth.Netlist.Order
import GateSynth.Optimize.Pass
import GateSynth.Simulation.Apply

/-!
# Folding constants

A node all of whose operands are constant becomes a constant; a node with one constant operand
becomes a buffer, an inverter or a constant where an identity of its operator says so. Nodes are
changed in place, so their readers see the constant at once. `Netlist.foldConstants` sweeps
over the nodes, drivers first, until nothing changes.

A division by a constant zero is never folded. In strict mode it ends the pass, which leaves the
changes made so far; otherwise it is listed. The pass also ends if there is no node under an
identifier of the order or if a node cannot be replaced.
-/

namespace GateSynth

namespace Folding

/-- What becomes of a node. -/
inductive Fold where
  /-- It stays as it is. -/
  | keep
  /-- It gets another kind and other fanins. -/
  | become (kind : Kind) (fanins : List Fanin)
  /-- It divides by a constant zero. -/
  | divisionByZero
deriving DecidableEq

/-- The value of a fanin that reads a constant. -/
def constOperand (n : Netlist) (f : Fanin) : Option Word := do
  let node ← n.driverNode? f.signal
  let value ← node.kind.constValue?
  let w := n.width f.signal
  return if f.inverted then w.complement value else w.truncate value

/-- The constant and the other fanin of a node with one constant operand of two. -/
def splitConst : List Fanin → List (Option Word) → Option (Word × Fanin)
  | [_, x], [some c, none] => some (c, x)
  | [x, _], [none, some c] => some (c, x)
  | _, _ => none

/-- The node becomes a constant. -/
def Fold.const (value : Word) : Fold := .become (.const value) []

/-- The node becomes a buffer. -/
def Fold.buffer (f : Fanin) : Fold := .become (.op .buf) [f]

/-- The node becomes an inverter. -/
def Fold.inverter (f : Fanin) : Fold := .become (.op .not) [f]

/-- What a commutative operator makes of `x` and a constant, cut to the width of the output. -/
def commutativeFold (op : Operator) (w : Width) (c : Word) (x : Fanin) : Fold :=
  let ones := c = w.mask
  let zero := c = 0
  match op with
  | .and => if zero then .const 0 else if ones then .buffer x else .keep
  | .or => if ones then .const w.mask else if zero then .buffer x else .keep
  | .xor => if zero then .buffer x else if ones then .inverter x else .keep
  | .nand => if ones then .inverter x else if zero then .const w.mask else .keep
  | .nor => if ones then .const 0 else if zero then .inverter x else .keep
  | .add => if zero then .buffer x else .keep
  | .mul => if zero then .const 0 else if c = 1 then .buffer x else .keep
  | _ => .keep

/-- What becomes of a node when only some of its operands are constant. -/
def partialFold (op : Operator) (fanins : List Fanin) (operands : List (Option Word))
    (w : Width) : Fold :=
  match op with
  | .sub =>
    match fanins, operands with
    | [x, _], [none, some c] => if w.truncate c = 0 then .buffer x else .keep
    | _, _ => .keep
  | .div =>
    match fanins, operands with
    | [x, _], [first, some c] =>
      if c = 0 then .divisionByZero
      else if first.isNone ∧ c = 1 then .buffer x
      else .keep
    | _, _ => .keep
  | .mux =>
    match fanins, operands with
    | [d0, d1, _], [_, _, some select] => .buffer (if select = 0 then d0 else d1)
    | [d0, d1, _], _ => if d0 = d1 then .buffer d0 else .keep
    | _, _ => .keep
  | .not | .buf => .keep
  | op =>
    match splitConst fanins operands with
    | some (c, x) => commutativeFold op w (w.truncate c) x
    | none => .keep

/-- What becomes of a node with these operands and this output width. -/
def fold (node : Node) (operands : List (Option Word)) (w : Width) : Fold :=
  if !node.fanins.isEmpty && node.kind.isGeneric && operands.all Option.isSome then
    match node.kind.apply (operands.filterMap id) w with
    | .ok value => .const value
    | .error .divisionByZero => .divisionByZero
    | .error .noFunction => .keep
  else
    match node.kind with
    | .op op => partialFold op node.fanins operands w
    | _ => .keep

/-- A pass under way. -/
structure State where
  /-- The netlist so far. -/
  netlist : Netlist
  /-- The divisions by zero that were met. -/
  errors : Table NodeId FoldError
  /-- The number of nodes that this sweep changed. -/
  changed : Nat

/-- Visit one node; the second component is what ends the pass. -/
def State.visit (strict : Bool) (s : State) (id : NodeId) : State × Option OptError :=
  match s.netlist.node? id with
  | none => (s, some (.structural .constprop (.unknownNode id)))
  | some node =>
    let operands := node.fanins.map (constOperand s.netlist)
    match fold node operands (s.netlist.width node.output) with
    | .keep => (s, none)
    | .become kind fanins =>
      if kind = node.kind ∧ fanins = node.fanins then (s, none)
      else
        match s.netlist.replaceNode id kind fanins with
        | .error e => (s, some (.structural .constprop e))
        | .ok netlist => ({ s with netlist, changed := s.changed + 1 }, none)
    | .divisionByZero =>
      let error : FoldError := ⟨id, node.kind.tag, operands⟩
      if strict then (s, some (.fold error))
      else ({ s with errors := s.errors.insert id error }, none)

/-- Visit nodes in order until one ends the pass. -/
def State.visitAll (strict : Bool) : List NodeId → State → State × Option OptError
  | [], s => (s, none)
  | id :: rest, s =>
    match s.visit strict id with
    | (s, none) => visitAll strict rest s
    | stopped => stopped

end Folding

/-- Sweep until nothing changes. -/
def Netlist.foldSweeps (strict : Bool) (n : Netlist) (errors : Table NodeId FoldError)
    (changes : Nat) : Netlist × Except OptError PassOutcome :=
  match n.topoOrder with
  | .error e => (n, .error (.structural .constprop e))
  | .ok order =>
    match Folding.State.visitAll strict order ⟨n, errors, 0⟩ with
    | (s, some error) => (s.netlist, .error error)
    | (s, none) =>
      if s.changed = 0 then (s.netlist, .ok ⟨changes, s.errors.values⟩)
      else s.netlist |>.foldSweeps strict s.errors (changes + s.changed)
partial_fixpoint

/-- Fold constants until there is nothing left to fold. -/
def Netlist.foldConstants (n : Netlist) (strict : Bool) : Netlist × Except OptError PassOutcome :=
  n.foldSweeps strict Table.empty 0

end GateSynth
