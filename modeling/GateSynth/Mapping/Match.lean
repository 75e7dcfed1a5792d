import GateSynth.Library.Basic
import GateSynth.Mapping.Subject

/-!
# Matches

A match says how one instance of a cell computes a node of a subject graph: which signals its
pins read, and which further nodes it covers. `Occurrence.expand` finds every way in which a
pattern occurs at a signal. A pattern goes deeper than the root only through nodes that nobody
else reads and that have the width of the root. The operands of a commutative operator are tried
in both orders.
-/

namespace GateSynth

/-- How one instance of a cell computes a node. -/
structure Match (ν : Type) where
  /-- The node whose signal the instance drives. -/
  root : NodeId
  /-- The cell. -/
  cell : Cell ν
  /-- The signal that each input pin reads, in the order of the pins. -/
  leaves : List String
  /-- The nodes below the root that the instance covers. -/
  covered : List NodeId
  /-- The constant that the instance drives. -/
  init : Option Word

namespace Match

variable {ν : Type}

/-- The kind of the instance. -/
def kind (m : Match ν) : Kind := .cell m.cell.name m.init

/-- The input pins with the signals they read. -/
def pins (m : Match ν) : List (String × String) := m.cell.inputs.zip m.leaves

/-- Two matches of one node are the same instance. Cells of a library are told apart by name. -/
def sameInstance (m m' : Match ν) : Bool :=
  m.cell.name == m'.cell.name && m.leaves == m'.leaves && m.covered == m'.covered
    && m.init == m'.init

end Match

/-! ## Patterns in the subject graph -/

/-- What is fixed so far of the way in which a pattern occurs. -/
structure Occurrence where
  /-- The signals of the pins. -/
  pins : Table String String
  /-- The nodes below the root, in the order in which they were met. -/
  covered : List NodeId
  /-- The constant. -/
  init : Option Word

namespace Occurrence

/-- Nothing is fixed. -/
def empty : Occurrence := ⟨Table.empty, [], none⟩

/-- Bind a pin to a signal, unless it is bound to another one. -/
def bindPin (o : Occurrence) (pin signal : String) : List Occurrence :=
  match o.pins.find? pin with
  | some bound => if bound = signal then [o] else []
  | none => [{ o with pins := o.pins.insert pin signal }]

/-- Fix the constant, unless it is fixed to another one. -/
def bindInit (o : Occurrence) (value : Word) : List Occurrence :=
  match o.init with
  | some init => if init = value then [o] else []
  | none => [{ o with init := some value }]

/-- Count a node as covered, unless it is the root. -/
def cover (o : Occurrence) (isRoot : Bool) (node : NodeId) : Occurrence :=
  if isRoot then o else { o with covered := o.covered ++ [node] }

/-- The node at which an operator of a pattern can stand: the driver of a signal, which below the
root must be absorbable and have the width of the root. -/
def operatorAt? (s : Subject) (w : Width) (signal : String) (isRoot : Bool) : Option Node :=
  match s.netlist.driverNode? signal with
  | some node =>
    if isRoot || (s.isAbsorbable signal && s.netlist.width signal = w) then some node else none
  | none => none

/-- The orders in which the operands of a kind are tried. -/
def operandOrders (kind : Kind) (operands : List String) : List (List String) :=
  match kind.isCommutative, operands with
  | true, [a, b] => [[a, b], [b, a]]
  | _, _ => [operands]

mutual

/-- Every way to fix what is open such that a pattern occurs at a signal. -/
@[simp]
def expand (s : Subject) (w : Width) :
    Pattern → (signal : String) → (isRoot : Bool) → Occurrence → List Occurrence
  | .pin name, signal, _, o => o.bindPin name signal
  | .const, signal, isRoot, o =>
    match operatorAt? s w signal isRoot with
    | none => []
    | some node =>
      match node.kind with
      | .const value => (o.bindInit value).map fun o => o.cover isRoot node.id
      | _ => []
  | .op operator args, signal, isRoot, o =>
    match operatorAt? s w signal isRoot with
    | none => []
    | some node =>
      if node.kind = .op operator ∧ node.fanins.length = args.length then
        (operandOrders node.kind node.faninSignals).flatMap fun operands =>
          expandAll s w args operands (o.cover isRoot node.id)
      else []
  | .module name args, signal, isRoot, o =>
    match operatorAt? s w signal isRoot with
    | none => []
    | some node =>
      if node.kind = .module name ∧ node.fanins.length = args.length then
        expandAll s w args node.faninSignals (o.cover isRoot node.id)
      else []

/-- Every way to fix what is open such that patterns occur at the signals of a list. -/
@[simp]
def expandAll (s : Subject) (w : Width) :
    List Pattern → (signals : List String) → Occurrence → List Occurrence
  | p :: rest, signal :: signals, o =>
    (expand s w p signal false o).flatMap fun o => expandAll s w rest signals o
  | _, _, o => [o]

end

end Occurrence

/-! ## The matches of a node -/

namespace Subject

variable {ν : Type}

/-- The matches of a cell whose function is found at a node, with repetitions. -/
def cellMatches (s : Subject) (node : Node) (cell : Cell ν) : List (Match ν) :=
  let found := Occurrence.expand s (s.netlist.width node.output) cell.function node.output true
    Occurrence.empty
  found.filterMap fun o => do
    let leaves ← cell.inputs.mapM o.pins.find?
    return ⟨node.id, cell, leaves, o.covered, o.init⟩

/-- A list of matches without repetitions, in the order in which they first come. -/
def distinctMatches (found : List (Match ν)) : List (Match ν) :=
  found.foldl (fun kept m => if kept.any m.sameInstance then kept else kept ++ [m]) []

/-- Every match of a node, in library order. An instance of a cell matches its own cell only. -/
def nodeMatches (s : Subject) (lib : Library ν) (node : Node) : List (Match ν) :=
  match node.kind with
  | .cell name init =>
    match lib.cell? name with
    | some cell =>
      if cell.inputs.length = node.fanins.length then
        [⟨node.id, cell, node.faninSignals, [], init⟩]
      else []
    | none => []
  | kind => distinctMatches ((lib.lookup kind).flatMap (s.cellMatches node))

end Subject

end GateSynth
