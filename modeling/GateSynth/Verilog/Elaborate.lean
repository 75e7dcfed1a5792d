import GateSynth.Netlist.Validate
import GateSynth.Verilog.Parser

/-!
# Elaboration

`elaborate` flattens the hierarchy below the top module into one netlist. An expression is
computed at the wider of its own width and the width of what it drives. Comparisons become
arithmetic: `a < b` is the borrow of `a - b`, computed with one bit more and taken out by a
division, and `a == b` is the borrow of `(a ^ b) - 1`.

An instance of a module of the file is inlined: its signals get the name of the instance in front,
its inputs stand for what they are connected to, and its outputs drive the connected signal
directly where the widths agree. An instance of any other module becomes a node without a
function, with its output connected first.
-/

namespace GateSynth.Verilog

/-! ## The top module -/

/-- The module to elaborate: the one of a given name, or else the only one that no module
instantiates. -/
def SourceFile.top (file : SourceFile) (name : Option String) : Except SourceError Module :=
  match file.modules, name with
  | [], _ => .error .noModules
  | _, some name =>
    match file.module? name with
    | some m => .ok m
    | none => .error (.unknownTop name)
  | first :: _, none =>
    let instantiated := file.modules.flatMap fun m => m.instances.map Instance.module
    match file.modules.filter fun m => !instantiated.contains m.name with
    | [only] => .ok only
    | [] => .error (.recursiveInstance first.name)
    | many => .error (.ambiguousTop (many.map Module.name))

namespace Elaborate

/-! ## Scopes -/

/-- What the name of a connected port stands for inside an instance. -/
inductive Binding where
  /-- An input: what it is connected to. -/
  | read (value : Fanin)
  /-- An output: the signal outside that it drives. -/
  | alias (signal : String)

/-- The names inside one instance of a module. -/
structure Scope where
  /-- The module. -/
  module : Module
  /-- What stands in front of its own names. -/
  path : String
  /-- Its connected ports. -/
  bindings : Table String Binding

/-- The statement that is being elaborated. -/
structure Site where
  /-- The name of its module. -/
  module : String
  /-- Its line. -/
  line : Nat

namespace Scope

/-- The error of a name without a declaration. -/
def undeclared (scope : Scope) (name : String) (line : Nat) : SourceError :=
  .undeclaredSignal scope.module.name name line

/-- The declared width of a name. -/
def width (scope : Scope) (name : String) (line : Nat) : Except SourceError Width :=
  match scope.module.decl? name with
  | some d => .ok d.width
  | none => .error (scope.undeclared name line)

/-- The name of a signal of this scope in the flattened netlist. -/
def flatName (scope : Scope) (name : String) : String := scope.path ++ name

/-- What is read under a name. -/
def read (scope : Scope) (name : String) (line : Nat) : Except SourceError Fanin :=
  match scope.bindings.find? name with
  | some (.read value) => .ok value
  | some (.alias signal) => .ok (.plain signal)
  | none =>
    if (scope.module.decl? name).isSome then .ok (.plain (scope.flatName name))
    else .error (scope.undeclared name line)

/-- The signal that is driven under a name. -/
def dest (scope : Scope) (name : String) (line : Nat) : Except SourceError String :=
  let driven := SourceError.drivenInput scope.module.name name line
  match scope.bindings.find? name with
  | some (.read _) => .error driven
  | some (.alias signal) => .ok signal
  | none =>
    match scope.module.decl? name with
    | some d => if d.direction = some .input then .error driven else .ok (scope.flatName name)
    | none => .error (scope.undeclared name line)

end Scope

/-! ## Nodes -/

/-- Steps that build a netlist. -/
abbrev Build := StateT Netlist (Except SourceError)

/-- The error of a construct that is left out, at a statement. -/
def unsupported (site : Site) (construct : String) : SourceError :=
  .unsupported ⟨site.line, 0⟩ construct

/-- The error of a statement whose node the netlist refuses. -/
def refusal (site : Site) : NetlistError → SourceError
  | .multipleDrivers signal _ => .multipleDrivers site.module signal site.line
  | .drivenInput _ signal => .drivenInput site.module signal site.line
  | error => .netlist error

/-- Add a node that drives a signal. -/
def addNode (site : Site) (kind : Kind) (fanins : List Fanin) (output : String) :
    Build Unit := do
  match (← get).addNode kind fanins output with
  | .ok (n, _) => set n
  | .error e => throw (refusal site e)

/-- A new signal. -/
def newSignal (w : Width) : Build String := do
  let (n, name) := (← get).newSignal "t" w
  set n
  return name

/-- Add a node with an output of a width. It drives `dest` if that is no wider, and a new signal
otherwise. -/
def emit (site : Site) (kind : Kind) (fanins : List Fanin) (w : Width) (dest : Option String) :
    Build Fanin := do
  let n ← get
  let output ← match dest.filter fun d => (n.width d).bits ≤ w.bits with
    | some d => pure d
    | none => newSignal w
  addNode site kind fanins output
  return .plain output

/-- Make a signal carry a value, by a buffer unless the value is the signal itself. -/
def drive (site : Site) (dest : String) (value : Fanin) (w : Width) : Build Unit := do
  if value.signal = dest ∧ !value.inverted then return ()
  else
    let _ ← emit site (.op .buf) [value] w (some dest)

/-- A constant on a new signal. -/
def constant (site : Site) (value : Word) (w : Width) : Build Fanin :=
  emit site (.const (w.truncate value)) [] w none

/-- The complement of a value at a width. -/
def invert (site : Site) (value : Fanin) (w : Width) (dest : Option String) : Build Fanin := do
  if (← get).width value.signal = w then return value.negate
  else emit site (.op .not) [value] w dest

/-- The width of the mask for a constant, which has to be one. -/
def maskWidth (bits : Nat) : Build Width :=
  match Width.ofNat? bits with
  | some w => pure w
  | none => throw .beyondWord

/-- One bit more than a width. -/
def wider (w : Width) : Build Width := maskWidth (w.bits + 1)

/-- The power of two with this exponent, made by a shift, which has to stay within a word. -/
def powerOfTwo (exponent : Nat) : Build Word :=
  if exponent < Width.limit then pure (UInt64.ofNat (Nat.pow 2 exponent)) else throw .beyondWord

theorem powerOfTwo_of_lt {exponent : Nat} (h : exponent < Width.limit) :
    powerOfTwo exponent = pure (UInt64.ofNat (Nat.pow 2 exponent)) := by
  rw [powerOfTwo, if_pos h]

theorem powerOfTwo_of_le {exponent : Nat} (h : Width.limit ≤ exponent) :
    powerOfTwo exponent = throw .beyondWord := by
  rw [powerOfTwo, if_neg (Nat.not_lt_of_le h)]

/-- A power of two as a constant, with one bit more than its exponent. -/
def powerConstant (site : Site) (exponent : Nat) : Build Fanin := do
  let power ← powerOfTwo exponent
  constant site power (← maskWidth (exponent + 1))

/-- The bit above a width, of a value with one bit more. -/
def topBit (site : Site) (value : Fanin) (w : Width) (dest : Option String) : Build Fanin := do
  let weight ← powerConstant site w.bits
  emit site (.op .div) [value, weight] .one dest

/-- One if the first value is less: the borrow of their difference. -/
def less (site : Site) (a b : Fanin) (w : Width) (dest : Option String) : Build Fanin := do
  let difference ← emit site (.op .sub) [a, b] (← wider w) none
  topBit site difference w dest

/-- One if the value is zero: the borrow of subtracting one. -/
def isZero (site : Site) (value : Fanin) (w : Width) (dest : Option String) : Build Fanin := do
  if w = .one then invert site value .one dest
  else
    let more ← wider w
    let one ← constant site 1 more
    let decremented ← emit site (.op .sub) [value, one] more none
    topBit site decremented w dest

/-- One if two values are equal. -/
def equal (site : Site) (a b : Fanin) (w : Width) (dest : Option String) : Build Fanin := do
  let difference ← emit site (.op .xor) [a, b] w none
  isZero site difference w dest

/-- One if the value is not zero. -/
def truth (site : Site) (value : Fanin) (w : Width) : Build Fanin := do
  if w = .one then return value
  else return (← isZero site value w none).negate

/-- A comparison of two values of a width below 64. -/
def compare (site : Site) (op : BinaryOp) (a b : Fanin) (w : Width) (dest : Option String) :
    Build Fanin := do
  match op with
  | .eq => equal site a b w dest
  | .ne => return (← equal site a b w none).negate
  | .lt => less site a b w dest
  | .gt => less site b a w dest
  | .le => return (← less site b a w none).negate
  | _ => return (← less site a b w none).negate

/-! ## Expressions -/

/-- The width of this many bits, if it is one. -/
def checkedWidth (site : Site) (bits : Nat) : Except SourceError Width :=
  match Width.ofNat? bits with
  | some w => .ok w
  | none => .error (unsupported site s!"expression width {bits}")

mutual

/-- The width that an expression has by itself. -/
def selfWidth (scope : Scope) (site : Site) : Expr → Except SourceError Width
  | .ident name pos => scope.width name pos.line
  | .number (some bits) _ => checkedWidth site bits
  | .number none value => .ok (.ofValue value)
  | .select name msb lsb pos => do
    let declared ← scope.width name pos.line
    if msb ≥ declared.bits then
      throw (unsupported site s!"select [{msb}] beyond the width of '{name}'")
    else if msb < lsb then throw .beyondWord
    else checkedWidth site (msb - lsb + 1)
  | .concat parts => do checkedWidth site (← selfBits scope site 0 parts)
  | .unary .not inner => selfWidth scope site inner
  | .unary .logicNot _ => .ok .one
  | .binary op left right =>
    if op.isBoolean then .ok .one
    else do return (← selfWidth scope site left).max (← selfWidth scope site right)
  | .ternary _ yes no => do
    return (← selfWidth scope site yes).max (← selfWidth scope site no)

/-- The bits of expressions side by side and of `before` others. They are counted in 32 bits. -/
def selfBits (scope : Scope) (site : Site) : (before : Nat) → List Expr → Except SourceError Nat
  | before, [] => .ok before
  | before, part :: rest => do
    let w ← selfWidth scope site part
    if before + w.bits < UInt32.size then selfBits scope site (before + w.bits) rest
    else throw .beyondWord

end

/-- The node kind of an operator that works on operands of the width of its result. -/
def operatorKind : BinaryOp → Operator
  | .and => .and
  | .or => .or
  | .add => .add
  | .sub => .sub
  | .mul => .mul
  | .div => .div
  | _ => .xor

mutual

/-- The value of an expression at a width. Its last node drives `dest` where it can; otherwise
the value is on another signal. -/
def lower (scope : Scope) (site : Site) :
    Expr → (w : Width) → (dest : Option String) → Build Fanin
  | .ident name pos, _, _ => scope.read name pos.line
  | .number _ value, w, dest => emit site (.const (w.truncate value)) [] w dest
  | .select name msb lsb pos, _, dest => do
    let base ← scope.read name pos.line
    let selected ← selfWidth scope site (.select name msb lsb pos)
    if lsb = 0 then
      if selected = (← scope.width name pos.line) then return base
      else emit site (.op .buf) [base] selected dest
    else
      let shift ← powerConstant site lsb
      emit site (.op .div) [base, shift] selected dest
  | .concat parts, _, dest => do
    let _ ← selfWidth scope site (.concat parts)
    match parts with
    | [] => throw (unsupported site "empty concatenation")
    | first :: rest =>
      let firstWidth ← selfWidth scope site first
      let high ← lower scope site first firstWidth none
      lowerParts scope site rest high firstWidth dest
  | .unary .not inner, w, dest => do
    let value ← lower scope site inner w none
    invert site value w dest
  | .unary .logicNot inner, _, dest => do
    let innerWidth ← selfWidth scope site inner
    let value ← lower scope site inner innerWidth none
    isZero site value innerWidth dest
  | .binary op left right, w, dest => do
    match op with
    | .logicAnd | .logicOr =>
      let leftWidth ← selfWidth scope site left
      let a ← truth site (← lower scope site left leftWidth none) leftWidth
      let rightWidth ← selfWidth scope site right
      let b ← truth site (← lower scope site right rightWidth none) rightWidth
      emit site (.op (if op = .logicAnd then .and else .or)) [a, b] .one dest
    | .eq | .ne | .lt | .le | .gt | .ge =>
      let common := (← selfWidth scope site left).max (← selfWidth scope site right)
      if common.bits ≥ Width.limit then
        throw (unsupported site s!"{common.bits}-bit comparison")
      let a ← lower scope site left common none
      let b ← lower scope site right common none
      compare site op a b common dest
    | .xnor =>
      let a ← lower scope site left w none
      let b ← lower scope site right w none
      return (← emit site (.op .xor) [a, b] w none).negate
    | _ =>
      let a ← lower scope site left w none
      let b ← lower scope site right w none
      emit site (.op (operatorKind op)) [a, b] w dest
  | .ternary condition yes no, w, dest => do
    let conditionWidth ← selfWidth scope site condition
    let select ← lower scope site condition conditionWidth none
    let d1 ← lower scope site yes w none
    let d0 ← lower scope site no w none
    emit site (.op .mux) [d0, d1, select] w dest

/-- The value of parts side by side, below those that `high` already joins at a width: each part
moves the others up and is put below them. -/
def lowerParts (scope : Scope) (site : Site) :
    List Expr → (high : Fanin) → (total : Width) → (dest : Option String) → Build Fanin
  | [], high, _, _ => return high
  | part :: rest, high, total, dest => do
    let partWidth ← selfWidth scope site part
    let value ← lower scope site part partWidth none
    let factor ← powerConstant site partWidth.bits
    let total ← checkedWidth site (total.bits + partWidth.bits)
    let shifted ← emit site (.op .mul) [high, factor] total none
    let joined ← emit site (.op .or) [shifted, value] total (if rest.isEmpty then dest else none)
    lowerParts scope site rest joined total dest

end

theorem lower_ident (scope : Scope) (site : Site) (name : String) (pos : Position) (w : Width)
    (dest : Option String) :
    lower scope site (.ident name pos) w dest = scope.read name pos.line := by
  rw [lower]

theorem lower_number (scope : Scope) (site : Site) (size : Option Nat) (value : Word) (w : Width)
    (dest : Option String) :
    lower scope site (.number size value) w dest =
      emit site (.const (w.truncate value)) [] w dest := by
  rw [lower]

/-! ## Statements -/

/-- An assignment. -/
def assign (scope : Scope) (a : Assign) : Build Unit := do
  let site : Site := ⟨scope.module.name, a.pos.line⟩
  let dest ← scope.dest a.target a.pos.line
  let w ← scope.width a.target a.pos.line
  let own ← selfWidth scope site a.expr
  let value ← lower scope site a.expr (w.max own) (some dest)
  drive site dest value w

/-- The error of an instance with wrong connections. -/
def connectionError (i : Instance) (detail : String) : SourceError :=
  .connection (i.name.getD i.module) detail i.pos.line

/-- The connections in order of an instance that has to have them so. -/
def positional (i : Instance) : Except SourceError (List Expr) :=
  match i.connections with
  | .positional exprs => .ok exprs
  | .named _ => .error (connectionError i "needs positional connections")

/-- The gates that can be instantiated like modules. -/
inductive Gate where
  | and
  | nand
  | or
  | nor
  | xor
  | xnor
  | not
  | buf
deriving DecidableEq

namespace Gate

/-- Every gate. -/
def all : List Gate := [and, nand, or, nor, xor, xnor, not, buf]

/-- The name of a gate. -/
def name : Gate → String
  | and => "and"
  | nand => "nand"
  | or => "or"
  | nor => "nor"
  | xor => "xor"
  | xnor => "xnor"
  | not => "not"
  | buf => "buf"

/-- The gate of a name. -/
def ofName? (name : String) : Option Gate := all.find? fun g => g.name = name

/-- The operator that joins all inputs of a gate but the last. -/
def chain : Gate → Operator
  | and | nand => .and
  | or | nor => .or
  | _ => .xor

/-- The operator that joins the last input of a gate. -/
def final : Gate → Operator
  | and => .and
  | nand => .nand
  | or => .or
  | nor => .nor
  | _ => .xor

end Gate

/-- The values of expressions, all at one width. -/
def lowerAll (scope : Scope) (site : Site) (w : Width) : List Expr → Build (List Fanin)
  | [] => return []
  | expr :: rest => do
    let value ← lower scope site expr w none
    return value :: (← lowerAll scope site w rest)

/-- The values of expressions, each at its own width. -/
def lowerEach (scope : Scope) (site : Site) : List Expr → Build (List Fanin)
  | [] => return []
  | expr :: rest => do
    let w ← selfWidth scope site expr
    let value ← lower scope site expr w none
    return value :: (← lowerEach scope site rest)

/-- Join the inputs of a gate from left to right; the last node drives `dest`. -/
def joinInputs (site : Site) (gate : Gate) (w : Width) (dest : String) :
    (joined : Fanin) → List Fanin → Build Fanin
  | joined, [] => return joined
  | joined, [last] => do
    let last ← if gate = .xnor then invert site last w none else pure last
    emit site (.op gate.final) [joined, last] w (some dest)
  | joined, value :: rest => do
    let joined ← emit site (.op gate.chain) [joined, value] w none
    joinInputs site gate w dest joined rest

/-- The node or nodes of a gate with given inputs. -/
def gateOutput (site : Site) (i : Instance) (gate : Gate) (w : Width) (dest : String)
    (values : List Fanin) : Build Fanin := do
  if gate = .not ∨ gate = .buf then
    match values with
    | [value] => emit site (.op (if gate = .not then .not else .buf)) [value] w (some dest)
    | _ => throw (connectionError i s!"'{gate.name}' takes exactly one input")
  else
    match values with
    | first :: second :: rest => joinInputs site gate w dest first (second :: rest)
    | _ => throw (connectionError i s!"'{gate.name}' needs at least two inputs")

/-- An instance of a gate. -/
def gateInstance (scope : Scope) (site : Site) (i : Instance) (gate : Gate) : Build Unit := do
  match ← positional i with
  | .ident name _ :: inputs =>
    let dest ← scope.dest name i.pos.line
    let w ← scope.width name i.pos.line
    let values ← lowerAll scope site w inputs
    let value ← gateOutput site i gate w dest values
    drive site dest value w
  | _ => throw (connectionError i "the first terminal must be an output signal")

/-- An instance of a module without a definition. -/
def blackBox (scope : Scope) (site : Site) (i : Instance) : Build Unit := do
  match ← positional i with
  | .ident name _ :: inputs =>
    let dest ← scope.dest name i.pos.line
    let w ← scope.width name i.pos.line
    let fanins ← lowerEach scope site inputs
    let value ← emit site (.module i.module) fanins w (some dest)
    drive site dest value w
  | _ => throw (connectionError i s!"black box '{i.module}' needs its output signal first")

/-! ## Inlining -/

/-- The connections by name, each port of the module once. -/
def namedPorts (i : Instance) (child : Module) :
    List (String × Option Expr) → (before : List (String × Option Expr)) →
    Except SourceError (List (String × Option Expr))
  | [], before => .ok before
  | (port, expr) :: rest, before =>
    if !child.ports.contains port then
      .error (connectionError i s!"'{child.name}' has no port '{port}'")
    else if before.any fun earlier => earlier.1 = port then
      .error (connectionError i s!"port '{port}' connected twice")
    else namedPorts i child rest (before ++ [(port, expr)])

/-- What each connected port of an instance is connected to. -/
def connectedPorts (i : Instance) (child : Module) :
    Except SourceError (List (String × Option Expr)) :=
  match i.connections with
  | .positional exprs =>
    if exprs.length > child.ports.length then
      .error (connectionError i s!"{exprs.length} connections for {child.ports.length} ports")
    else .ok (child.ports.zip (exprs.map some))
  | .named ports => namedPorts i child ports []

/-- The bindings of an instance, and the signals outside that a buffer has to drive from the
instance's own. -/
structure Wiring where
  /-- The bound ports. -/
  bindings : Table String Binding
  /-- The signal outside, and the signal of the instance that it takes its value from. -/
  buffers : List (String × String)

/-- Connect one port of an instance. -/
def connectPort (scope : Scope) (site : Site) (i : Instance) (path : String)
    (connected : List (String × Option Expr)) (wiring : Wiring) (port : Decl) :
    Build Wiring := do
  let expr := (Table.findEntry port.name connected).join
  match port.direction, expr with
  | some .input, some expr =>
    let own ← selfWidth scope site expr
    let value ← lower scope site expr (port.width.max own) none
    let value ← if (← get).width value.signal = port.width then pure value
      else emit site (.op .buf) [value] port.width none
    return { wiring with bindings := wiring.bindings.insert port.name (.read value) }
  | some .input, none =>
    throw (connectionError i s!"input port '{port.name}' is unconnected")
  | _, some (.ident name _) =>
    let outer ← scope.dest name i.pos.line
    if (← get).width outer = port.width then
      return { wiring with bindings := wiring.bindings.insert port.name (.alias outer) }
    else return { wiring with buffers := wiring.buffers ++ [(outer, path ++ port.name)] }
  | _, some _ =>
    throw (connectionError i s!"output port '{port.name}' must connect to a signal")
  | _, none => return wiring

/-- Connect ports of an instance in order. -/
def connectPorts (scope : Scope) (site : Site) (i : Instance) (path : String)
    (connected : List (String × Option Expr)) : List Decl → Wiring → Build Wiring
  | [], wiring => return wiring
  | port :: rest, wiring => do
    let wiring ← connectPort scope site i path connected wiring port
    connectPorts scope site i path connected rest wiring

/-- Declare the signals of an instance that are its own. -/
def declareOwn (path : String) (bindings : Table String Binding) : List Decl → Build Unit
  | [] => return ()
  | d :: rest => do
    unless bindings.contains d.name do
      modify fun n => n.setWidth (path ++ d.name) d.width
    declareOwn path bindings rest

/-- Drive signals outside an instance from its own. -/
def driveOuter (site : Site) : List (String × String) → Build Unit
  | [] => return ()
  | (outer, own) :: rest => do
    drive site outer (.plain own) ((← get).width outer)
    driveOuter site rest

/-- Inline an instance of a module, whose statements `body` elaborates in their scope. -/
def inline (body : Scope → Build Unit) (scope : Scope) (site : Site) (i : Instance)
    (child : Module) : Build Unit := do
  match i.name with
  | none => throw (connectionError i "module instances need a name")
  | some name =>
    let connected ← connectedPorts i child
    let path := scope.path ++ name ++ "/"
    let wiring ← connectPorts scope site i path connected child.portDecls ⟨.empty, []⟩
    declareOwn path wiring.bindings child.decls
    body ⟨child, path, wiring.bindings⟩
    driveOuter site wiring.buffers

/-- An instance, inside the modules of `stack`, which are inlined right now. -/
def instantiate (file : SourceFile) (body : List String → Scope → Build Unit)
    (stack : List String) (scope : Scope) (i : Instance) : Build Unit := do
  let site : Site := ⟨scope.module.name, i.pos.line⟩
  match Gate.ofName? i.module, file.module? i.module with
  | some gate, _ => gateInstance scope site i gate
  | none, none => blackBox scope site i
  | none, some child =>
    if stack.contains child.name then throw (.recursiveInstance child.name)
    else inline (body (stack ++ [child.name])) scope site i child

/-- The statements of a module in a scope, inside the modules of `stack`. Instances nest no deeper
than `depth`. -/
def moduleBody (file : SourceFile) : (depth : Nat) → (stack : List String) → Scope → Build Unit
  | 0, _, scope => throw (.recursiveInstance scope.module.name)
  | depth + 1, stack, scope => do
    scope.module.assigns.forM (assign scope)
    scope.module.instances.forM (instantiate file (moduleBody file depth) stack scope)

/-- Declare the ports of the top module. -/
def declarePorts : List Decl → Netlist → Except NetlistError Netlist
  | [], n => .ok n
  | port :: rest, n => do
    let n ← match port.direction with
      | some .input => n.addInput port.name port.width.bits
      | some .output => n.addOutput port.name port.width.bits
      | none => pure n
    declarePorts rest n

/-- The netlist of the top module before its statements: its wires first, then its ports. -/
def start (top : Module) : Except NetlistError Netlist :=
  let wires := top.decls.filter fun d => d.direction.isNone
  let n := wires.foldl (fun n d => n.setWidth d.name d.width) (Netlist.empty top.name)
  declarePorts top.portDecls n

end Elaborate

/-- The flattened netlist of a source file. Modules that are being inlined are pairwise different
modules of the file, so instances nest no deeper than there are modules. -/
def elaborate (file : SourceFile) (top : Option String) : Except SourceError Netlist := do
  let m ← file.top top
  let n ← (Elaborate.start m).mapError .netlist
  let body := Elaborate.moduleBody file file.modules.length [m.name] ⟨m, "", .empty⟩
  let ((), n) ← body.run n
  let n := n.rebuildWires
  n.validate.mapError .netlist
  return n

/-- The netlist of a source text. -/
def compile (source : String) (top : Option String) : Except SourceError Netlist := do
  elaborate (← parse source) top

end GateSynth.Verilog
