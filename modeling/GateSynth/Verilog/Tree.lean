import GateSynth.Verilog.Position
import GateSynth.Word

/-!
# Syntax trees

The modules of a source file: ports, declarations, assignments and instances, and the expressions
in them.
-/

namespace GateSynth.Verilog

/-- The direction of a port. -/
inductive Direction where
  | input
  | output
deriving DecidableEq

/-- A declared signal: a port, or an internal wire without a direction. -/
structure Decl where
  /-- The name. -/
  name : String
  /-- The direction of a port. -/
  direction : Option Direction
  /-- The width. -/
  width : Width
  /-- The place of the name in its declaration. -/
  pos : Position
deriving DecidableEq

/-- Operators on one operand. -/
inductive UnaryOp where
  /-- The complement of every bit. -/
  | not
  /-- One if the operand is zero. -/
  | logicNot
deriving DecidableEq

/-- Operators on two operands. -/
inductive BinaryOp where
  | and
  | or
  | xor
  | xnor
  | logicAnd
  | logicOr
  | add
  | sub
  | mul
  | div
  | eq
  | ne
  | lt
  | le
  | gt
  | ge
deriving DecidableEq

/-- Does the operator give a single bit? -/
def BinaryOp.isBoolean : BinaryOp → Bool
  | eq | ne | lt | le | gt | ge | logicAnd | logicOr => true
  | _ => false

/-- Expressions. -/
inductive Expr where
  /-- A signal. -/
  | ident (name : String) (pos : Position)
  /-- A literal, with or without a size in bits. -/
  | number (width : Option Nat) (value : Word)
  /-- The bits `msb` down to `lsb` of a signal. -/
  | select (name : String) (msb lsb : Nat) (pos : Position)
  /-- Parts side by side, the most significant first. -/
  | concat (parts : List Expr)
  /-- An operator on one operand. -/
  | unary (op : UnaryOp) (operand : Expr)
  /-- An operator on two operands. -/
  | binary (op : BinaryOp) (left right : Expr)
  /-- A choice by a condition. -/
  | ternary (condition yes no : Expr)

mutual

/-- Are two expressions the same? -/
def Expr.same : Expr → Expr → Bool
  | .ident x p, .ident y q => x = y && p = q
  | .number w k, .number w' k' => w = w' && k = k'
  | .select x msb lsb p, .select y msb' lsb' q => x = y && msb = msb' && lsb = lsb' && p = q
  | .concat es, .concat es' => Expr.sameEach es es'
  | .unary op e, .unary op' e' => op = op' && e.same e'
  | .binary op l r, .binary op' l' r' => op = op' && l.same l' && r.same r'
  | .ternary c y n, .ternary c' y' n' => c.same c' && y.same y' && n.same n'
  | _, _ => false

/-- Are the expressions of two lists the same? -/
def Expr.sameEach : List Expr → List Expr → Bool
  | [], [] => true
  | e :: es, e' :: es' => e.same e' && Expr.sameEach es es'
  | _, _ => false

end

mutual

theorem Expr.same_iff (e e' : Expr) : e.same e' = true ↔ e = e' := by
  cases e <;> cases e' <;> simp [Expr.same, Expr.same_iff, Expr.sameEach_iff, and_assoc]

theorem Expr.sameEach_iff (es es' : List Expr) : Expr.sameEach es es' = true ↔ es = es' := by
  cases es <;> cases es' <;> simp [Expr.sameEach, Expr.same_iff, Expr.sameEach_iff]

end

instance : DecidableEq Expr := fun e e' => decidable_of_iff _ (Expr.same_iff e e')

/-- The connections of an instance. -/
inductive Connections where
  /-- One for each port in order. -/
  | positional (exprs : List Expr)
  /-- By the names of the ports; an expression may be left out. -/
  | named (ports : List (String × Option Expr))
deriving DecidableEq

/-- An instance of a module or a gate. -/
structure Instance where
  /-- The name of the module or gate. -/
  module : String
  /-- The name of the instance, if it has one. -/
  name : Option String
  /-- The connections. -/
  connections : Connections
  /-- The place of the module name. -/
  pos : Position
deriving DecidableEq

/-- A continuous assignment. -/
structure Assign where
  /-- The signal that is driven. -/
  target : String
  /-- The value. -/
  expr : Expr
  /-- The place of the target. -/
  pos : Position
deriving DecidableEq

/-- A module definition. -/
structure Module where
  /-- The name. -/
  name : String
  /-- The ports in the order of the header. -/
  ports : List String
  /-- All declarations. -/
  decls : List Decl
  /-- The assignments in order. -/
  assigns : List Assign
  /-- The instances in order. -/
  instances : List Instance
  /-- The place of the definition. -/
  pos : Position
deriving DecidableEq

namespace Module

/-- The declaration of a name. -/
def decl? (m : Module) (name : String) : Option Decl := m.decls.find? fun d => d.name = name

/-- The declarations of the ports, in the order of the header. -/
def portDecls (m : Module) : List Decl := m.ports.filterMap m.decl?

end Module

/-- The modules of a source file, in order. -/
structure SourceFile where
  /-- The modules. -/
  modules : List Module
deriving DecidableEq

/-- The module of a name. -/
def SourceFile.module? (file : SourceFile) (name : String) : Option Module :=
  file.modules.find? fun m => m.name = name

end GateSynth.Verilog
