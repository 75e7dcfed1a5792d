import GateSynth.Netlist.Kind

/-!
# The functions of the kinds

`Kind.apply` computes a node from the values of its fanins. Operands are taken at the width of
the result, and so is the result. Two operands are taken in full: both sides of a division, and
the select of a multiplexer.
-/

namespace GateSynth

/-- Why a kind gives no value. -/
inductive ApplyError where
  /-- The divisor is zero. -/
  | divisionByZero
  /-- The kind has no function of its own. -/
  | noFunction
deriving DecidableEq

/-- The wording of an error. -/
def ApplyError.message : ApplyError → String
  | divisionByZero => "division by zero"
  | noFunction => "no built-in function"

/-- The operand at a place, zero where there is none. -/
def operand (operands : List Word) (place : Nat) : Word := operands[place]?.getD 0

/-- The value of an operator before it is cut to the width of the result. -/
def Operator.raw (op : Operator) (operands : List Word) (w : Width) : Except ApplyError Word :=
  let a := w.truncate (operand operands 0)
  let b := w.truncate (operand operands 1)
  match op with
  | .and => .ok (a &&& b)
  | .or => .ok (a ||| b)
  | .xor => .ok (a ^^^ b)
  | .nand => .ok (~~~(a &&& b))
  | .nor => .ok (~~~(a ||| b))
  | .not => .ok (~~~a)
  | .buf => .ok a
  | .add => .ok (a + b)
  | .sub => .ok (a - b)
  | .mul => .ok (a * b)
  | .div =>
    if operand operands 1 = 0 then .error .divisionByZero
    else .ok (operand operands 0 / operand operands 1)
  | .mux => .ok (if operand operands 2 = 0 then a else b)

/-- The value of an operator at a width. -/
def Operator.apply (op : Operator) (operands : List Word) (w : Width) : Except ApplyError Word :=
  (op.raw operands w).map w.truncate

/-- The value of a kind at a width, for the kinds that have a function of their own. -/
def Kind.apply (kind : Kind) (operands : List Word) (w : Width) : Except ApplyError Word :=
  match kind with
  | .op operator => operator.apply operands w
  | .const value => .ok (w.truncate value)
  | .module _ | .cell .. => .error .noFunction

end GateSynth
