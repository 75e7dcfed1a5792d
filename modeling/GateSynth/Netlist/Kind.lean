import GateSynth.Word

/-!
# Node kinds

What a node computes: one of twelve operators, a literal, an instance of a module without a
definition, or an instance of a library cell. Operators are named in files by their tag;
`Operator.ofTag?_tag` says that reading a tag gives the operator back.
-/

namespace GateSynth

/-- The operators that carry no payload. A multiplexer reads its two data inputs, then its
select. -/
inductive Operator where
  | and
  | or
  | xor
  | nand
  | nor
  | not
  | buf
  | add
  | sub
  | mul
  | div
  | mux
deriving DecidableEq

namespace Operator

instance : Inhabited Operator := ⟨buf⟩

/-- Every operator, in the order of their declaration. -/
def all : List Operator :=
  [and, or, xor, nand, nor, not, buf, add, sub, mul, div, mux]

/-- The name of an operator in files. -/
def tag : Operator → String
  | and => "AND"
  | or => "OR"
  | xor => "XOR"
  | nand => "NAND"
  | nor => "NOR"
  | not => "NOT"
  | buf => "BUF"
  | add => "ADD"
  | sub => "SUB"
  | mul => "MUL"
  | div => "DIV"
  | mux => "MUX"

/-- The operator of a tag. -/
def ofTag? (tag : String) : Option Operator :=
  all.find? fun op => op.tag = tag

/-- The number of operands. -/
def arity : Operator → Nat
  | not | buf => 1
  | mux => 3
  | _ => 2

/-- The order of the two operands does not matter. -/
def isCommutative : Operator → Bool
  | and | or | xor | nand | nor | add | mul => true
  | _ => false

/-- Chains of the operator can be bracketed freely. -/
def isAssociative : Operator → Bool
  | and | or | xor => true
  | _ => false

/-- Bitwise logic. -/
def isLogic : Operator → Bool
  | and | or | xor | nand | nor | not | buf => true
  | _ => false

/-- Arithmetic on whole words. -/
def isArithmetic : Operator → Bool
  | add | sub | mul | div => true
  | _ => false

@[simp] theorem ofTag?_tag (op : Operator) : ofTag? op.tag = some op := by
  cases op <;> decide

end Operator

/-- What a node computes. -/
inductive Kind where
  /-- An operator on the fanins. -/
  | op (operator : Operator)
  /-- A literal; it has no fanins. -/
  | const (value : Word)
  /-- An instance of a module that has no definition. -/
  | module (name : String)
  /-- An instance of a library cell; `init` is the literal that a tie cell drives. -/
  | cell (name : String) (init : Option Word)
deriving DecidableEq

namespace Kind

instance : Inhabited Kind := ⟨op default⟩

/-- The tag of literals. -/
def constTag : String := "CONST"

/-- The tag of instances of modules without a definition. -/
def moduleTag : String := "MODULE"

/-- The tags that no library cell may have as its name. -/
def isReservedTag (tag : String) : Bool :=
  tag == constTag || tag == moduleTag || (Operator.ofTag? tag).isSome

/-- The name of a kind in files; a library cell goes by its own name. -/
def tag : Kind → String
  | op operator => operator.tag
  | const _ => constTag
  | module _ => moduleTag
  | cell name _ => name

/-- The number of fanins, where the kind fixes it. -/
def arity? : Kind → Option Nat
  | op operator => some operator.arity
  | const _ => some 0
  | module _ | cell .. => none

/-- The order of the two fanins does not matter. -/
def isCommutative : Kind → Bool
  | op operator => operator.isCommutative
  | _ => false

/-- Chains of the kind can be bracketed freely. -/
def isAssociative : Kind → Bool
  | op operator => operator.isAssociative
  | _ => false

/-- Bitwise logic. -/
def isLogic : Kind → Bool
  | op operator => operator.isLogic
  | _ => false

/-- Arithmetic on whole words. -/
def isArithmetic : Kind → Bool
  | op operator => operator.isArithmetic
  | _ => false

/-- Anything but a library cell. -/
def isGeneric : Kind → Bool
  | cell .. => false
  | _ => true

/-- The value of a literal. -/
def constValue? : Kind → Option Word
  | const value => some value
  | _ => none

/-- The written form, with the payload. -/
def text : Kind → String
  | const value => "CONST(" ++ toString value.toNat ++ ")"
  | module name => "MODULE(" ++ name ++ ")"
  | cell name (some init) => name ++ "[" ++ toString init.toNat ++ "]"
  | kind => kind.tag

instance : ToString Kind := ⟨text⟩

end Kind

end GateSynth
