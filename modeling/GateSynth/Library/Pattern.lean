import GateSynth.Simulation.Apply
import GateSynth.Table

/-!
# Cell functions

The function of a cell is a pattern: operators over the input pins of the cell. `CONST` stands
for any constant, which the cell drives. A pin that occurs twice stands for the same signal both
times.
-/

namespace GateSynth

/-- The function of a cell. -/
inductive Pattern where
  /-- An input pin. -/
  | pin (name : String)
  /-- Any constant. -/
  | const
  /-- An operator on patterns. -/
  | op (operator : Operator) (args : List Pattern)
  /-- A module without a definition on patterns. -/
  | module (name : String) (args : List Pattern)

mutual

/-- Are two patterns the same? -/
def Pattern.same : Pattern → Pattern → Bool
  | .pin x, .pin y => x = y
  | .const, .const => true
  | .op f ps, .op g ps' => f = g && Pattern.sameEach ps ps'
  | .module x ps, .module y ps' => x = y && Pattern.sameEach ps ps'
  | _, _ => false

/-- Are the patterns of two lists the same? -/
def Pattern.sameEach : List Pattern → List Pattern → Bool
  | [], [] => true
  | p :: ps, p' :: ps' => p.same p' && Pattern.sameEach ps ps'
  | _, _ => false

end

mutual

theorem Pattern.same_iff (p p' : Pattern) : p.same p' = true ↔ p = p' := by
  cases p <;> cases p' <;> simp [Pattern.same, Pattern.sameEach_iff]

theorem Pattern.sameEach_iff (ps ps' : List Pattern) :
    Pattern.sameEach ps ps' = true ↔ ps = ps' := by
  cases ps <;> cases ps' <;> simp [Pattern.sameEach, Pattern.same_iff, Pattern.sameEach_iff]

end

instance : DecidableEq Pattern := fun p p' => decidable_of_iff _ (Pattern.same_iff p p')

/-- The key under which a kind is looked up among the functions of cells. -/
def Kind.lookupKey? : Kind → Option String
  | .cell .. => none
  | .const _ => some Kind.constTag
  | .module name => some (Kind.moduleTag ++ ":" ++ name)
  | .op operator => some operator.tag

namespace Pattern

instance : Inhabited Pattern := ⟨const⟩

/-- Is the pattern just a constant? -/
def isConst : Pattern → Bool
  | const => true
  | _ => false

/-- The key of the kinds that the root of a pattern can match. -/
def rootKey? : Pattern → Option String
  | pin _ => none
  | const => some Kind.constTag
  | op operator _ => some operator.tag
  | module name _ => some (Kind.moduleTag ++ ":" ++ name)

mutual

/-- The pins from left to right, with repetitions. -/
def pinList : Pattern → List String
  | pin name => [name]
  | const => []
  | op _ args => pinLists args
  | module _ args => pinLists args

/-- The pins of several patterns from left to right. -/
def pinLists : List Pattern → List String
  | [] => []
  | p :: rest => pinList p ++ pinLists rest

end

/-- The pins in the order in which they first occur. -/
def pins (p : Pattern) : List String := p.pinList.eraseDups

mutual

/-- The number of operators and constants. -/
def opCount : Pattern → Nat
  | pin _ => 0
  | const => 1
  | op _ args => 1 + opCounts args
  | module _ args => 1 + opCounts args

/-- The number of operators and constants of several patterns. -/
def opCounts : List Pattern → Nat
  | [] => 0
  | p :: rest => opCount p + opCounts rest

end

mutual

/-- The written form. -/
def text : Pattern → String
  | pin name => name
  | const => Kind.constTag
  | op operator args => operator.tag ++ "(" ++ ",".intercalate (texts args) ++ ")"
  | module name args => Kind.moduleTag ++ ":" ++ name ++ "(" ++ ",".intercalate (texts args) ++ ")"

/-- The written forms of several patterns. -/
def texts : List Pattern → List String
  | [] => []
  | p :: rest => text p :: texts rest

end

mutual

/-- The value of a pattern at a width, given the values of its pins and the constant. A division
by zero gives zero; a module has no value. -/
def eval (pinValues : Table String Word) (init : Option Word) (w : Width) : Pattern → Option Word
  | pin name => pinValues.find? name
  | const => some (w.truncate (init.getD 0))
  | op operator args =>
    match evals pinValues init w args with
    | none => none
    | some operands =>
      match operator.apply operands w with
      | .ok value => some value
      | .error .divisionByZero => some 0
      | .error .noFunction => none
  | module _ _ => none

/-- The values of several patterns. -/
def evals (pinValues : Table String Word) (init : Option Word) (w : Width) :
    List Pattern → Option (List Word)
  | [] => some []
  | p :: rest =>
    match eval pinValues init w p, evals pinValues init w rest with
    | some value, some values => some (value :: values)
    | _, _ => none

end

/-! ## Numbers of bits that are no width

A pattern that is just a pin has a value at any number of bits. Operands are found from left to
right, so a pattern with a pin that has no value may also do without a width. -/

mutual

/-- Is a width needed to find the value of a pattern? -/
def needsWidth (pinValues : Table String Word) : Pattern → Bool
  | pin _ => false
  | const => true
  | op _ args => argsNeedWidth pinValues args
  | module _ args => argsNeedWidth pinValues args

/-- Is a width needed to find the value of an operator with these arguments? -/
def argsNeedWidth (pinValues : Table String Word) : List Pattern → Bool
  | [] => true
  | pin name :: rest => pinValues.contains name && argsNeedWidth pinValues rest
  | p :: _ => needsWidth pinValues p

end

/-- The value of a pattern at a number of bits, which is refused if a width is needed and it is
none. -/
def evalAt (p : Pattern) (pinValues : Table String Word) (init : Option Word) (bits : Nat) :
    Except NoWidth (Option Word) :=
  match Width.ofNat? bits with
  | some w => .ok (p.eval pinValues init w)
  | none =>
    if p.needsWidth pinValues then .error ⟨bits⟩
    else .ok (p.eval pinValues init Width.one)

end Pattern

end GateSynth
