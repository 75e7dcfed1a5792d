import GateSynth.Library.Pattern
import GateSynth.Text.Blank
import GateSynth.Total

/-!
# Reading cell functions

`Pattern.parse` reads the written form of a pattern, with white space between its parts. A word
followed by a parenthesis is an operator, `MODULE:` introduces the name of a module, and any
other word is a pin, except for `CONST`. Faults are placed by their byte offset.
-/

namespace GateSynth

/-- What is wrong with a text, and where. -/
structure PatternError where
  /-- The byte offset of the fault. -/
  offset : Nat
  /-- The fault. -/
  detail : String
deriving DecidableEq

/-- The wording of an error. -/
def PatternError.message (e : PatternError) : String := s!"{e.detail} at offset {e.offset}"

namespace PatternReader

/-- What is left of a text, and the byte offset at which it starts. -/
structure Cursor where
  /-- The byte offset of the next character. -/
  offset : Nat
  /-- The characters that are left. -/
  rest : List Char

namespace Cursor

/-- Go behind characters. -/
def advance (c : Cursor) (taken : List Char) : Cursor :=
  ⟨c.offset + total (taken.map Char.utf8Size), c.rest.drop taken.length⟩

/-- Go behind white space. -/
def skipBlanks (c : Cursor) : Cursor := c.advance (c.rest.takeWhile Blank.isBlank)

/-- The error of a fault at the next character. -/
def error (c : Cursor) (detail : String) : PatternError := ⟨c.offset, detail⟩

/-- Go behind white space, and behind a character if it comes next. -/
def accept (c : Cursor) (expected : Char) : Cursor × Bool :=
  let c := c.skipBlanks
  if c.rest.head? = some expected then (c.advance [expected], true) else (c, false)

end Cursor

/-- Is the character an ASCII digit? -/
def isDigit (c : Char) : Bool := '0' ≤ c && c ≤ '9'

/-- The characters of identifiers. -/
def isIdentChar (c : Char) : Bool :=
  isDigit c || ('a' ≤ c && c ≤ 'z') || ('A' ≤ c && c ≤ 'Z') || c == '_'

/-- An identifier behind white space. -/
def ident (c : Cursor) : Except PatternError (String × Cursor) :=
  let c := c.skipBlanks
  match c.rest.takeWhile isIdentChar with
  | [] => .error (c.error "expected an identifier")
  | first :: more =>
    if isDigit first then .error (c.error "identifiers cannot start with a digit")
    else .ok (String.ofList (first :: more), c.advance (first :: more))

mutual

/-- A pattern. -/
def pattern : (fuel : Nat) → Cursor → Except PatternError (Pattern × Cursor)
  | 0, c => .error (c.error "pattern nested too deeply")
  | fuel + 1, start => do
    let (word, c) ← ident start
    if word = Kind.moduleTag then
      let (c, found) := c.accept ':'
      if !found then
        throw (c.error "expected ':' after MODULE")
      let (name, c) ← ident c
      let (args, c) ← arguments fuel c
      return (.module name args, c)
    else
      let c := c.skipBlanks
      if c.rest.head? ≠ some '(' then
        return (if word = Kind.constTag then .const else .pin word, c)
      else
        match Operator.ofTag? word with
        | none => throw (start.error s!"unknown operator '{word}'")
        | some operator =>
          let (args, c) ← arguments fuel c
          if operator.arity = args.length then return (.op operator args, c)
          else
            throw (start.error
              s!"{word} takes {operator.arity} operands, found {args.length}")

/-- The arguments of an operator or a module, in parentheses. -/
def arguments : (fuel : Nat) → Cursor → Except PatternError (List Pattern × Cursor)
  | 0, c => .error (c.error "pattern nested too deeply")
  | fuel + 1, c => do
    let (c, found) := c.accept '('
    if !found then
      throw (c.error "expected '('")
    let (first, c) ← pattern fuel c
    argumentsRest fuel [first] c

/-- The arguments behind those already read. -/
def argumentsRest : (fuel : Nat) → (before : List Pattern) → Cursor →
    Except PatternError (List Pattern × Cursor)
  | 0, _, c => .error (c.error "pattern nested too deeply")
  | fuel + 1, before, c => do
    let (c, more) := c.accept ','
    if more then
      let (next, c) ← pattern fuel c
      argumentsRest fuel (before ++ [next]) c
    else
      let (c, closed) := c.accept ')'
      if closed then return (before, c)
      else throw (c.error "expected ',' or ')'")

end

end PatternReader

/-- The pattern that a text writes. No more than three calls are made for a character. -/
def Pattern.parse (text : String) : Except PatternError Pattern := do
  let cs := text.toList
  let (p, c) ← PatternReader.pattern (3 * (cs.length + 1)) ⟨0, cs⟩
  let c := c.skipBlanks
  if c.rest.isEmpty then return p
  else throw (c.error "trailing input")

end GateSynth
