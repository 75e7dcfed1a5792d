import GateSynth.Json.Basic

/-!
# Reading JSON

`Json.parse?` reads a text that is one JSON value with blanks around it. There are no comments,
no trailing commas and no control characters in strings. A fuel argument bounds the recursion;
`parse?` gives it twice the length of the text, of which every step uses one character for at
most two calls.
-/

namespace GateSynth.Json

/-- The characters that may stand between the parts of a text. -/
def isBlank (c : Char) : Bool := c == ' ' || c == '\n' || c == '\t' || c == '\r'

/-- The characters after the blanks. -/
def skipBlanks (cs : List Char) : List Char := cs.dropWhile isBlank

/-! ## Strings -/

/-- The value of a hexadecimal digit. -/
def hexDigit? (c : Char) : Option Nat :=
  if '0' ≤ c ∧ c ≤ '9' then some (c.toNat - '0'.toNat)
  else if 'a' ≤ c ∧ c ≤ 'f' then some (c.toNat - 'a'.toNat + 10)
  else if 'A' ≤ c ∧ c ≤ 'F' then some (c.toNat - 'A'.toNat + 10)
  else none

/-- The character that a one-letter escape stands for. -/
def simpleEscape? : Char → Option Char
  | '"' => some '"'
  | '\\' => some '\\'
  | '/' => some '/'
  | 'b' => some '\x08'
  | 'f' => some '\x0c'
  | 'n' => some '\n'
  | 'r' => some '\r'
  | 't' => some '\t'
  | _ => none

/-- The code units of a string up to its closing quote, and what follows it. -/
def stringUnits : List Char → Option (List Nat × List Char)
  | [] => none
  | '"' :: rest => some ([], rest)
  | '\\' :: 'u' :: a :: b :: c :: d :: rest =>
    match hexDigit? a, hexDigit? b, hexDigit? c, hexDigit? d, stringUnits rest with
    | some a, some b, some c, some d, some (units, rest) =>
      some ((((a * 16 + b) * 16 + c) * 16 + d) :: units, rest)
    | _, _, _, _, _ => none
  | '\\' :: c :: rest =>
    match simpleEscape? c, stringUnits rest with
    | some c, some (units, rest) => some (c.toNat :: units, rest)
    | _, _ => none
  | c :: rest =>
    if c.toNat < 0x20 ∨ c = '\\' then none
    else (stringUnits rest).map fun r => (c.toNat :: r.1, r.2)

/-- Is the unit the first half of a surrogate pair? -/
def isHighSurrogate (unit : Nat) : Bool := 0xD800 ≤ unit && unit < 0xDC00

/-- Is the unit the second half of a surrogate pair? -/
def isLowSurrogate (unit : Nat) : Bool := 0xDC00 ≤ unit && unit < 0xE000

/-- The characters of code units; half a surrogate pair has none. -/
def unitsChars? : List Nat → Option (List Char)
  | [] => some []
  | high :: rest =>
    if isHighSurrogate high then
      match rest with
      | low :: rest =>
        if isLowSurrogate low then
          let code := 0x10000 + (high - 0xD800) * 0x400 + (low - 0xDC00)
          (unitsChars? rest).map (Char.ofNat code :: ·)
        else none
      | [] => none
    else if isLowSurrogate high then none
    else (unitsChars? rest).map (Char.ofNat high :: ·)

/-- The text of a string up to its closing quote, and what follows it. -/
def stringBody (cs : List Char) : Option (Option String × List Char) :=
  (stringUnits cs).map fun r => ((unitsChars? r.1).map String.ofList, r.2)

/-! ## Numbers -/

/-- The digits in front of the characters, and what follows them. -/
def digits (cs : List Char) : List Nat × List Char :=
  ((cs.takeWhile Char.isDigit).map fun c => c.toNat - '0'.toNat, cs.dropWhile Char.isDigit)

/-- The fraction in front of the characters, if there is a point. -/
def fractionPart : List Char → Option (Option (List Nat) × List Char)
  | '.' :: rest =>
    match digits rest with
    | ([], _) => none
    | (ds, rest) => some (some ds, rest)
  | cs => some (none, cs)

/-- The digits of an exponent behind its sign. -/
def exponentDigits (minus : Bool) (cs : List Char) :
    Option (Option (Bool × List Nat) × List Char) :=
  match digits cs with
  | ([], _) => none
  | (ds, rest) => some (some (minus, ds), rest)

/-- The exponent in front of the characters, if there is one. -/
def exponentPart : List Char → Option (Option (Bool × List Nat) × List Char)
  | c :: rest =>
    if c = 'e' ∨ c = 'E' then
      match rest with
      | '+' :: rest => exponentDigits false rest
      | '-' :: rest => exponentDigits true rest
      | rest => exponentDigits false rest
    else some (none, c :: rest)
  | [] => some (none, [])

/-- A number without its sign. -/
def unsignedNumber (negative : Bool) (cs : List Char) : Option (Decimal × List Char) := do
  let (whole, rest) ← match cs with
    | '0' :: rest => some ([0], rest)
    | _ =>
      match digits cs with
      | ([], _) => none
      | found => some found
  let (fraction, rest) ← fractionPart rest
  let (exponent, rest) ← exponentPart rest
  return (⟨negative, whole, fraction, exponent⟩, rest)

/-- A number. -/
def numberBody : List Char → Option (Decimal × List Char)
  | '-' :: rest => unsignedNumber true rest
  | cs => unsignedNumber false cs

/-! ## Values -/

mutual

/-- A value in front of the characters, and what follows it. -/
def value : (fuel : Nat) → List Char → Option (Json × List Char)
  | 0, _ => none
  | fuel + 1, cs =>
    match skipBlanks cs with
    | '"' :: rest => (stringBody rest).map fun r => (string r.1, r.2)
    | '[' :: rest =>
      match skipBlanks rest with
      | ']' :: rest => some (array [], rest)
      | rest => items fuel [] rest
    | '\x7b' :: rest =>
      match skipBlanks rest with
      | '\x7d' :: rest => some (object [], rest)
      | rest => members fuel [] rest
    | 'n' :: 'u' :: 'l' :: 'l' :: rest => some (null, rest)
    | 't' :: 'r' :: 'u' :: 'e' :: rest => some (bool true, rest)
    | 'f' :: 'a' :: 'l' :: 's' :: 'e' :: rest => some (bool false, rest)
    | rest => (numberBody rest).map fun r => (number r.1, r.2)

/-- The items of an array that are left, behind those already read. -/
def items : (fuel : Nat) → (before : List Json) → List Char → Option (Json × List Char)
  | 0, _, _ => none
  | fuel + 1, before, cs =>
    match value fuel cs with
    | none => none
    | some (item, rest) =>
      match skipBlanks rest with
      | ',' :: rest => items fuel (item :: before) rest
      | ']' :: rest => some (array (item :: before).reverse, rest)
      | _ => none

/-- The members of an object that are left, behind those already read. -/
def members : (fuel : Nat) → (before : List (Option String × Json)) → List Char →
    Option (Json × List Char)
  | 0, _, _ => none
  | fuel + 1, before, cs =>
    match skipBlanks cs with
    | '"' :: rest =>
      match stringBody rest with
      | none => none
      | some (key, rest) =>
        match skipBlanks rest with
        | ':' :: rest =>
          match value fuel rest with
          | none => none
          | some (item, rest) =>
            match skipBlanks rest with
            | ',' :: rest => members fuel ((key, item) :: before) rest
            | '\x7d' :: rest => some (object ((key, item) :: before).reverse, rest)
            | _ => none
        | _ => none
    | _ => none

end

/-- The value that a text writes. -/
def parse? (text : String) : Option Json :=
  let cs := text.toList
  match value (2 * cs.length + 2) cs with
  | some (json, rest) => if (skipBlanks rest).isEmpty then some json else none
  | none => none

end GateSynth.Json
