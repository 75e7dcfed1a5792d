import GateSynth.Text.Numeral
import GateSynth.Verilog.Error
import GateSynth.Verilog.Token

/-!
# Lexemes

`Lexeme.front` cuts the longest lexeme off the front of a text and says what it is: blanks or a
comment, a token, or nothing that the language knows. `tokenize` cuts lexeme after lexeme and
gives the tokens with their places, for which it looks up their positions in an index of the lines.

A number that is too large, or has a digit outside its radix, is no token as a whole. A comment
that is not closed takes the rest of the text and is none either. Any other character that starts
no token stands for itself.
-/

namespace GateSynth.Verilog

namespace Lexeme

/-- What a lexeme is. -/
inductive Verdict where
  /-- Blanks or a comment. -/
  | blank
  /-- A token. -/
  | token (token : Token)
  /-- No token. -/
  | bad
deriving DecidableEq

/-- The characters between tokens. -/
def isBlank (c : Char) : Bool := c == ' ' || c == '\t' || c == '\r' || c == '\n' || c == '\x0c'

/-- Is the character a letter of the Latin alphabet? -/
def isLetter (c : Char) : Bool := ('a' ≤ c && c ≤ 'z') || ('A' ≤ c && c ≤ 'Z')

/-- Is the character a decimal digit? -/
def isDigit (c : Char) : Bool := '0' ≤ c && c ≤ '9'

/-- The characters that start an identifier. -/
def startsIdent (c : Char) : Bool := isLetter c || c == '_'

/-- The characters that continue an identifier. -/
def continuesIdent (c : Char) : Bool := isLetter c || isDigit c || c == '_' || c == '$'

/-- The characters that continue a number without a size. -/
def continuesNumber (c : Char) : Bool := isDigit c || c == '_'

/-- The characters of the digits of a sized literal, in any radix. -/
def isSizedDigit (c : Char) : Bool :=
  isDigit c || ('a' ≤ c && c ≤ 'f') || ('A' ≤ c && c ≤ 'F') || c == '_'

/-- The radix of a base letter. -/
def radix? : Char → Option Nat
  | 'b' | 'B' => some 2
  | 'o' | 'O' => some 8
  | 'd' | 'D' => some 10
  | 'h' | 'H' => some 16
  | _ => none

/-- The value below a bound that digits write in a radix, with underscores between them. -/
def digitsBelow? (bound radix : Nat) (digits : List Char) : Option Nat :=
  match Numeral.ofDigits? radix (digits.filter (· ≠ '_')) with
  | some value => if value < bound then some value else none
  | none => none

/-- The token of an identifier or a reserved word. -/
def wordToken (name : List Char) : Token :=
  let text := String.ofList name
  match Keyword.ofText? text with
  | some word => .keyword word
  | none => .ident text

/-- What the digits of a number without a size are. -/
def numberVerdict (digits : List Char) : Verdict :=
  match digitsBelow? UInt64.size 10 digits with
  | some value => .token (.number (UInt64.ofNat value))
  | none => .bad

/-- What the size, the radix and the digits of a literal are. -/
def sizedVerdict (size : List Char) (radix : Nat) (digits : List Char) : Verdict :=
  match digitsBelow? UInt32.size 10 size, digitsBelow? UInt64.size radix digits with
  | some width, some value => .token (.sized width (UInt64.ofNat value))
  | _, _ => .bad

/-- The number or the sized literal in front of a text that starts with a digit, and its
verdict. -/
def number (cs : List Char) : List Char × Verdict :=
  let plain := cs.takeWhile continuesNumber
  let size := cs.takeWhile isDigit
  match cs.dropWhile isDigit with
  | '\x27' :: base :: rest =>
    let digits := rest.takeWhile isSizedDigit
    match radix? base, digits with
    | some radix, _ :: _ => (size ++ '\x27' :: base :: digits, sizedVerdict size radix digits)
    | _, _ => (plain, numberVerdict plain)
  | _ => (plain, numberVerdict plain)

/-- The characters of a comment behind its opening, with its closing; none if it is not
closed. -/
def commentBody? : List Char → Option (List Char)
  | [] => none
  | '*' :: '/' :: _ => some ['*', '/']
  | c :: rest => (commentBody? rest).map (c :: ·)

/-- The lexeme in front of a text that starts with `c`, and its verdict. -/
def front (c : Char) (rest : List Char) : List Char × Verdict :=
  if isBlank c then ((c :: rest).takeWhile isBlank, .blank)
  else if startsIdent c then
    let name := (c :: rest).takeWhile continuesIdent
    (name, .token (wordToken name))
  else if isDigit c then number (c :: rest)
  else
    match c, rest with
    | '/', '/' :: rest => ('/' :: '/' :: rest.takeWhile (· ≠ '\n'), .blank)
    | '/', '*' :: rest =>
      match commentBody? rest with
      | some body => ('/' :: '*' :: body, .blank)
      | none => ('/' :: '*' :: rest, .bad)
    | c, rest =>
      match rest.head?.bind (Mark.ofPair? c), Mark.ofChar? c with
      | some m, _ => (c :: rest.take 1, .token (.mark m))
      | none, some m => ([c], .token (.mark m))
      | none, none => ([c], .bad)

end Lexeme

/-- The tokens of the characters of a text that are left, which start at a byte offset. A lexeme has a
character at least, so there are no more lexemes than characters. -/
def tokenizeFrom (index : LineIndex) : (lexemes offset : Nat) → List Char →
    Except SourceError (List Spanned)
  | 0, _, _ => .ok []
  | _ + 1, _, [] => .ok []
  | lexemes + 1, offset, c :: rest =>
    let (lexeme, verdict) := Lexeme.front c rest
    let stop := offset + Position.byteCount lexeme
    let left := (c :: rest).drop lexeme.length
    match verdict with
    | .blank => tokenizeFrom index lexemes stop left
    | .bad => .error (.lexical (index.pos offset) (String.ofList lexeme))
    | .token token =>
      match tokenizeFrom index lexemes stop left with
      | .ok tokens => .ok (⟨token, offset, stop, index.pos offset⟩ :: tokens)
      | .error e => .error e

/-- The tokens of a source text. -/
def tokenize (source : String) : Except SourceError (List Spanned) :=
  let cs := source.toList
  tokenizeFrom (.ofChars cs) cs.length 0 cs

end GateSynth.Verilog
