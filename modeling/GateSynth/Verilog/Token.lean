import GateSynth.Verilog.Position
import GateSynth.Word

/-!
# Tokens

The tokens of the language: keywords, identifiers, numbers with and without a size, and
punctuation. A spanned token also knows where it stands.
-/

namespace GateSynth.Verilog

/-- The reserved words. -/
inductive Keyword where
  | module
  | endmodule
  | input
  | output
  | inout
  | wire
  | assign
deriving DecidableEq

namespace Keyword

/-- Every reserved word. -/
def all : List Keyword := [module, endmodule, input, output, inout, wire, assign]

/-- The spelling of a reserved word. -/
def text : Keyword → String
  | module => "module"
  | endmodule => "endmodule"
  | input => "input"
  | output => "output"
  | inout => "inout"
  | wire => "wire"
  | assign => "assign"

/-- The reserved word of a spelling. -/
def ofText? (text : String) : Option Keyword := all.find? fun k => k.text = text

end Keyword

/-- Brackets, separators and operators. -/
inductive Mark where
  | leftParen
  | rightParen
  | leftBracket
  | rightBracket
  | leftBrace
  | rightBrace
  | comma
  | semicolon
  | colon
  | dot
  | equals
  | question
  | tilde
  | bang
  | amp
  | pipe
  | caret
  | xnor
  | andAnd
  | orOr
  | plus
  | minus
  | star
  | slash
  | equalEqual
  | notEqual
  | less
  | lessEqual
  | greater
  | greaterEqual
deriving DecidableEq

namespace Mark

/-- The spelling of a mark; of the two spellings of exclusive nor, the one with the tilde
first. -/
def text : Mark → String
  | leftParen => "("
  | rightParen => ")"
  | leftBracket => "["
  | rightBracket => "]"
  | leftBrace => "\x7b"
  | rightBrace => "\x7d"
  | comma => ","
  | semicolon => ";"
  | colon => ":"
  | dot => "."
  | equals => "="
  | question => "?"
  | tilde => "~"
  | bang => "!"
  | amp => "&"
  | pipe => "|"
  | caret => "^"
  | xnor => "~^"
  | andAnd => "&&"
  | orOr => "||"
  | plus => "+"
  | minus => "-"
  | star => "*"
  | slash => "/"
  | equalEqual => "=="
  | notEqual => "!="
  | less => "<"
  | lessEqual => "<="
  | greater => ">"
  | greaterEqual => ">="

/-- The mark of two characters. -/
def ofPair? : Char → Char → Option Mark
  | '~', '^' => some xnor
  | '^', '~' => some xnor
  | '&', '&' => some andAnd
  | '|', '|' => some orOr
  | '=', '=' => some equalEqual
  | '!', '=' => some notEqual
  | '<', '=' => some lessEqual
  | '>', '=' => some greaterEqual
  | _, _ => none

/-- The mark of one character. -/
def ofChar? : Char → Option Mark
  | '(' => some leftParen
  | ')' => some rightParen
  | '[' => some leftBracket
  | ']' => some rightBracket
  | '\x7b' => some leftBrace
  | '\x7d' => some rightBrace
  | ',' => some comma
  | ';' => some semicolon
  | ':' => some colon
  | '.' => some dot
  | '=' => some equals
  | '?' => some question
  | '~' => some tilde
  | '!' => some bang
  | '&' => some amp
  | '|' => some pipe
  | '^' => some caret
  | '+' => some plus
  | '-' => some minus
  | '*' => some star
  | '/' => some slash
  | '<' => some less
  | '>' => some greater
  | _ => none

end Mark

/-- A token. -/
inductive Token where
  /-- A reserved word. -/
  | keyword (word : Keyword)
  /-- An identifier. -/
  | ident (name : String)
  /-- A literal with its size in bits. -/
  | sized (width : Nat) (value : Word)
  /-- A number without a size. -/
  | number (value : Word)
  /-- A bracket, separator or operator. -/
  | mark (mark : Mark)
deriving DecidableEq

/-- How a token is named in messages. -/
def Token.text : Token → String
  | keyword word => "'" ++ word.text ++ "'"
  | ident name => "identifier '" ++ name ++ "'"
  | sized width value => "literal " ++ toString width ++ "'d" ++ toString value.toNat
  | number value => "number " ++ toString value.toNat
  | mark m => "'" ++ m.text ++ "'"

/-- A token with its byte range and its position. -/
structure Spanned where
  /-- The token. -/
  token : Token
  /-- The byte offset of its first character. -/
  start : Nat
  /-- The byte offset behind its last character. -/
  stop : Nat
  /-- The position of its first character. -/
  pos : Position
deriving DecidableEq

end GateSynth.Verilog
