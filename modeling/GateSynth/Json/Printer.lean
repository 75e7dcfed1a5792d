import GateSynth.Json.Basic

/-!
# Writing JSON

`Json.render` writes a value over several lines, each level two blanks further in. An empty array
or object stands on one line. Strings escape the quote, the backslash and control characters.
-/

namespace GateSynth.Json

/-- The hexadecimal digit of a number below sixteen. -/
def hexDigit (value : Nat) : Char :=
  if value < 10 then Char.ofNat ('0'.toNat + value) else Char.ofNat ('a'.toNat + value - 10)

/-- The characters that write one character of a string. -/
def escape (c : Char) : List Char :=
  match c with
  | '"' => ['\\', '"']
  | '\\' => ['\\', '\\']
  | '\x08' => ['\\', 'b']
  | '\x0c' => ['\\', 'f']
  | '\n' => ['\\', 'n']
  | '\r' => ['\\', 'r']
  | '\t' => ['\\', 't']
  | c =>
    if c.toNat < 0x20 then
      ['\\', 'u', '0', '0', hexDigit (c.toNat / 16), hexDigit (c.toNat % 16)]
    else [c]

/-- A string in quotes. -/
def quote (text : String) : String :=
  "\"" ++ String.ofList (text.toList.flatMap escape) ++ "\""

/-- The start of a line at a level. -/
def newline (level : Nat) : String := "\n" ++ String.ofList (List.replicate (2 * level) ' ')

mutual

/-- A value whose first line stands at a level. -/
@[simp]
def renderAt (level : Nat) : Json → String
  | null => "null"
  | bool true => "true"
  | bool false => "false"
  | number value => value.text
  | string text => quote (text.getD "")
  | array [] => "[]"
  | array (item :: rest) =>
    "[" ++ newline (level + 1) ++ renderAt (level + 1) item ++ renderItems (level + 1) rest
      ++ newline level ++ "]"
  | object [] => "\x7b\x7d"
  | object ((key, item) :: rest) =>
    "\x7b" ++ newline (level + 1) ++ quote (key.getD "") ++ ": " ++ renderAt (level + 1) item
      ++ renderMembers (level + 1) rest ++ newline level ++ "\x7d"

/-- The items of an array behind the first. -/
@[simp]
def renderItems (level : Nat) : List Json → String
  | [] => ""
  | item :: rest => "," ++ newline level ++ renderAt level item ++ renderItems level rest

/-- The members of an object behind the first. -/
@[simp]
def renderMembers (level : Nat) : List (Option String × Json) → String
  | [] => ""
  | (key, item) :: rest =>
    "," ++ newline level ++ quote (key.getD "") ++ ": " ++ renderAt level item
      ++ renderMembers level rest

end

/-- The text of a value. -/
def render (json : Json) : String := renderAt 0 json

example : (object [(some "inputs", array [null]), (some "wires", array [])]).render =
    "\x7b\n  \"inputs\": [\n    null\n  ],\n  \"wires\": []\n\x7d" := by cbv

end GateSynth.Json
