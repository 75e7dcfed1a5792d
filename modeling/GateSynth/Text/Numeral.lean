/-!
# Numerals

Reading a natural number from its digits in a radix between 2 and 36. `ofDigits?` takes nothing
but digits; `unsigned?` also takes one plus sign in front and keeps below a bound.
-/

namespace GateSynth.Numeral

/-- The value of a character as a digit in a radix; letters of either case follow nine. -/
def digit? (radix : Nat) (c : Char) : Option Nat :=
  let value :=
    if '0' ≤ c ∧ c ≤ '9' then c.toNat - '0'.toNat
    else if 'a' ≤ c ∧ c ≤ 'z' then c.toNat - 'a'.toNat + 10
    else if 'A' ≤ c ∧ c ≤ 'Z' then c.toNat - 'A'.toNat + 10
    else radix
  if value < radix then some value else none

/-- The number that digits continue, read on from the value of the digits before them. -/
def continue? (radix : Nat) (value : Nat) : List Char → Option Nat
  | [] => some value
  | c :: rest =>
    match digit? radix c with
    | some d => continue? radix (value * radix + d) rest
    | none => none

/-- The number that a non-empty list of digits writes, most significant first. -/
def ofDigits? (radix : Nat) : List Char → Option Nat
  | [] => none
  | digits => continue? radix 0 digits

/-- A decimal number below `bound`, with at most one plus sign in front. -/
def unsigned? (bound : Nat) (text : List Char) : Option Nat :=
  let digits :=
    match text with
    | '+' :: rest => rest
    | _ => text
  match ofDigits? 10 digits with
  | some value => if value < bound then some value else none
  | none => none

end GateSynth.Numeral
