/-!
# Reading decimals

`Decimal` is a number as it is written: a sign, digits before and after the point, and an
exponent. `Decimal.nearby?` gives a binary double for it by one rule: as many digits as fit 64
bits make the significand, digits left of the point that do not fit count into the exponent, and
the significand is multiplied or divided by the double next to the power of ten. The result is
the nearest double whenever the significand is below two to the 53 and the power of ten is exact;
otherwise it may be off in its last place. There is no result beyond the range of doubles.
-/

namespace GateSynth

/-- A number as it is written in decimal. -/
structure Decimal where
  /-- There is a minus sign in front. -/
  negative : Bool
  /-- The digits before the point, most significant first. -/
  whole : List Nat
  /-- The digits after the point. -/
  fraction : Option (List Nat)
  /-- The digits of the exponent, and whether it has a minus sign. -/
  exponent : Option (Bool × List Nat)
deriving DecidableEq

namespace Decimal

/-- The decimal that writes a natural number. -/
def ofNat (value : Nat) : Decimal :=
  ⟨false, (Nat.toDigits 10 value).map fun c => c.toNat - '0'.toNat, none, none⟩

/-- The value of digits, most significant first. -/
def digitsValue (digits : List Nat) : Nat := digits.foldl (fun value d => value * 10 + d) 0

/-- The natural number that is written, if there is no sign, no point and no exponent. -/
def natural? (d : Decimal) : Option Nat :=
  if d.negative || d.fraction.isSome || d.exponent.isSome then none
  else some (digitsValue d.whole)

/-- The written form. -/
def text (d : Decimal) : String :=
  let digits := fun ds : List Nat => String.join (ds.map toString)
  let point := match d.fraction with
    | some ds => "." ++ digits ds
    | none => ""
  let power := match d.exponent with
    | some (minus, ds) => "e" ++ (if minus then "-" else "") ++ digits ds
    | none => ""
  (if d.negative then "-" else "") ++ digits d.whole ++ point ++ power

/-! ## The nearby double -/

/-- The significand that digits continue as long as it fits 64 bits, and the number of digits
that are left. -/
def absorb (significand : Nat) : List Nat → Nat × Nat
  | [] => (significand, 0)
  | d :: rest =>
    let next := significand * 10 + d
    if next < UInt64.size then absorb next rest else (significand, rest.length + 1)

/-- The double next to a power of ten. -/
def powerOfTen (n : Nat) : Float := Float.ofScientific 1 false n

/-- The largest exponent of ten that a double has. -/
def maxPower : Nat := 308

/-- Divide by ten to the `n`, the largest power at a time. Four steps bring every 64-bit number
to zero. -/
def scaleDown : (steps : Nat) → Float → Nat → Float
  | 0, f, _ => f
  | steps + 1, f, n =>
    if n ≤ maxPower then f / powerOfTen n
    else if f == 0 then f
    else scaleDown steps (f / powerOfTen maxPower) (n - maxPower)

/-- A significand times ten to an exponent. -/
def scaled? (significand : Nat) (exponent : Int) : Option Float :=
  let f := (UInt64.ofNat significand).toFloat
  match exponent with
  | .ofNat n =>
    if n ≤ maxPower then
      let product := f * powerOfTen n
      if product.isInf then none else some product
    else if significand = 0 then some f
    else none
  | .negSucc n => some (scaleDown 4 f (n + 1))

/-- The exponent that digits write, if it fits 31 bits. -/
def smallExponent? (digits : List Nat) : Option Nat :=
  let value := digitsValue digits
  if value < Nat.pow 2 31 then some value else none

/-- The magnitude of a written number as a double. -/
def magnitude? (d : Decimal) : Option Float :=
  let (upper, dropped) := absorb 0 d.whole
  let fraction := d.fraction.getD []
  let (significand, unused) := absorb upper fraction
  let exponent : Int := dropped - (fraction.length - unused : Nat)
  match d.exponent with
  | none =>
    if d.fraction.isNone && dropped == 0 then some (UInt64.ofNat significand).toFloat
    else scaled? significand exponent
  | some (minus, digits) =>
    match smallExponent? digits with
    | some power => scaled? significand (if minus then exponent - power else exponent + power)
    | none => if significand ≠ 0 && !minus then none else some 0

/-- The double of a written number. -/
def nearby? (d : Decimal) : Option Float :=
  d.magnitude?.map fun f => if d.negative then -f else f

end Decimal

end GateSynth
