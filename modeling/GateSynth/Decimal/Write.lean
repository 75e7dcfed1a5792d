/-!
# Writing doubles

A finite double is a natural number times a power of two. `Binary.fixed` writes it with a set
number of places, rounded to the nearest, an exact half to the even neighbour. `Binary.shortest`
writes it with the fewest digits that still tell it from its neighbours, without an exponent; of
two such decimals it takes the nearer one, and at an exact half the one above. Digits are chosen
by exact arithmetic on natural numbers.
-/

namespace GateSynth

/-- Where an exact half is rounded to. -/
inductive Tie where
  /-- To the even neighbour. -/
  | toEven
  /-- To the neighbour above. -/
  | up
deriving DecidableEq

/-- Does an exact half above a natural number go up? -/
def Tie.goesUp : Tie → Nat → Bool
  | toEven, below => below % 2 = 1
  | up, _ => true

/-- A finite double: a mantissa times a power of two. -/
structure Binary where
  /-- The sign bit is set. -/
  negative : Bool
  /-- The mantissa. -/
  mantissa : Nat
  /-- The exponent of two. -/
  exponent : Int
  /-- The neighbour below is half as far away as the one above. -/
  narrowBelow : Bool
deriving DecidableEq

namespace Binary

/-- The value of the bits of a double, if it is finite. -/
def ofBits? (bits : UInt64) : Option Binary :=
  let negative := bits.toNat / Nat.pow 2 63 = 1
  let field : Nat := bits.toNat / Nat.pow 2 52 % Nat.pow 2 11
  let fraction := bits.toNat % Nat.pow 2 52
  if field = 2047 then none
  else if field = 0 then some ⟨negative, fraction, -1074, false⟩
  else some ⟨negative, Nat.pow 2 52 + fraction, (field : Int) - 1075, fraction = 0 && field > 1⟩

/-- The magnitude as a numerator and a denominator. -/
def ratio (b : Binary) : Nat × Nat :=
  match b.exponent with
  | .ofNat e => (b.mantissa * Nat.pow 2 e, 1)
  | .negSucc e => (b.mantissa, Nat.pow 2 (e + 1))

/-- The natural number next to a quotient; the tie rule decides between two at the same
distance. -/
def roundDiv (tie : Tie) (numerator denominator : Nat) : Nat :=
  let q := numerator / denominator
  let twice := 2 * (numerator % denominator)
  if twice < denominator then q
  else if twice = denominator then (if tie.goesUp q then q + 1 else q)
  else q + 1

/-- The sign in front of a number. -/
def sign (b : Binary) : String := if b.negative then "-" else ""

/-- A count of units of the last place, with a point before the last `places` digits. -/
def pointText (units places : Nat) : String :=
  let digits := Nat.toDigits 10 units
  let padded := List.replicate (places + 1 - digits.length) '0' ++ digits
  let whole := padded.take (padded.length - places)
  let fraction := padded.drop (padded.length - places)
  String.ofList (if places = 0 then whole else whole ++ '.' :: fraction)

/-- The number with a set number of places. -/
def fixed (b : Binary) (places : Nat) : String :=
  let (numerator, denominator) := b.ratio
  b.sign ++ pointText (roundDiv .toEven (numerator * Nat.pow 10 places) denominator) places

/-! ## The fewest digits -/

/-- A decimal: digits times a power of ten. -/
structure Digits where
  /-- The digits as a number. -/
  value : Nat
  /-- The exponent of ten. -/
  power : Int
deriving DecidableEq

/-- The decimal as a numerator and a denominator. -/
def Digits.ratio (d : Digits) : Nat × Nat :=
  match d.power with
  | .ofNat p => (d.value * Nat.pow 10 p, 1)
  | .negSucc p => (d.value, Nat.pow 10 (p + 1))

/-- Does a decimal lie between the halfway points to the two neighbours? The halfway points
themselves count when the mantissa is even. -/
def readsBack (b : Binary) (d : Digits) : Bool :=
  let (n, m) := d.ratio
  -- In quarters of the last binary place the double is four times the mantissa.
  let (quarters, unit) := match b.exponent with
    | .ofNat e => (4 * n, m * Nat.pow 2 e)
    | .negSucc e => (4 * n * Nat.pow 2 (e + 1), m)
  let low := (4 * b.mantissa - if b.narrowBelow then 1 else 2) * unit
  let high := (4 * b.mantissa + 2) * unit
  if b.mantissa % 2 = 0 then low ≤ quarters && quarters ≤ high
  else low < quarters && quarters < high

/-- The least number from `power` on, going up, whose power of ten is above the magnitude. -/
def leastPowerUp (numerator denominator : Nat) : (steps power : Nat) → Nat
  | 0, power => power
  | steps + 1, power =>
    if numerator < denominator * Nat.pow 10 power then power
    else leastPowerUp numerator denominator steps (power + 1)

/-- The number of times a quotient below one can be multiplied by ten and stay below one. -/
def leadingZeros (numerator denominator : Nat) : (steps : Nat) → Nat
  | 0 => 0
  | steps + 1 =>
    if numerator * 10 < denominator then leadingZeros (numerator * 10) denominator steps + 1
    else 0

/-- The least power of ten above the magnitude. -/
def scale (b : Binary) : Int :=
  let (numerator, denominator) := b.ratio
  if numerator < denominator then - (leadingZeros numerator denominator 400 : Int)
  else leastPowerUp numerator denominator 400 0

/-- The neighbours of the magnitude with this power of ten, the nearer one first; at an exact half
the one above comes first. -/
def neighbours (b : Binary) (power : Int) : List Digits :=
  let (n, d) := b.ratio
  let (numerator, denominator) := match power with
    | .ofNat p => (n, d * Nat.pow 10 p)
    | .negSucc p => (n * Nat.pow 10 (p + 1), d)
  let below := numerator / denominator
  let nearer := roundDiv .up numerator denominator
  let other := if nearer = below then below + 1 else below
  [⟨nearer, power⟩, ⟨other, power⟩]

/-- The first decimal that reads back, with `count` digits or more, up to `count + left`. -/
def search (b : Binary) : (left count : Nat) → Option Digits
  | 0, _ => none
  | left + 1, count =>
    match (b.neighbours (b.scale - count)).find? b.readsBack with
    | some d => some d
    | none => search b left (count + 1)

/-- Digits without zeros at their end. -/
def strip : (steps : Nat) → Digits → Digits
  | 0, d => d
  | steps + 1, d =>
    if d.value ≠ 0 ∧ d.value % 10 = 0 then strip steps ⟨d.value / 10, d.power + 1⟩ else d

/-- A decimal without an exponent. -/
def Digits.text (d : Digits) : String :=
  match d.power with
  | .ofNat p => toString (d.value * Nat.pow 10 p)
  | .negSucc p => pointText d.value (p + 1)

/-- The number with the fewest digits that read back; seventeen always do. -/
def shortest (b : Binary) : String :=
  if b.mantissa = 0 then b.sign ++ "0"
  else
    match b.search 17 1 with
    | some d => b.sign ++ (strip 20 d).text
    | none => b.fixed 1074

end Binary

end GateSynth
