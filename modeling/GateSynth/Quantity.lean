import GateSynth.Decimal.Write

/-!
# Quantities

Areas and delays of cells. Mapping needs no more of them than the operations of `Quantity`: they
are added, the later of two times is taken, and two of them are told apart only if they differ by
more than a tolerance. Libraries measure in doubles.
-/

namespace GateSynth

/-- What areas and delays can do. -/
class Quantity (ν : Type) where
  /-- Nothing. -/
  zero : ν
  /-- The sum of no quantities at all. -/
  emptySum : ν
  /-- The sum of two. -/
  add : ν → ν → ν
  /-- The larger of two. -/
  max : ν → ν → ν
  /-- The first is less than the second. -/
  less : ν → ν → Bool
  /-- Two quantities differ by more than the tolerance. -/
  apart : ν → ν → Bool
  /-- A finite quantity above zero. -/
  isPositive : ν → Bool
  /-- A finite quantity of at least zero. -/
  isNonNegative : ν → Bool
  /-- The written form. -/
  text : ν → String

namespace Quantity

/-- The tolerance for doubles. -/
def tolerance : Float := 1e-9

/-- The text of a double that is not finite. -/
def notFiniteText (x : Float) : String :=
  if x.isNaN then "NaN" else if x < 0 then "-inf" else "inf"

/-- A double with the fewest digits that tell it from others. -/
def shortestText (x : Float) : String :=
  match Binary.ofBits? x.toBits with
  | some b => b.shortest
  | none => notFiniteText x

/-- A double with a set number of places. -/
def fixedText (places : Nat) (x : Float) : String :=
  match Binary.ofBits? x.toBits with
  | some b => b.fixed places
  | none => notFiniteText x

/-- Doubles as areas and delays; the sum of none is negative zero, so that adding to it changes
nothing. -/
instance : Quantity Float where
  zero := 0
  emptySum := -0.0
  add := (· + ·)
  max a b := if a < b then b else a
  less a b := a < b
  apart a b := (a - b).abs > tolerance
  isPositive x := x.isFinite && x > 0
  isNonNegative x := x.isFinite && x ≥ 0
  text := shortestText

end Quantity

end GateSynth
