import GateSynth.Mapping.Strategy
import GateSynth.Quantity

/-!
# Costs

The cost of covering a signal: the area of the cells that only this signal needs, and the time
at which it arrives. A strategy compares costs by one of the two first; quantities that differ by
no more than the tolerance count as equal.
-/

namespace GateSynth

/-- The cost of covering a signal. -/
structure Cost (ν : Type) where
  /-- The area of the cells, up to the signals that have other readers. -/
  area : ν
  /-- The arrival time; primary inputs arrive at zero. -/
  arrival : ν

namespace Cost

variable {ν : Type} [Quantity ν]

/-- The cost of a primary input. -/
def free : Cost ν := ⟨Quantity.zero, Quantity.zero⟩

/-- What a strategy compares first and second. -/
def key (c : Cost ν) : Strategy → ν × ν
  | .areaOptimal => (c.area, c.arrival)
  | .delayOptimal => (c.arrival, c.area)

/-- The first cost is really better than the second. -/
def isBetter (strategy : Strategy) (c d : Cost ν) : Bool :=
  let (first, second) := c.key strategy
  let (first', second') := d.key strategy
  if Quantity.apart first first' then Quantity.less first first'
  else Quantity.apart second second' && Quantity.less second second'

end Cost

end GateSynth
