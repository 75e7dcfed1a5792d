/-!
# Mapping strategies

What a mapping is chosen for: the least area, or the earliest arrival at the outputs.
-/

namespace GateSynth

/-- What a mapping is chosen for. -/
inductive Strategy where
  /-- The least area, then the earliest arrival. -/
  | areaOptimal
  /-- The earliest arrival, then the least area. -/
  | delayOptimal
deriving DecidableEq

namespace Strategy

/-- Every strategy. -/
def all : List Strategy := [areaOptimal, delayOptimal]

/-- The name of a strategy in settings and reports. -/
def name : Strategy → String
  | areaOptimal => "area_optimal"
  | delayOptimal => "delay_optimal"

/-- The strategy of a name. -/
def ofName? (name : String) : Option Strategy := all.find? fun strategy => strategy.name = name

@[simp] theorem ofName?_name (strategy : Strategy) : ofName? strategy.name = some strategy := by
  cases strategy <;> decide

end Strategy

end GateSynth
