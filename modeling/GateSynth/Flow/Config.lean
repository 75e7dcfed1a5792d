import GateSynth.Mapping.Strategy
import GateSynth.Optimize.Rounds

/-!
# Configurations

What a run does: which module is the top, whether and how to optimize, what to map for, and onto
which library. `Config.build` starts from the defaults, makes settings in order, and checks the
outcome: optimization needs at least one round, and a library file must exist.
-/

namespace GateSynth

/-- Why a configuration is refused. -/
inductive ConfigError where
  /-- No strategy has this name. -/
  | unknownStrategy (name : String)
  /-- No pass has this name. -/
  | unknownPass (name : String)
  /-- There are no rounds to optimize in. -/
  | zeroRounds
  /-- There is no library file at this path. -/
  | missingLibrary (path : String)
deriving DecidableEq

/-- The wording of an error. -/
def ConfigError.message : ConfigError → String
  | unknownStrategy name =>
    s!"Unknown mapping strategy '{name}' (expected 'area_optimal' or 'delay_optimal')"
  | unknownPass name =>
    s!"Unknown optimization pass '{name}' (expected strash, constprop, dce or balance)"
  | zeroRounds => "Optimization round limit must be at least 1"
  | missingLibrary path => s!"Cell library not found: {path}"

/-- What a run does. -/
structure Config where
  /-- The top module; by default the one module that no other contains. -/
  top : Option String
  /-- Optimize before mapping. -/
  optimize : Bool
  /-- How to optimize. -/
  opt : OptSettings
  /-- What to map for. -/
  strategy : Strategy
  /-- The path of the library; by default the generic one is used. -/
  library : Option String
deriving DecidableEq

/-- One change to a configuration. -/
inductive Setting where
  /-- Choose the top module. -/
  | top (name : String)
  /-- Optimize or not. -/
  | optimize (on : Bool)
  /-- Choose the passes by name. -/
  | passes (names : List String)
  /-- Limit the number of rounds. -/
  | maxRounds (rounds : Nat)
  /-- Take a division by a constant zero as an error or not. -/
  | strict (on : Bool)
  /-- Choose the strategy by name. -/
  | strategy (name : String)
  /-- Choose the library by its path. -/
  | library (path : String)
deriving DecidableEq

/-- The strategy of a name, or the error of a name that is none. -/
def Strategy.ofName (name : String) : Except ConfigError Strategy :=
  match Strategy.ofName? name with
  | some strategy => .ok strategy
  | none => .error (.unknownStrategy name)

/-- The pass of a name, or the error of a name that is none. -/
def Pass.ofName (name : String) : Except ConfigError Pass :=
  match Pass.ofName? name with
  | some pass => .ok pass
  | none => .error (.unknownPass name)

namespace Config

/-- Optimize by default settings and map for area onto the generic library. -/
def default : Config := ⟨none, true, OptSettings.default, .areaOptimal, none⟩

/-- Make one setting. -/
def set (c : Config) : Setting → Except ConfigError Config
  | .top name => .ok { c with top := some name }
  | .optimize on => .ok { c with optimize := on }
  | .passes names => do return { c with opt.passes := ← names.mapM Pass.ofName }
  | .maxRounds rounds => .ok { c with opt.maxRounds := rounds }
  | .strict on => .ok { c with opt.strict := on }
  | .strategy name => do return { c with strategy := ← Strategy.ofName name }
  | .library path => .ok { c with library := some path }

/-- The configuration is in order, given which paths exist. -/
def check (c : Config) (pathExists : String → Bool) : Except ConfigError Unit := do
  if c.optimize && c.opt.maxRounds = 0 then
    throw .zeroRounds
  if let some path := c.library then
    if !pathExists path then
      throw (.missingLibrary path)

/-- Make settings one after the other, then check the outcome. -/
def build (pathExists : String → Bool) (settings : List Setting) : Except ConfigError Config := do
  let c ← settings.foldlM set default
  c.check pathExists
  return c

end Config

end GateSynth
