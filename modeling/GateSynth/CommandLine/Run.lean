import GateSynth.CommandLine.Arguments
import GateSynth.Flow.Basic

/-!
# Runs

What a command line comes to, given the files: the compilation, whether it was checked, and the
texts to be written.
-/

namespace GateSynth

/-- What a command line comes to. -/
structure RunResult where
  /-- The compilation. -/
  compilation : Compilation
  /-- What the check said, if it was asked for. -/
  checked : Option Bool
  /-- The files to be written, in order: first the optimized netlist, then the mapped one. -/
  files : List (String × String)
  /-- The text for standard output. -/
  stdout : Option String

namespace Arguments

/-- The configuration that the arguments ask for. -/
def toConfig (a : Arguments) (pathExists : String → Bool) : Except ConfigError Config :=
  Config.build pathExists a.settings

/-- Compile the design, check it if that is asked for, and lay out what is to be written. -/
def run (a : Arguments) (config : Config) (read : FileReader) : Except FlowError RunResult := do
  let compilation ← config.compileFile read a.input
  let checked ← if a.check then some <$> compilation.check else pure none
  let mapped := compilation.mapping.netlist.toJson
  let optimized := a.optimized.toList.map fun path => (path, compilation.optimized.toJson)
  let output := a.output.toList.map fun path => (path, mapped)
  return ⟨compilation, checked, optimized ++ output, if a.output.isSome then none else some mapped⟩

end Arguments

end GateSynth
