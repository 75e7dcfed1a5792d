import GateSynth.CommandLine.Run

/-!
# The command

`gatesynth` optimizes a combinational design and maps it onto a cell library. The mapped netlist goes
to a file or to standard output; warnings and the summary go to standard error.
-/

namespace GateSynth.Command

/-- The help text. -/
def usage : String :=
  "\n".intercalate
    ["Optimize a combinational design and map it onto a cell library",
      "",
      "Usage: gatesynth [OPTIONS] <INPUT>",
      "",
      "Arguments:",
      "  <INPUT>  Design to compile: Verilog source (.v) or netlist JSON (.json)",
      "",
      "Options:",
      "  -t, --top <TOP>              Top module (default: the only uninstantiated module)",
      "  -l, --library <LIBRARY>      Cell library JSON file (default: the generic library)",
      "  -s, --strategy <STRATEGY>    area_optimal or delay_optimal [default: area_optimal]",
      "  -r, --rounds <ROUNDS>        Maximum number of optimization rounds [default: 8]",
      "      --strict                 Abort a pass on constant-folding errors",
      "      --no-opt                 Skip the optimization passes",
      "      --check                  Compare truth tables before and after each stage",
      "  -o, --output <OUTPUT>        Write the mapped netlist here",
      "      --optimized <OPTIMIZED>  Also write the optimized, unmapped netlist",
      "  -h, --help                   Print help",
      "  -V, --version                Print version"]

/-- What is said about arguments that cannot be run. -/
def argumentFault : ArgumentError → String
  | .unknownArgument => "unexpected argument"
  | .invalidValue => "invalid or missing value"
  | .valueValidation => "invalid number"
  | .missingInput => "the input is missing"
  | .repeated => "an argument is given more than once"
  | .unexpectedValue => "unexpected value for a flag"
  | .help => usage
  | .version => "gatesynth 0.1.0"

/-- The text of a file, or why it cannot be read. -/
def readText (path : String) : IO (Except String String) :=
  try
    return .ok (← IO.FS.readFile path)
  catch e => return .error (toString e)

/-- Read the files that a run can ask for. -/
def readFiles (paths : List String) : IO FileReader := do
  let texts ← paths.mapM fun path => do return (path, ← readText path)
  return fun path => (Table.findEntry path texts).getD (.error "not read")

/-- Print a fault and give the exit code of failures. -/
def fail (code : UInt32) (fault : String) : IO UInt32 := do
  IO.eprintln s!"error: {fault}"
  return code

/-- Write the files of a result and report on it. -/
def report (result : RunResult) : IO UInt32 := do
  for warning in result.compilation.warnings do
    IO.eprintln ("warning: " ++ warning.message)
  if result.checked = some false then
    IO.eprintln
      "warning: equivalence check skipped (opaque nodes or more than 16 input bits)"
  for (path, text) in result.files do
    IO.FS.writeFile path text
  if let some text := result.stdout then
    IO.println text
  IO.eprint result.compilation.mapping.text
  return 0

/-- Run a command line whose arguments are in order. -/
def runArguments (a : Arguments) : IO UInt32 := do
  let read ← readFiles (a.input :: a.library.toList)
  match a.toConfig fun path => (read path).isOk with
  | .error e => fail 1 e.message
  | .ok config =>
    match a.run config read with
    | .error e => fail 1 e.message
    | .ok result => report result

end GateSynth.Command

/-- Run a command line. -/
def main (words : List String) : IO UInt32 := do
  match GateSynth.Arguments.parse words with
  | .ok a => GateSynth.Command.runArguments a
  | .error .help =>
    IO.println GateSynth.Command.usage
    return 0
  | .error .version =>
    IO.println (GateSynth.Command.argumentFault .version)
    return 0
  | .error e => GateSynth.Command.fail 2 (GateSynth.Command.argumentFault e)
