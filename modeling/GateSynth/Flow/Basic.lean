import GateSynth.Flow.Config
import GateSynth.Mapping.Basic
import GateSynth.Netlist.Exchange
import GateSynth.Simulation.Equivalence
import GateSynth.Verilog.Elaborate

/-!
# The flow

One run from the files to the mapped netlist: load the library, load the design, optimize, map.
`Compilation.check` compares the design with the result of each stage on every assignment. Files
are read through a function from paths to texts, so that the flow itself is pure.
-/

namespace GateSynth

/-- Why a run fails. -/
inductive FlowError where
  /-- A file cannot be read or written. -/
  | io (path reason : String)
  /-- The format of a design is not known. -/
  | unknownFormat (path : String)
  /-- The source text is refused. -/
  | frontend (error : Verilog.SourceError)
  /-- The stored netlist is refused. -/
  | netlist (error : NetlistError)
  /-- A pass fails. -/
  | opt (error : OptError)
  /-- The library is refused. -/
  | library (error : LibraryError)
  /-- Mapping fails. -/
  | map (error : MapError)
  /-- A netlist cannot be evaluated. -/
  | eval (error : EvalError)
  /-- A stage changes the design. -/
  | mismatch (stage : String) (difference : Counterexample)
deriving DecidableEq

namespace FlowError

/-- A character of a quoted name. -/
def quotedChar (c : Char) : String :=
  if c = '\x22' then "\\\""
  else if c = '\x5c' then "\\\\"
  else if c = '\n' then "\\n"
  else if c = '\x0d' then "\\r"
  else if c = '\t' then "\\t"
  else if c.toNat = 0 then "\\0"
  else if c.toNat < 32 || c.toNat = 127 then
    "\\u\x7b" ++ String.ofList (Nat.toDigits 16 c.toNat) ++ "\x7d"
  else String.singleton c

/-- A name in quotes. -/
def quoted (name : String) : String := "\"" ++ String.join (name.toList.map quotedChar) ++ "\""

/-- The values of inputs, such as `{"a": 1, "b": 0}`. -/
def inputsText (inputs : List (String × Word)) : String :=
  let entries := inputs.map fun (name, value) => quoted name ++ ": " ++ toString value.toNat
  "\x7b" ++ ", ".intercalate entries ++ "\x7d"

/-- The wording of an error. -/
def message : FlowError → String
  | io path reason => s!"{path}: {reason}"
  | unknownFormat path => s!"{path}: expected a .v or .json file"
  | frontend error => error.message
  | netlist error => error.message
  | opt error => error.message
  | library error => error.message
  | map error => error.message
  | eval error => error.message
  | mismatch stage difference =>
    let expected := toString difference.expected.toNat
    let actual := toString difference.actual.toNat
    s!"{stage} changed output '{difference.output}': expected {expected}, got {actual} for "
      ++ inputsText difference.inputs

end FlowError

/-! ## Loading -/

/-- The text of the file at a path, or the reason why there is none. -/
abbrev FileReader := String → Except String String

/-- The formats of designs. -/
inductive DesignFormat where
  /-- Source text. -/
  | verilog
  /-- A stored netlist. -/
  | json
deriving DecidableEq

namespace DesignFormat

/-- The name of the file at a path: its last part, where dots for the directory itself and
slashes at the end do not count. -/
def fileName? (path : String) : Option (List Char) :=
  let parts := path.toList.splitOn '/'
  match (parts.filter fun part => part ≠ [] && part ≠ ['.']).getLast? with
  | some name => if name = ['.', '.'] then none else some name
  | none => none

/-- What stands behind the last dot of a file name; a dot in front alone does not count. -/
def extension? (path : String) : Option String := do
  let name ← fileName? path
  let reversed := name.reverse
  match reversed.dropWhile (· ≠ '.') with
  | [] => none
  | [_] => none
  | _ => return String.ofList (reversed.takeWhile (· ≠ '.')).reverse

/-- The format that the extension of a path says. -/
def ofPath (path : String) : Except FlowError DesignFormat :=
  match extension? path with
  | some "v" => .ok .verilog
  | some "json" => .ok .json
  | _ => .error (.unknownFormat path)

end DesignFormat

/-- The design of a text. -/
def DesignFormat.load (format : DesignFormat) (text : String) (top : Option String) :
    Except FlowError Netlist :=
  match format with
  | .verilog => (Verilog.compile text top).mapError .frontend
  | .json => (Netlist.ofJson text).mapError .netlist

/-- The design at a path. -/
def loadDesign (read : FileReader) (path : String) (top : Option String) :
    Except FlowError Netlist := do
  let format ← DesignFormat.ofPath path
  let text ← (read path).mapError (.io path)
  format.load text top

/-- The library at a path, or the generic one. -/
def loadLibrary (read : FileReader) : Option String → Except LibraryError (Library Float)
  | none => .ok Library.generic
  | some path => do
    let text ← (read path).mapError (.unreadable path)
    Library.ofJson text

/-! ## Running -/

/-- Everything that a run gives. -/
structure Compilation where
  /-- The design as it was loaded. -/
  source : Netlist
  /-- The design as it was mapped. -/
  optimized : Netlist
  /-- What the optimization did, if there was one. -/
  report : Option OptReport
  /-- The library. -/
  library : Library Float
  /-- The mapped design. -/
  mapping : Mapping Float

/-- Optimize a design if the configuration says so. -/
def Config.optimizeSource (c : Config) (source : Netlist) :
    Except OptError (Netlist × Option OptReport) :=
  if c.optimize then
    match source.optimize c.opt with
    | (optimized, .ok report) => .ok (optimized, some report)
    | (_, .error e) => .error e
  else .ok (source, none)

/-- Load, optimize and map the design at a path. The library is loaded first. -/
def Config.compileFile (c : Config) (read : FileReader) (input : String) :
    Except FlowError Compilation := do
  let library ← (loadLibrary read c.library).mapError .library
  let source ← loadDesign read input c.top
  let (optimized, report) ← (c.optimizeSource source).mapError .opt
  let mapping ← (optimized.mapOnto library c.strategy).mapError .map
  return ⟨source, optimized, report, library, mapping⟩

namespace Compilation

/-- The number of input bits up to which stages are checked. -/
def checkLimit : Nat := 16

/-- The divisions by a constant zero that were left alone. -/
def warnings (c : Compilation) : List FoldError :=
  match c.report with
  | some report => report.foldErrors
  | none => []

/-- Compare the design with the result of a stage. `false` means that there are too many
assignments or a node has no function. -/
def checkStage (c : Compilation) (stage : String) (result : Netlist) : Except FlowError Bool := do
  let reference ← (Evaluator.ofNetlist c.source c.library.functions).mapError .eval
  let candidate ← (Evaluator.ofNetlist result c.library.functions).mapError .eval
  match checkEquivalence reference candidate checkLimit with
  | .ok none => return true
  | .ok (some difference) => throw (.mismatch stage difference)
  | .error (.tooWide ..) => return false
  | .error (.unevaluable ..) => return false
  | .error e => throw (.eval e)

/-- Compare the design with the optimized and with the mapped design; `true` means that both
comparisons were made. -/
def check (c : Compilation) : Except FlowError Bool := do
  let optimized ← c.checkStage "optimization" c.optimized
  let mapped ← c.checkStage "mapping" c.mapping.netlist
  return optimized && mapped

end Compilation

end GateSynth
