import GateSynth.Flow.Config

/-!
# Arguments

`Arguments.parse` reads the words of a command line. Parameters are named by a long word such as
`--rounds`, whose value is the next word or follows an equals sign, or by a letter such as `-r`,
whose value may also follow at once. The input is the one word that stands alone. After `--`
every word stands alone.

A parameter that is waiting for its value, or has just got it, is settled only when the next
parameter or switch comes, or at the end. So of two faults it can be the later one that is
reported: an unknown word, or a value given to a switch, comes before a bad value in front of it.
-/

namespace GateSynth

/-- Why there is nothing to run. -/
inductive ArgumentError where
  /-- A word that names nothing, or a second input. -/
  | unknownArgument
  /-- A value that is missing, empty where it must not be, or not among those possible. -/
  | invalidValue
  /-- A value that is no number. -/
  | valueValidation
  /-- The input is missing. -/
  | missingInput
  /-- A parameter or switch that comes twice. -/
  | repeated
  /-- A value for a switch. -/
  | unexpectedValue
  /-- Help is asked for. -/
  | help
  /-- The version is asked for. -/
  | version
deriving DecidableEq

/-- What takes a value. -/
inductive Parameter where
  | input
  | top
  | library
  | strategy
  | rounds
  | output
  | optimized
deriving DecidableEq

/-- What takes no value. -/
inductive Switch where
  | strict
  | noOpt
  | check
  | help
  | version
deriving DecidableEq

/-- What a long word or a letter names. -/
inductive Named where
  /-- A parameter. -/
  | parameter (p : Parameter)
  /-- A switch. -/
  | switch (s : Switch)
deriving DecidableEq

namespace Named

/-- What a word behind two dashes names. -/
def ofWord? : String → Option Named
  | "top" => some (.parameter .top)
  | "library" => some (.parameter .library)
  | "strategy" => some (.parameter .strategy)
  | "rounds" => some (.parameter .rounds)
  | "output" => some (.parameter .output)
  | "optimized" => some (.parameter .optimized)
  | "strict" => some (.switch .strict)
  | "no-opt" => some (.switch .noOpt)
  | "check" => some (.switch .check)
  | "help" => some (.switch .help)
  | "version" => some (.switch .version)
  | _ => none

/-- What a letter behind a dash names. -/
def ofLetter? : Char → Option Named
  | 't' => some (.parameter .top)
  | 'l' => some (.parameter .library)
  | 's' => some (.parameter .strategy)
  | 'r' => some (.parameter .rounds)
  | 'o' => some (.parameter .output)
  | 'h' => some (.switch .help)
  | 'V' => some (.switch .version)
  | _ => none

end Named

/-- What is to be run. -/
structure Arguments where
  /-- The path of the design. -/
  input : String
  /-- The top module. -/
  top : Option String
  /-- The path of the library. -/
  library : Option String
  /-- What to map for. -/
  strategy : Strategy
  /-- The largest number of rounds. -/
  rounds : Nat
  /-- A division by a constant zero is an error. -/
  strict : Bool
  /-- Do not optimize. -/
  noOpt : Bool
  /-- Compare the design with the result of each stage. -/
  check : Bool
  /-- Where the mapped netlist is written. -/
  output : Option String
  /-- Where the optimized netlist is written. -/
  optimized : Option String
deriving DecidableEq

namespace Arguments

/-- The arguments of an empty command line. -/
def default : Arguments where
  input := ""
  top := none
  library := none
  strategy := .areaOptimal
  rounds := 8
  strict := false
  noOpt := false
  check := false
  output := none
  optimized := none

/-- A path is not empty. -/
def path (value : String) : Except ArgumentError String :=
  if value.isEmpty then .error .invalidValue else .ok value

/-- Give a parameter its value. -/
def assign (a : Arguments) (value : String) : Parameter → Except ArgumentError Arguments
  | .input => do return { a with input := ← path value }
  | .top => .ok { a with top := some value }
  | .library => do return { a with library := some (← path value) }
  | .strategy =>
    match Strategy.ofName? value with
    | some strategy => .ok { a with strategy }
    | none => .error .invalidValue
  | .rounds =>
    match Numeral.unsigned? UInt64.size value.toList with
    | some rounds => .ok { a with rounds }
    | none => .error .valueValidation
  | .output => do return { a with output := some (← path value) }
  | .optimized => do return { a with optimized := some (← path value) }

/-- Turn a switch on, or stop for what it asks. -/
def turnOn (a : Arguments) : Switch → Except ArgumentError Arguments
  | .strict => .ok { a with strict := true }
  | .noOpt => .ok { a with noOpt := true }
  | .check => .ok { a with check := true }
  | .help => .error .help
  | .version => .error .version

/-- The configuration that the arguments ask for. -/
def settings (a : Arguments) : List Setting :=
  [.optimize (!a.noOpt), .maxRounds a.rounds, .strict a.strict, .strategy a.strategy.name]
    ++ a.top.toList.map .top ++ a.library.toList.map .library

end Arguments

/-! ## Reading words -/

/-- A parameter that is not settled: it waits for its value, or has it. -/
structure Unsettled where
  /-- The parameter. -/
  parameter : Parameter
  /-- The value. -/
  value : Option String
deriving DecidableEq

/-- How far a command line has been read. -/
structure Reading where
  /-- The arguments that are settled. -/
  arguments : Arguments
  /-- The parameters and switches that are settled. -/
  given : List Named
  /-- The parameter that is not settled yet. -/
  pending : Option Unsettled
  /-- Every further word stands alone. -/
  escaped : Bool

namespace Reading

/-- Nothing has been read. -/
def start : Reading := ⟨Arguments.default, [], none, false⟩

/-- Give a parameter its value; it must not have one. -/
def give (r : Reading) (p : Parameter) (value : String) : Except ArgumentError Reading := do
  if r.given.contains (.parameter p) then
    throw .repeated
  let arguments ← r.arguments.assign value p
  return { r with arguments, given := .parameter p :: r.given }

/-- Settle the parameter that is not settled. -/
def settle (r : Reading) : Except ArgumentError Reading :=
  match r.pending with
  | none => .ok r
  | some ⟨_, none⟩ => .error .invalidValue
  | some ⟨p, some value⟩ => { r with pending := none }.give p value

/-- A word that stands alone. -/
def loneWord (r : Reading) (word : String) : Except ArgumentError Reading := do
  let known := r.given.contains (.parameter .input)
    || r.pending.any fun u => u.parameter = .input
  if known then
    throw .unknownArgument
  let r ← r.settle
  return { r with pending := some ⟨.input, some word⟩ }

/-- What a word or a letter names, with the value that comes with it. -/
def named (r : Reading) (name : Option Named) (value : Option String) :
    Except ArgumentError Reading :=
  match name, value with
  | none, _ => .error .unknownArgument
  | some (.parameter p), some value => do
    let r ← r.settle
    r.give p value
  | some (.parameter p), none => do
    let r ← r.settle
    return { r with pending := some ⟨p, none⟩ }
  | some (.switch _), some _ => .error .unexpectedValue
  | some (.switch s), none => do
    let r ← r.settle
    let arguments ← r.arguments.turnOn s
    if r.given.contains (.switch s) then
      throw .repeated
    return { r with arguments, given := .switch s :: r.given }

/-- A word behind two dashes; an equals sign divides the name from the value. -/
def longWord (r : Reading) (word : List Char) : Except ArgumentError Reading :=
  let name := Named.ofWord? (String.ofList (word.takeWhile (· ≠ '=')))
  match word.dropWhile (· ≠ '=') with
  | [] => r.named name none
  | _ :: value => r.named name (some (String.ofList value))

/-- Letters behind one dash. What follows a parameter is its value. What follows a switch is
never reached, because every switch with a letter stops the reading. -/
def letters (r : Reading) (letter : Char) (rest : List Char) : Except ArgumentError Reading :=
  match Named.ofLetter? letter, rest with
  | some (.switch s), _ => r.named (some (.switch s)) none
  | name, [] => r.named name none
  | name, '=' :: value => r.named name (some (String.ofList value))
  | name, value => r.named name (some (String.ofList value))

/-- Any other word: the value that is waited for, or a word that stands alone. -/
def plainWord (r : Reading) (word : String) : Except ArgumentError Reading :=
  match r.pending with
  | some ⟨p, none⟩ => .ok { r with pending := some ⟨p, some word⟩ }
  | _ => r.loneWord word

/-- Read one word. -/
def word (r : Reading) (word : String) : Except ArgumentError Reading :=
  if r.escaped then r.loneWord word
  else
    match word.toList with
    | ['-', '-'] => .ok { r with escaped := true }
    | '-' :: '-' :: rest => r.longWord rest
    | '-' :: letter :: rest => r.letters letter rest
    | _ => r.plainWord word

end Reading

/-- The arguments that the words of a command line give. -/
def Arguments.parse (words : List String) : Except ArgumentError Arguments := do
  let r ← words.foldlM Reading.word Reading.start
  let r ← r.settle
  if r.given.contains (.parameter .input) then return r.arguments
  else throw .missingInput

end GateSynth
