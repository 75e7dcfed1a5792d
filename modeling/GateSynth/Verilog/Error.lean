import GateSynth.Netlist.Error
import GateSynth.Verilog.Position

/-!
# Errors of source texts

Each constructor is one reason for which a source text has no netlist, with the place where it
shows; `SourceError.message` words it.
-/

namespace GateSynth.Verilog

/-- Why a source text is refused. -/
inductive SourceError where
  /-- Characters that are no token. -/
  | lexical (pos : Position) (text : String)
  /-- A token where the grammar has another. -/
  | grammar (pos : Position) (detail : String)
  /-- A construct of the language that is left out. -/
  | unsupported (pos : Position) (construct : String)
  /-- A name without a declaration. -/
  | undeclaredSignal (module signal : String) (line : Nat)
  /-- A name declared twice in a module. -/
  | duplicateDeclaration (module signal : String) (line : Nat)
  /-- Two modules of one name. -/
  | duplicateModule (name : String)
  /-- A signal with a second driver. -/
  | multipleDrivers (module signal : String) (line : Nat)
  /-- An input port that is driven. -/
  | drivenInput (module signal : String) (line : Nat)
  /-- An instance with wrong connections. -/
  | connection (inst detail : String) (line : Nat)
  /-- The top module that was asked for does not exist. -/
  | unknownTop (name : String)
  /-- Several modules could be the top. -/
  | ambiguousTop (candidates : List String)
  /-- There is no module at all. -/
  | noModules
  /-- A module contains an instance of itself. -/
  | recursiveInstance (name : String)
  /-- The netlist that was built is not in order. -/
  | netlist (error : NetlistError)
  /-- A mask, a shift, a difference of bit positions or a sum of widths is out of its range, and
  compilation stops without an answer. -/
  | beyondWord
deriving DecidableEq

/-- The wording of an error. -/
def SourceError.message : SourceError → String
  | lexical pos text => s!"{pos}: unexpected character sequence '{text}'"
  | grammar pos detail => s!"{pos}: {detail}"
  | unsupported pos construct => s!"{pos}: unsupported construct: {construct}"
  | undeclaredSignal module signal line =>
    s!"{line}: undeclared signal '{signal}' in module '{module}'"
  | duplicateDeclaration module signal line =>
    s!"{line}: '{signal}' is declared twice in module '{module}'"
  | duplicateModule name => s!"Module '{name}' is defined twice"
  | multipleDrivers module signal line =>
    s!"{line}: signal '{signal}' in module '{module}' has more than one driver"
  | drivenInput module signal line =>
    s!"{line}: input '{signal}' of module '{module}' cannot be driven"
  | connection inst detail line => s!"{line}: instance '{inst}': {detail}"
  | unknownTop name => s!"Top module '{name}' not found"
  | ambiguousTop candidates =>
    "Cannot infer the top module, candidates: " ++ ", ".intercalate candidates
  | noModules => "No module definition found"
  | recursiveInstance name => s!"Module '{name}' is instantiated recursively"
  | netlist error => error.message
  | beyondWord => "A mask, a shift or a sum of widths is out of range"

end GateSynth.Verilog
