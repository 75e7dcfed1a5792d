import GateSynth.Netlist.Basic

/-!
# Passes and their outcomes

The four passes by name, what a pass reports when it is done, and the ways in which one fails: the
netlist is not in order, or, where that is asked for, a division by a constant zero.
-/

namespace GateSynth

/-- The optimization passes. -/
inductive Pass where
  /-- Nodes that compute the same are merged. -/
  | strash
  /-- Constants are folded into the nodes that read them. -/
  | constprop
  /-- Nodes that no output depends on are dropped. -/
  | dce
  /-- Trees of associative gates are made as flat as they can be. -/
  | balance
deriving DecidableEq, Inhabited

namespace Pass

/-- Every pass, in the order in which they run by default. -/
def all : List Pass := [strash, constprop, dce, balance]

/-- The name of a pass in reports and settings. -/
def name : Pass → String
  | strash => "strash"
  | constprop => "constprop"
  | dce => "dce"
  | balance => "balance"

/-- The pass of a name. -/
def ofName? (name : String) : Option Pass := all.find? fun pass => pass.name = name

end Pass

/-- A division by a constant zero, which cannot be folded. -/
structure FoldError where
  /-- The node that divides. -/
  node : NodeId
  /-- Its tag. -/
  op : String
  /-- The operands that are constant. -/
  operands : List (Option Word)
deriving DecidableEq, Inhabited

/-- The wording of a division that cannot be folded. -/
def FoldError.message (e : FoldError) : String :=
  let known : Option Word → String := fun
    | some value => toString value.toNat
    | none => "?"
  let operands := ", ".intercalate (e.operands.map known)
  s!"Cannot fold {e.op} at node {e.node} with operands [{operands}]: division by zero"

/-- Why a pass fails. -/
inductive OptError where
  /-- The netlist is not in order, before the pass or after it. -/
  | structural (pass : Pass) (source : NetlistError)
  /-- A division by a constant zero, where these are errors. -/
  | fold (error : FoldError)
deriving DecidableEq, Inhabited

/-- The wording of an error. -/
def OptError.message : OptError → String
  | structural pass source =>
    "Pass '" ++ pass.name ++ "' hit a structural error: " ++ source.message
  | fold error => error.message

/-- What a pass did. -/
structure PassOutcome where
  /-- The number of changes. -/
  changes : Nat
  /-- The divisions by a constant zero that were left alone. -/
  foldErrors : List FoldError
deriving DecidableEq

/-- The outcome of a pass that folds nothing. -/
def PassOutcome.changed (changes : Nat) : PassOutcome := ⟨changes, []⟩

end GateSynth
