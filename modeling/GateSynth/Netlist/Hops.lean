import GateSynth.Netlist.Basic
import Mathlib.Computability.StateTransition

/-!
# Substitutions hop by hop

The loops that follow a substitution, as they run. `Substitution.chase` hops for as long as there
is something to hop to; on a loop of the substitution it does not end. `Substitution.chaseCounted`
counts its hops and breaks off once there were more of them than the substitution has entries.
`Netlist.redirectHopping` runs the latter on every fanin of a netlist, one after the other, and
counts those with a hop. A run that does not end has no value.
-/

namespace GateSynth

namespace Substitution

/-- What is read in place of a fanin whose signal is substituted; inversions compose. -/
def hop? (sub : Substitution) (f : Fanin) : Option Fanin :=
  (sub.find? f.signal).map fun target => ⟨target.signal, f.inverted ^^ target.inverted⟩

/-- Hop until the signal is not substituted. -/
def chase (sub : Substitution) : Fanin → Part Fanin := StateTransition.eval sub.hop?

/-- A hop with the number of hops so far; there is none after more hops than there are entries. -/
def hopCounted? (sub : Substitution) : Fanin × Nat → Option (Fanin × Nat)
  | (f, hops) => if hops > sub.size then none else (sub.hop? f).map (·, hops + 1)

/-- Hop until the signal is not substituted, or there were more hops than entries, and count. -/
def chaseCounted (sub : Substitution) (f : Fanin) : Part (Fanin × Nat) :=
  StateTransition.eval sub.hopCounted? (f, 0)

/-- Redirect the fanins of a list, and count those with a hop. -/
def redirectFanins (sub : Substitution) : List Fanin → (count : Nat) → Part (List Fanin × Nat)
  | [], count => Part.some ([], count)
  | f :: rest, count => do
    let (g, hops) ← sub.chaseCounted f
    let (rest, count) ← redirectFanins sub rest (if hops > 0 then count + 1 else count)
    return (g :: rest, count)

/-- Redirect the fanins of the nodes of an arena. -/
def redirectSlots (sub : Substitution) :
    List (Option Node) → (count : Nat) → Part (List (Option Node) × Nat)
  | [], count => Part.some ([], count)
  | none :: rest, count => do
    let (rest, count) ← redirectSlots sub rest count
    return (none :: rest, count)
  | some node :: rest, count => do
    let (fanins, count) ← sub.redirectFanins node.fanins count
    let (rest, count) ← redirectSlots sub rest count
    return (some { node with fanins } :: rest, count)

end Substitution

/-- Redirect every fanin of a netlist hop by hop; without entries there is nothing to do. -/
def Netlist.redirectHopping (n : Netlist) (sub : Substitution) : Part (Netlist × Nat) :=
  if sub.size = 0 then Part.some (n, 0)
  else do
    let (arena, count) ← sub.redirectSlots n.arena 0
    return ({ n with arena }, count)

end GateSynth
