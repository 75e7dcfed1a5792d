import GateSynth.Mapping.Error
import GateSynth.Netlist.Validate

/-!
# Subject graphs

Cell functions know nothing of inverted fanins, so mapping starts from a copy of the netlist in
which every inversion is a node: each signal that is read inverted gets one NOT node, and all of
its inverted readers read that node. Who reads what in this copy fixes which nodes a cell may
cover together with their reader.
-/

namespace GateSynth

/-- A netlist without inverted fanins, and the readers of its signals. -/
structure Subject where
  /-- The netlist. -/
  netlist : Netlist
  /-- The readers of its signals. -/
  fanout : Fanout

namespace Subject

/-- The signal that carries the complement of each signal that has been read inverted so far. -/
abbrev Inverters := Table String String

/-- The signal of the NOT node on a signal, with the node if it is new. -/
def inverterOf (n : Netlist) (inverters : Inverters) (signal : String) :
    Except NetlistError (Netlist × Inverters × String) :=
  match inverters.find? signal with
  | some inverter => .ok (n, inverters, inverter)
  | none => do
    let (n, inverter) := n.newSignal "inv" (n.width signal)
    let (n, _) ← n.addNode (.op .not) [.plain signal] inverter
    return (n, inverters.insert signal inverter, inverter)

/-- The fanins of a list with every inversion read from a NOT node. -/
def straighten : List Fanin → Netlist → Inverters →
    Except NetlistError (Netlist × Inverters × List Fanin)
  | [], n, inverters => .ok (n, inverters, [])
  | f :: rest, n, inverters =>
    if f.inverted then do
      let (n, inverters, inverter) ← inverterOf n inverters f.signal
      let (n, inverters, fanins) ← straighten rest n inverters
      return (n, inverters, .plain inverter :: fanins)
    else do
      let (n, inverters, fanins) ← straighten rest n inverters
      return (n, inverters, f :: fanins)

/-- Make the inversions of the nodes of a list explicit. -/
def straightenNodes : List Node → Netlist → Inverters → Except NetlistError Netlist
  | [], n, _ => .ok n
  | node :: rest, n, inverters => do
    let (n, inverters, fanins) ← straighten node.fanins n inverters
    let n ← n.replaceNode node.id node.kind fanins
    straightenNodes rest n inverters

/-- The subject graph of a valid netlist. -/
def ofNetlist (source : Netlist) : Except MapError Subject := do
  source.validate.mapError .structural
  let n ← (straightenNodes source.nodes source Table.empty).mapError .structural
  let n := n.rebuildWires
  return ⟨n, n.fanout⟩

/-- A cell may cover the driver of a signal together with its reader: there is a driver, one port
reads the signal, and it is no primary output. -/
def isAbsorbable (s : Subject) (signal : String) : Bool :=
  (s.netlist.driver? signal).isSome && (s.fanout.singleConsumer? signal).isSome

end Subject

end GateSynth
