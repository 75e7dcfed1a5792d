import GateSynth.Netlist.Basic
import GateSynth.Total

/-!
# Live nodes

A node is live if a primary output depends on it. `Netlist.liveNodes` walks from the drivers of
the outputs to the drivers of their fanins, and `Netlist.dropDead` takes out all other nodes.
-/

namespace GateSynth

namespace Liveness

/-- The nodes of `seen` and those that are reached from a worklist through drivers, in at most
`steps` steps. -/
def reach (n : Netlist) : (steps : Nat) → (work seen : List NodeId) → List NodeId
  | 0, _, seen => seen
  | _ + 1, [], seen => seen
  | steps + 1, id :: work, seen =>
    if id ∈ seen then reach n steps work seen
    else
      let drivers := match n.node? id with
        | some node => node.faninSignals.filterMap n.driver?
        | none => []
      reach n steps (drivers ++ work) (seen ++ [id])

/-- The number of fanins of all nodes. -/
def faninCount (n : Netlist) : Nat := total (n.nodes.map fun node => node.fanins.length)

end Liveness

/-- The nodes that a primary output depends on, in the order of their identifiers. Every fanin
puts a node on the worklist at most once, which bounds the steps. -/
def Netlist.liveNodes (n : Netlist) : List NodeId :=
  let roots := n.outputs.filterMap n.driver?
  let reached := Liveness.reach n (roots.length + Liveness.faninCount n + 1) roots []
  n.nodeIds.filter fun id => id ∈ reached

namespace Liveness

/-- Take out the nodes of a list that are not live, and the widths of their signals. -/
def dropFrom (live : List NodeId) : List Node → Netlist → Netlist
  | [], n => n
  | node :: rest, n =>
    if node.id ∈ live then dropFrom live rest n
    else dropFrom live rest ((n.eraseNode node.id).retireSignal node.output)

end Liveness

/-- Take out the nodes that no primary output depends on; the count is that of these nodes. The
wires are stored anew if there are any. -/
def Netlist.dropDead (n : Netlist) : Netlist × Nat :=
  let live := n.liveNodes
  let dropped := Liveness.dropFrom live n.nodes n
  let removed := n.nodeCount - dropped.nodeCount
  (if removed = 0 then dropped else dropped.rebuildWires, removed)

end GateSynth
