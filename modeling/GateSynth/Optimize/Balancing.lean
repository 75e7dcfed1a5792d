import GateSynth.Netlist.Order

/-!
# Balancing trees

A tree is a group of AND, OR or XOR nodes of one kind and one width, connected by plain fanins
whose signal has no other reader and is no primary output. It computes the same value however its
leaves are bracketed, so a tree that is deeper than it needs to be is built anew: neighbouring
leaves are joined in pairs, level by level, until two are left for the root.

All trees of a pass are found with the fanout of the netlist as it was before the pass.
-/

namespace GateSynth

namespace Balancing

/-- The leaves of a tree from left to right, its nodes below the root, and its depth. -/
structure Tree where
  /-- The fanins at the rim, from left to right. -/
  leaves : List Fanin
  /-- The nodes below the root. -/
  internal : List NodeId
  /-- The number of nodes on the longest path. -/
  depth : Nat
deriving DecidableEq

/-- The least depth of a tree of two-input nodes with this many leaves. -/
def minDepth (leaves : Nat) : Nat := if leaves ≤ 1 then 0 else (leaves - 1).log2 + 1

/-- The node that a fanin of `parent` joins to the tree of `parent`. -/
def internalDriver? (n : Netlist) (fanout : Fanout) (parent : Node) (f : Fanin) : Option Node := do
  let driver ← n.driverNode? f.signal
  if !f.inverted && driver.kind == parent.kind &&
      n.width driver.output == n.width parent.output &&
      fanout.singleConsumer? f.signal == some parent.id then
    return driver
  else none

/-- The tree below a node at a depth, no more than `levels` levels deep. -/
def collectFrom (n : Netlist) (fanout : Fanout) :
    (levels : Nat) → (root : Node) → (depth : Nat) → Tree
  | 0, _, _ => ⟨[], [], 0⟩
  | levels + 1, root, depth =>
    let children := root.fanins.map fun f => (f, internalDriver? n fanout root f)
    let parts := children.map fun (f, child) =>
      match child with
      | some node => collectFrom n fanout levels node (depth + 1)
      | none => ⟨[f], [], 0⟩
    ⟨parts.flatMap Tree.leaves,
      (children.filterMap Prod.snd).reverse.map Node.id ++ parts.flatMap Tree.internal,
      parts.foldl (fun deepest part => max deepest part.depth) depth⟩

/-- The tree of a root; without a node there is none. -/
def collectTree (n : Netlist) (fanout : Fanout) (root : NodeId) : Tree :=
  match n.node? root with
  | some node => collectFrom n fanout (n.nodeCount + 1) node 1
  | none => ⟨[], [], 0⟩

/-- Is the node part of a tree above it? -/
def isAbsorbed (n : Netlist) (fanout : Fanout) (node : Node) : Bool :=
  match (fanout.singleConsumer? node.output).bind n.node? with
  | some consumer =>
    consumer.fanins.any fun f =>
      f.signal == node.output &&
        (internalDriver? n fanout consumer f).map Node.id == some node.id
  | none => false

/-- Join neighbours in pairs with new nodes of a kind and width; a last one without a neighbour
stays as it is. -/
def joinPairs (kind : Kind) (w : Width) :
    List Fanin → Netlist → Except NetlistError (Netlist × List Fanin)
  | left :: right :: rest, n => do
    let (n, signal) := n.newSignal "bal" w
    let (n, _) ← n.addNode kind [left, right] signal
    let (n, joined) ← joinPairs kind w rest n
    return (n, .plain signal :: joined)
  | rest, n => .ok (n, rest)

/-- Join pairs until no more than two fanins are left, in at most `rounds` rounds. -/
def joinLevels (kind : Kind) (w : Width) :
    (rounds : Nat) → List Fanin → Netlist → Except NetlistError (Netlist × List Fanin)
  | 0, level, n => .ok (n, level)
  | rounds + 1, level, n =>
    if level.length ≤ 2 then .ok (n, level)
    else do
      let (n, level) ← joinPairs kind w level n
      joinLevels kind w rounds level n

/-- Take out the nodes of a list and the widths of their signals. -/
def dropNodes : List NodeId → Netlist → Netlist
  | [], n => n
  | id :: rest, n =>
    match n.node? id with
    | some node => dropNodes rest ((n.eraseNode id).retireSignal node.output)
    | none => dropNodes rest n

/-- Build a tree anew below its root. -/
def rebuild (n : Netlist) (root : Node) (tree : Tree) : Except NetlistError Netlist := do
  let w := n.width root.output
  let (n, level) ← joinLevels root.kind w tree.leaves.length tree.leaves n
  let n ← n.replaceNode root.id root.kind level
  return dropNodes tree.internal n

/-- Build the trees of a list of roots anew where they are too deep. -/
def balanceRoots (fanout : Fanout) :
    List NodeId → Netlist → (rebuilt : Nat) → Netlist × Except NetlistError Nat
  | [], n, rebuilt => (n, .ok rebuilt)
  | id :: rest, n, rebuilt =>
    match n.node? id with
    | none => balanceRoots fanout rest n rebuilt
    | some root =>
      if root.kind.isAssociative && !isAbsorbed n fanout root then
        let tree := collectTree n fanout id
        if tree.depth ≤ minDepth tree.leaves.length then balanceRoots fanout rest n rebuilt
        else
          match rebuild n root tree with
          | .ok n => balanceRoots fanout rest n (rebuilt + 1)
          | .error e => (n, .error e)
      else balanceRoots fanout rest n rebuilt

end Balancing

/-- Give every tree of associative nodes its least depth; the count is that of the trees that were
built anew. -/
def Netlist.balanceTrees (n : Netlist) : Netlist × Except NetlistError Nat :=
  match n.topoOrder with
  | .ok order => Balancing.balanceRoots n.fanout order n 0
  | .error e => (n, .error e)

end GateSynth
