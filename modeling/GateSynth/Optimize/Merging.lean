import GateSynth.Netlist.Order

/-!
# Merging equal nodes

Two nodes with the same kind, the same fanins and the same output width compute the same value,
so one of them can stand for both. `Netlist.mergeEqual` sweeps over the nodes, drivers first, and
merges each node with an earlier one of the same signature; it sweeps until nothing is merged.

Primary outputs keep their names: where one of the two nodes drives an output, that node stays,
and where both do, the later one becomes a buffer of the earlier. Such a buffer between two
outputs is left alone from then on, and so are instances of undefined modules.

A sweep knows the nodes that stand for others by their identifiers; it fails if one of them is not
there any more or if a buffer cannot be put in place.
-/

namespace GateSynth

namespace Merging

/-- What a node computes, of which signals, at which width. -/
structure Signature where
  /-- The kind of the node. -/
  kind : Kind
  /-- The fanins, in order where the kind does not mind. -/
  fanins : List Fanin
  /-- The width of the output. -/
  width : Width
deriving DecidableEq

/-- The signature of a node that reads these fanins. -/
def Signature.of (kind : Kind) (fanins : List Fanin) (width : Width) : Signature :=
  ⟨kind, if kind.isCommutative then fanins.mergeSort Fanin.le else fanins, width⟩

/-- Is the node a buffer from one primary output to another? -/
def isPortBuffer (n : Netlist) (node : Node) : Bool :=
  node.kind == .op .buf && n.isOutput node.output &&
    match node.fanins with
    | [f] => !f.inverted && n.isOutput f.signal
    | _ => false

/-- May the node be merged? -/
def isMergeable (n : Netlist) (node : Node) : Bool :=
  match node.kind with
  | .module _ => false
  | _ => !isPortBuffer n node

/-- The end of the chain that a substitution gives a fanin. -/
def resolve (sub : Substitution) (f : Fanin) : Fanin := Netlist.follow sub sub.size f

/-- A sweep under way. -/
structure Sweep where
  /-- The netlist so far. -/
  netlist : Netlist
  /-- The identifier of the node that stands for each signature. -/
  representatives : Table Signature NodeId
  /-- The signals of merged nodes and what to read instead. -/
  substitution : Substitution
  /-- The number of merged nodes. -/
  merged : Nat

/-- The sweep of a netlist before its first visit. -/
def Sweep.start (n : Netlist) : Sweep := ⟨n, Table.empty, Table.empty, 0⟩

/-- Take a node out together with the width of its signal. -/
def dropNode (n : Netlist) (id : NodeId) (signal : String) : Netlist :=
  (n.eraseNode id).retireSignal signal

/-- Merge a node with the one that stands for its signature. -/
def Sweep.merge (s : Sweep) (signature : Signature) (rep : NodeId) (id : NodeId) (node : Node) :
    Except NetlistError Sweep :=
  match (s.netlist.node? rep).map Node.output with
  | none => .error (.unknownNode rep)
  | some kept =>
    if !s.netlist.isOutput node.output then
      .ok { s with
        netlist := dropNode s.netlist id node.output
        substitution := s.substitution.insert node.output (.plain kept)
        merged := s.merged + 1 }
    else if !s.netlist.isOutput kept then
      .ok { s with
        netlist := dropNode s.netlist rep kept
        representatives := s.representatives.insert signature id
        substitution := s.substitution.insert kept (.plain node.output)
        merged := s.merged + 1 }
    else
      match s.netlist.replaceNode id (.op .buf) [.plain kept] with
      | .error e => .error e
      | .ok netlist => .ok { s with netlist, merged := s.merged + 1 }

/-- Visit one node. -/
def Sweep.visit (s : Sweep) (id : NodeId) : Except NetlistError Sweep :=
  match s.netlist.node? id with
  | none => .ok s
  | some node =>
    if isMergeable s.netlist node then
      let fanins := node.fanins.map (resolve s.substitution)
      let signature := Signature.of node.kind fanins (s.netlist.width node.output)
      match s.representatives.find? signature with
      | some rep => s.merge signature rep id node
      | none => .ok { s with representatives := s.representatives.insert signature id }
    else .ok s

/-- Visit nodes in order until a visit fails. -/
def Sweep.visitAll : List NodeId → Sweep → Sweep × Option NetlistError
  | [], s => (s, none)
  | id :: rest, s =>
    match s.visit id with
    | .ok s => visitAll rest s
    | .error e => (s, some e)

/-- Visit all nodes, drivers first, and read every fanin through what was merged. If a visit fails,
the netlist is what the visits before have left. -/
def sweep (n : Netlist) : Netlist × Except NetlistError Nat :=
  match n.topoOrder with
  | .error e => (n, .error e)
  | .ok order =>
    match Sweep.visitAll order (.start n) with
    | (s, some e) => (s.netlist, .error e)
    | (s, none) => ((s.netlist.redirect s.substitution).1, .ok s.merged)

end Merging

/-- Sweep until nothing is merged. -/
def Netlist.mergeSweeps (n : Netlist) (total : Nat) : Netlist × Except NetlistError Nat :=
  match Merging.sweep n with
  | (n, .error e) => (n, .error e)
  | (n, .ok merged) => if merged = 0 then (n, .ok total) else n |>.mergeSweeps (total + merged)
partial_fixpoint

/-- Merge nodes that compute the same, until there is nothing left to merge. If a sweep fails, the
netlist is what has been done until then. -/
def Netlist.mergeEqual (n : Netlist) : Netlist × Except NetlistError Nat := n.mergeSweeps 0

end GateSynth
