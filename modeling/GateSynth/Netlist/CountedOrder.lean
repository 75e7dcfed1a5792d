import GateSynth.Netlist.Order

/-!
# Ordering by counts

The topological order without a search through the nodes that are left. Each node has a count of its
ports that wait, and for each driver the nodes that read it are noted at the start, once for each
port. When a node is placed, every port that reads it takes one off the count of its node, and a node
whose count comes down to zero is queued. The queue gives out the lowest identifier first.
-/

namespace GateSynth

namespace Netlist

/-- The lowest identifier of a list. -/
def lowest? : List NodeId → Option NodeId
  | [] => none
  | id :: rest =>
    match lowest? rest with
    | none => some id
    | some low => if id.index ≤ low.index then some id else some low

/-! ## Counting -/

/-- The ports of the nodes, counted. -/
structure Tally where
  /-- The number of ports of a node that read what some node drives. -/
  pending : Table NodeId Nat
  /-- The nodes that read what a node drives, once for each port. -/
  readers : Table NodeId (List NodeId)

/-- The readers of a node. -/
def readersOf (readers : Table NodeId (List NodeId)) (id : NodeId) : List NodeId :=
  (readers.find? id).getD []

/-- Note that a port of a node reads a signal, and count it if the signal has a driver. -/
def tallyPort (n : Netlist) (reader : NodeId) (noted : Table NodeId (List NodeId) × Nat)
    (signal : String) : Table NodeId (List NodeId) × Nat :=
  match n.driver? signal with
  | some driver =>
    (noted.1.insert driver (readersOf noted.1 driver ++ [reader]), noted.2 + 1)
  | none => noted

/-- Count the ports of one more node. -/
def tallyNode (n : Netlist) (t : Tally) (node : Node) : Tally :=
  let (readers, count) := node.faninSignals.foldl (n.tallyPort node.id) (t.readers, 0)
  ⟨t.pending.insert node.id count, readers⟩

/-- Count the ports of all nodes. -/
def tally (n : Netlist) : Tally := n.nodes.foldl n.tallyNode ⟨Table.empty, Table.empty⟩

/-! ## Placing by counts -/

/-- The counts as they are, and the nodes that can be placed. -/
structure Queue where
  /-- The number of ports of a node that wait. -/
  pending : Table NodeId Nat
  /-- The nodes that do not wait, in no particular order. -/
  ready : List NodeId

/-- A port of this node need not wait any longer. -/
def Queue.settle (q : Queue) (reader : NodeId) : Queue :=
  match q.pending.find? reader with
  | some count =>
    ⟨q.pending.insert reader (count - 1),
      if count - 1 = 0 then reader :: q.ready else q.ready⟩
  | none => q

/-- Take a node out of the queue and settle the ports that read what it drives. -/
def Queue.place (readers : Table NodeId (List NodeId)) (q : Queue) (id : NodeId) : Queue :=
  (readersOf readers id).foldl Queue.settle ⟨q.pending, q.ready.erase id⟩

/-- Place at most `steps` nodes, each time the lowest of the queue. -/
def drain (readers : Table NodeId (List NodeId)) : (steps : Nat) → Queue → List NodeId × Queue
  | 0, q => ([], q)
  | steps + 1, q =>
    match lowest? q.ready with
    | none => ([], q)
    | some id =>
      let (order, last) := drain readers steps (q.place readers id)
      (id :: order, last)

/-- The nodes under which the counts satisfy a test. -/
def countedAs (pending : Table NodeId Nat) (test : Nat → Bool) : List NodeId :=
  (pending.entries.filter fun e => test e.2).map Prod.fst

/-- The nodes with every driver before its readers, found by counting. If some are missing in the
end, the lowest of those that still wait is reported. -/
def countedOrder (n : Netlist) : Except NetlistError (List NodeId) :=
  let t := n.tally
  let (order, last) := drain t.readers t.pending.size ⟨t.pending, countedAs t.pending (· == 0)⟩
  if order.length = last.pending.size then
    .ok order
  else
    match lowest? (countedAs last.pending (0 < ·)) with
    | some stuck => .error (.cycle stuck (((n.node? stuck).map Node.output).getD ""))
    | none => .error (.inconsistentWires "topological sort lost nodes")

end Netlist

end GateSynth
