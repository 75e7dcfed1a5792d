import GateSynth.Netlist.Basic

/-!
# Operations as data

What can be asked of a netlist while it is built or rewritten, one `Operation` each, and what is
answered. `Operation.performAll` performs a list of operations on any kind of container, refused
ones included; `Netlist.perform` is one operation on a netlist.
-/

namespace GateSynth

/-- A request to change a netlist. -/
inductive Operation where
  /-- Declare a primary input. -/
  | addInput (name : String) (bits : Nat)
  /-- Declare a primary output. -/
  | addOutput (name : String) (bits : Nat)
  /-- Record the width of a signal. -/
  | declareWidth (signal : String) (bits : Nat)
  /-- Add a node. -/
  | addNode (kind : Kind) (fanins : List Fanin) (output : String)
  /-- Give a node another kind and other fanins. -/
  | replaceNode (id : NodeId) (kind : Kind) (fanins : List Fanin)
  /-- Take a node out. -/
  | removeNode (id : NodeId)
  /-- Read every fanin through a substitution. -/
  | redirect (sub : Substitution)
  /-- Drop the width of a signal that is not in use. -/
  | retireSignal (signal : String)
  /-- Make a new signal. -/
  | freshSignal (stem : String) (bits : Nat)
  /-- Store the wires of the fanins. -/
  | rebuildWires

/-- What an operation gives back. -/
inductive Answer where
  /-- Nothing but that it is done. -/
  | done
  /-- The identifier of the new node. -/
  | added (id : NodeId)
  /-- The node that was taken out, if there was one. -/
  | removed (node : Option Node)
  /-- The number of fanins that read another signal now. -/
  | redirected (count : Nat)
  /-- The name of the new signal. -/
  | named (name : String)
deriving DecidableEq

/-- The identifier that an answer gives a new node. -/
def Answer.newId? : Except NetlistError Answer → Option NodeId
  | .ok (added id) => some id
  | _ => none

/-- The identifiers of new nodes among the answers, in order. -/
def issued (answers : List (Except NetlistError Answer)) : List NodeId :=
  answers.filterMap Answer.newId?

namespace Operation

variable {σ : Type}

/-- Perform operations one after the other, whatever is answered. -/
def performAll (perform : Operation → σ → σ × Except NetlistError Answer) :
    List Operation → σ → σ × List (Except NetlistError Answer)
  | [], s => (s, [])
  | op :: rest, s =>
    let (s, answer) := perform op s
    let (s, answers) := performAll perform rest s
    (s, answer :: answers)

end Operation

namespace Netlist

/-- The netlist without the node at a place, and that node. -/
def takeNode (n : Netlist) (id : NodeId) : Netlist × Option Node :=
  match n.node? id with
  | some node => (n.eraseNode id, some node)
  | none => (n, none)

/-- The netlist after a change that may have been refused, with the answer to it. -/
def settle (n : Netlist) (answer : Answer) :
    Except NetlistError Netlist → Netlist × Except NetlistError Answer
  | .ok n' => (n', .ok answer)
  | .error e => (n, .error e)

/-- Perform one operation. -/
def perform : Operation → Netlist → Netlist × Except NetlistError Answer
  | .addInput name bits, n => n.settle .done (n.addInput name bits)
  | .addOutput name bits, n => n.settle .done (n.addOutput name bits)
  | .declareWidth signal bits, n => n.settle .done (n.declareWidth signal bits)
  | .addNode kind fanins output, n =>
    match n.addNode kind fanins output with
    | .ok (n', id) => (n', .ok (.added id))
    | .error e => (n, .error e)
  | .replaceNode id kind fanins, n => n.settle .done (n.replaceNode id kind fanins)
  | .removeNode id, n =>
    let (n, node) := n.takeNode id
    (n, .ok (.removed node))
  | .redirect sub, n =>
    let (n, count) := n.redirect sub
    (n, .ok (.redirected count))
  | .retireSignal signal, n => (n.retireSignal signal, .ok .done)
  | .freshSignal stem bits, n =>
    let (n, name) := n.freshSignal stem bits
    (n, name.map .named)
  | .rebuildWires, n => (n.rebuildWires, .ok .done)

end Netlist

end GateSynth
