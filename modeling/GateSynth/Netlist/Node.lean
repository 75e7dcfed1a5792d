import GateSynth.Netlist.NodeId
import GateSynth.Netlist.Kind

/-!
# Nodes, fanins and wires

A node reads signals through its fanins, each plain or inverted, and drives one signal. A wire
is the same connection seen from the signal: its source and the port it ends in.
-/

namespace GateSynth

/-- One input of a node: a signal, read as it is or complemented. -/
structure Fanin where
  /-- The signal that is read. -/
  signal : String
  /-- The input sees the bitwise complement of the signal. -/
  inverted : Bool := false
deriving DecidableEq

namespace Fanin

instance : Inhabited Fanin := ⟨⟨"", false⟩⟩

/-- A plain reading of a signal. -/
def plain (signal : String) : Fanin := ⟨signal, false⟩

/-- The same signal, complemented once more. -/
def negate (f : Fanin) : Fanin := ⟨f.signal, !f.inverted⟩

/-- The written form: the signal, with a tilde in front when it is complemented. -/
def text (f : Fanin) : String := if f.inverted then "~" ++ f.signal else f.signal

/-- The fanin that a written form denotes. -/
def ofText (text : String) : Fanin :=
  match text.toList with
  | '~' :: signal => ⟨String.ofList signal, true⟩
  | _ => ⟨text, false⟩

/-- Fanins in the order of their signals, the plain one first. -/
def le (a b : Fanin) : Bool :=
  decide (a.signal < b.signal) || (a.signal == b.signal && (!a.inverted || b.inverted))

@[simp] theorem negate_negate (f : Fanin) : f.negate.negate = f := by
  simp [negate]

end Fanin

/-- A unit of computation that drives one signal. -/
structure Node where
  /-- The place in the arena. -/
  id : NodeId
  /-- What the node computes. -/
  kind : Kind
  /-- The inputs in port order. -/
  fanins : List Fanin
  /-- The signal that the node drives. -/
  output : String
deriving DecidableEq

namespace Node

instance : Inhabited Node := ⟨⟨default, default, [], ""⟩⟩

/-- The signals that a node reads, in port order. -/
def faninSignals (node : Node) : List String := node.fanins.map Fanin.signal

/-- The written form, such as `n3: y = AND(a, ~b)`. -/
def text (node : Node) : String :=
  let head := node.id.text ++ ": " ++ node.output ++ " = " ++ node.kind.text
  if node.fanins.isEmpty then head
  else head ++ "(" ++ ", ".intercalate (node.fanins.map Fanin.text) ++ ")"

end Node

/-- A signal bound to an input port of a node. -/
structure Wire where
  /-- The signal that the wire carries. -/
  source : String
  /-- The node that reads it. -/
  node : NodeId
  /-- The input port of the node. -/
  port : Nat
deriving DecidableEq

namespace Wire

instance : Inhabited Wire := ⟨⟨"", default, 0⟩⟩

/-- The written form, such as `a -> n0.1`. -/
def text (w : Wire) : String :=
  w.source ++ " -> " ++ w.node.text ++ "." ++ toString w.port

/-- Wires in the order of their source, then node, then port. -/
def le (a b : Wire) : Bool :=
  decide (a.source < b.source) || (a.source == b.source &&
    (a.node.index < b.node.index || (a.node.index == b.node.index && a.port ≤ b.port)))

end Wire

end GateSynth
