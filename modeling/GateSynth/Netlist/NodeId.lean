import GateSynth.Text.Numeral

/-!
# Node identifiers

A node is known by its place in the arena of its netlist. The text of an identifier is the
letter `n` with the place in decimal; `ofText?` reads it back, also with leading zeros or a plus
sign, as long as the place fits 32 bits.
-/

namespace GateSynth

/-- The identifier of a node: its place in the arena. -/
structure NodeId where
  /-- The place in the arena. -/
  index : Nat
deriving DecidableEq

namespace NodeId

instance : Inhabited NodeId := ⟨⟨0⟩⟩

/-- The written form, such as `n17`. -/
def text (id : NodeId) : String := "n" ++ toString id.index

instance : ToString NodeId := ⟨text⟩

/-- The identifier that a text writes. -/
def ofText? (text : String) : Option NodeId :=
  match text.toList with
  | 'n' :: digits => (Numeral.unsigned? UInt32.size digits).map NodeId.mk
  | _ => none

end NodeId

end GateSynth
