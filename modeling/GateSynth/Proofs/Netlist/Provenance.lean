import GateSynth.Netlist.Operation
import GateSynth.Proofs.Exchange.Importing
import Mathlib.Logic.Relation

/-!
# Where netlists come from

A netlist that can be built can be built on by any operation (`Built.perform`), whether it is granted
or refused, and so every history of operations ends in one (`Built.performAll`). `Operated` says that
there is such a history between two netlists.
-/

namespace GateSynth.Netlist

variable {n : Netlist}

theorem Built.settle (h : n.Built) {answer : Answer} {r : Except NetlistError Netlist}
    (hr : ∀ n', r = .ok n' → n'.Built) : (n.settle answer r).1.Built := by
  cases r with
  | ok n' => exact hr n' rfl
  | error e => exact h

theorem Built.perform (h : n.Built) (op : Operation) : (n.perform op).1.Built := by
  cases op with
  | addInput name bits => exact h.settle fun _ hn' => h.addInput hn'
  | addOutput name bits => exact h.settle fun _ hn' => h.addOutput hn'
  | declareWidth signal bits => exact h.settle fun _ hn' => h.declareWidth hn'
  | addNode kind fanins output =>
    rw [Netlist.perform]
    split
    · next hn' => exact h.addNode hn'
    · exact h
  | replaceNode id kind fanins => exact h.settle fun _ hn' => h.replaceNode hn'
  | removeNode id =>
    show (n.takeNode id).1.Built
    rw [takeNode]
    split
    · exact h.eraseNode id
    · exact h
  | redirect sub => exact h.redirect sub
  | retireSignal signal => exact h.retireSignal signal
  | freshSignal stem bits => exact h.freshSignal stem bits
  | rebuildWires => exact h.rebuildWires

/-- By induction on the operations. -/
theorem Built.performAll (h : n.Built) (ops : List Operation) :
    (Operation.performAll Netlist.perform ops n).1.Built := by
  induction ops generalizing n with
  | nil => exact h
  | cons op rest ih => exact ih (h.perform op)

/-- Operations lead from the first netlist to the second. -/
def Operated : Netlist → Netlist → Prop :=
  Relation.ReflTransGen fun n n' => ∃ op, (n.perform op).1 = n'

theorem Operated.single {n' : Netlist} (op : Operation) (h : (n.perform op).1 = n') :
    n.Operated n' :=
  Relation.ReflTransGen.single ⟨op, h⟩

theorem Built.operated {n' : Netlist} (h : n.Built) (hn' : n.Operated n') : n'.Built := by
  induction hn' with
  | refl => exact h
  | tail _ hstep ih =>
    obtain ⟨op, rfl⟩ := hstep
    exact ih.perform op

end GateSynth.Netlist
