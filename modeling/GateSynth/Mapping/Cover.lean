import GateSynth.Mapping.Selection
import GateSynth.Total

/-!
# Covers

`Selection.extract` builds the mapped netlist: starting from the primary outputs it follows the
chosen matches to their leaves, and every signal that is met gets one instance. The first node met
that cannot be covered stops it.
-/

namespace GateSynth.Selection

variable {ν : Type}

/-- The error of a node that is needed and cannot be covered. -/
def unmappable (sel : Selection ν) (n : Netlist) (id : NodeId) : MapError :=
  let culprit := sel.blocker id
  match n.node? culprit with
  | some node => .unmappable culprit node.kind.text node.output
  | none => .structural (.unknownNode culprit)

/-- The nodes of `seen` and those that the signals of a worklist need, the last signal of the
worklist first, in at most `steps` steps. -/
def need (sel : Selection ν) (n : Netlist) :
    (steps : Nat) → (work : List String) → (seen : List NodeId) → Except MapError (List NodeId)
  | 0, _, seen => .ok seen
  | _ + 1, [], seen => .ok seen
  | steps + 1, signal :: work, seen =>
    match n.driver? signal with
    | none => need sel n steps work seen
    | some id =>
      if id ∈ seen then need sel n steps work seen
      else
        match sel.chosen? id with
        | none => .error (sel.unmappable n id)
        | some m => need sel n steps (m.leaves.reverse ++ work) (seen ++ [id])

/-- The number of leaves of all chosen matches. -/
def leafCount (sel : Selection ν) : Nat :=
  total (sel.best.values.map fun choice => choice.candidate.leaves.length)

/-- The nodes that the primary outputs need. Every chosen match puts its leaves on the worklist
at most once, which bounds the steps. -/
def required (sel : Selection ν) (n : Netlist) : Except MapError (List NodeId) :=
  sel.need n (n.outputs.length + sel.leafCount + 1) n.outputs.reverse []

/-- Give the mapped netlist the instances for nodes of a list, as far as they are required. -/
def addInstances (sel : Selection ν) (source : Netlist) (needed : List NodeId) :
    List NodeId → Netlist → Except NetlistError Netlist
  | [], mapped => .ok mapped
  | id :: rest, mapped =>
    if id ∈ needed then
      match source.node? id, sel.chosen? id with
      | some node, some m => do
        let mapped := mapped.setWidth node.output (source.width node.output)
        let (mapped, _) ← mapped.addNode m.kind (m.leaves.map Fanin.plain) node.output
        addInstances sel source needed rest mapped
      | _, _ => addInstances sel source needed rest mapped
    else addInstances sel source needed rest mapped

/-- Declare the ports of a list. -/
def addPorts (source : Netlist)
    (add : Netlist → String → Nat → Except NetlistError Netlist) :
    List String → Netlist → Except NetlistError Netlist
  | [], mapped => .ok mapped
  | name :: rest, mapped => do
    let mapped ← add mapped name (source.width name).bits
    addPorts source add rest mapped

/-- The netlist of the required instances, in the order of the nodes they stand for. -/
def assemble (sel : Selection ν) (source : Netlist) (needed : List NodeId) :
    Except NetlistError Netlist := do
  let mapped ← addPorts source Netlist.addInput source.inputs (Netlist.empty source.name)
  let mapped ← addPorts source Netlist.addOutput source.outputs mapped
  let order ← source.topoOrder
  let mapped ← sel.addInstances source needed order mapped
  let mapped := mapped.rebuildWires
  mapped.validate
  return mapped

/-- The mapped netlist. -/
def extract (sel : Selection ν) (s : Subject) : Except MapError Netlist := do
  let needed ← sel.required s.netlist
  (sel.assemble s.netlist needed).mapError .structural

end GateSynth.Selection
