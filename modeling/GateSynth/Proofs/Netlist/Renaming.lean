import GateSynth.Proofs.Simulation.Reproduction
import Mathlib.Data.Set.Function

/-!
# Netlists under other identifiers

The identifiers of nodes are names: they decide where a node stands and nothing else. A netlist
whose nodes were given other identifiers, no two of them the same, has the same loops, is ordered
the same way (`Renamed.topoOrder`), and evaluates to the same values (`Renamed.reproduces`). This
holds of any netlist that is coherent, also where it reads signals that nothing defines.
-/

namespace GateSynth

/-- The wire with another name for its node. -/
def Wire.rename (ρ : NodeId → NodeId) (w : Wire) : Wire := { w with node := ρ w.node }

/-- The node under another name. -/
def Node.rename (ρ : NodeId → NodeId) (node : Node) : Node := { node with id := ρ node.id }

namespace Netlist

theorem nodeWires_rename (ρ : NodeId → NodeId) (node : Node) :
    nodeWires (node.rename ρ) = (nodeWires node).map (Wire.rename ρ) := by
  refine List.mapIdx_eq_iff.2 fun port => ?_
  simp [nodeWires, Node.rename]
  rfl

/-- The second netlist is the first one with other names for the nodes. -/
structure Renamed (ρ : NodeId → NodeId) (n n' : Netlist) : Prop where
  /-- Two nodes keep two names. -/
  injOn : Set.InjOn ρ {id | id ∈ n.nodeIds}
  inputs : n'.inputs = n.inputs
  outputs : n'.outputs = n.outputs
  widths : n'.widths = n.widths
  nodes : n'.nodes = n.nodes.map (Node.rename ρ)

/-! ## The order of the nodes -/

/-- The same waiting under other names. -/
def Waiting.rename (ρ : NodeId → NodeId) (w : Waiting) : Waiting := ⟨ρ w.id, w.drivers.map ρ⟩

/-- The names under which nodes wait or are waited for. -/
def Waiting.ids (w : Waiting) : List NodeId := w.id :: w.drivers

section Placing
variable {ρ : NodeId → NodeId} {s : Set NodeId} {left : List Waiting}

theorem ids_release {id : NodeId} (h : ∀ w ∈ left, ∀ d ∈ w.ids, d ∈ s) :
    ∀ w ∈ release id left, ∀ d ∈ w.ids, d ∈ s := by
  intro w hw d hd
  obtain ⟨v, hv, hid, -, hdrivers⟩ := of_mem_release hw
  rcases List.mem_cons.1 hd with rfl | hd
  · exact h v hv _ (List.mem_cons.2 (.inl hid.symm))
  · rw [hdrivers] at hd
    exact h v hv d (.tail _ (List.mem_filter.1 hd).1)

/-- Placing a node under another name releases the same nodes. -/
theorem release_rename (hρ : Set.InjOn ρ s) {id : NodeId} (hid : id ∈ s)
    (h : ∀ w ∈ left, ∀ d ∈ w.ids, d ∈ s) :
    release (ρ id) (left.map (Waiting.rename ρ)) = (release id left).map (Waiting.rename ρ) := by
  have hsame : ∀ d ∈ s, (ρ d = ρ id ↔ d = id) := fun d hd => hρ.eq_iff hd hid
  have hdrivers : ∀ w ∈ left, (w.drivers.map ρ).filter (· ≠ ρ id) =
      (w.drivers.filter (· ≠ id)).map ρ := by
    intro w hw
    rw [List.filter_map]
    refine congrArg _ (List.filter_congr fun d hd => ?_)
    simpa using hsame d (h w hw d (.tail _ hd))
  simp only [release, List.filter_map, List.map_map]
  have hkept : left.filter ((fun w => decide (w.id ≠ ρ id)) ∘ Waiting.rename ρ) =
      left.filter fun w => w.id ≠ id := by
    refine List.filter_congr fun w hw => ?_
    simp [Waiting.rename, hsame w.id (h w hw w.id (.head _))]
  rw [hkept]
  refine List.map_congr_left fun w hw => ?_
  simp only [Function.comp_apply, Waiting.rename, hdrivers w (List.mem_filter.1 hw).1]

theorem placeReady_rename (hρ : Set.InjOn ρ s) (steps : Nat)
    (h : ∀ w ∈ left, ∀ d ∈ w.ids, d ∈ s) :
    placeReady steps (left.map (Waiting.rename ρ)) =
      ((placeReady steps left).1.map ρ, (placeReady steps left).2.map (Waiting.rename ρ)) := by
  induction steps generalizing left with
  | zero => rfl
  | succ steps ih =>
    have hready : (left.map (Waiting.rename ρ)).find? (fun w => w.drivers.isEmpty) =
        (left.find? fun w => w.drivers.isEmpty).map (Waiting.rename ρ) := by
      rw [List.find?_map]
      refine congrArg _ (congrArg (fun p => List.find? p left) (funext fun w => ?_))
      simp [Waiting.rename]
    rw [placeReady, placeReady, hready]
    cases hfind : left.find? fun w => w.drivers.isEmpty with
    | none => rfl
    | some w =>
      have hw := List.mem_of_find?_eq_some hfind
      have hid : w.id ∈ s := h w hw w.id (.head _)
      simp only [Option.map_some]
      rw [show (w.rename ρ).id = ρ w.id from rfl, release_rename hρ hid h, ih (ids_release h)]
      rfl

end Placing

namespace Renamed

variable {ρ : NodeId → NodeId} {n n' : Netlist} {cells : CellFunctions} {order : List NodeId}

theorem width (h : Renamed ρ n n') : n'.width = n.width := by
  funext signal
  rw [Netlist.width, h.widths]
  rfl

/-- Only the new names of the nodes matter. -/
theorem congr (h : Renamed ρ n n') {σ : NodeId → NodeId} (hσ : ∀ id ∈ n.nodeIds, σ id = ρ id) :
    Renamed σ n n' where
  injOn := h.injOn.congr fun id hid => (hσ id hid).symm
  inputs := h.inputs
  outputs := h.outputs
  widths := h.widths
  nodes := by
    rw [h.nodes]
    refine List.map_congr_left fun node hnode => ?_
    rw [Node.rename, Node.rename, hσ node.id (List.mem_map_of_mem hnode)]

theorem nodeIds (h : Renamed ρ n n') : n'.nodeIds = n.nodeIds.map ρ := by
  rw [Netlist.nodeIds, h.nodes, Netlist.nodeIds, List.map_map, List.map_map]
  rfl

theorem nodeCount (h : Renamed ρ n n') : n'.nodeCount = n.nodeCount := by
  rw [Netlist.nodeCount, h.nodes, List.length_map]
  rfl

theorem derivedWires (h : Renamed ρ n n') :
    n'.derivedWires = n.derivedWires.map (Wire.rename ρ) := by
  rw [Netlist.derivedWires, h.nodes, Netlist.derivedWires, List.map_flatMap, List.flatMap_map]
  exact List.flatMap_congr fun node _ => nodeWires_rename ρ node

theorem driver? (h : Renamed ρ n n') (signal : String) :
    n'.driver? signal = (n.driver? signal).map ρ := by
  rw [Netlist.driver?, driverNode?, h.nodes, List.find?_map, Option.map_map]
  rw [Netlist.driver?, driverNode?, Option.map_map]
  rfl

theorem waiting (h : Renamed ρ n n') : n'.waiting = n.waiting.map (Waiting.rename ρ) := by
  rw [Netlist.waiting, h.nodes, Netlist.waiting, List.map_map, List.map_map]
  refine List.map_congr_left fun node _ => ?_
  have hdrivers : node.faninSignals.filterMap n'.driver? =
      (node.faninSignals.filterMap n.driver?).map ρ := by
    rw [List.map_filterMap]
    exact congrArg (fun f => List.filterMap f _) (funext h.driver?)
  simp only [Function.comp_apply, Waiting.rename]
  rw [← hdrivers]
  rfl

/-- The nodes are ordered as they were. -/
theorem topoOrder (h : Renamed ρ n n') (horder : n.topoOrder = .ok order) :
    n'.topoOrder = .ok (order.map ρ) := by
  have hids : ∀ w ∈ n.waiting, ∀ d ∈ w.ids, d ∈ {id | id ∈ n.nodeIds} := by
    intro w hw d hd
    obtain ⟨node, hnode, rfl⟩ := List.mem_map.1 hw
    rcases List.mem_cons.1 hd with rfl | hd
    · exact List.mem_map_of_mem (f := Node.id) hnode
    · obtain ⟨signal, -, hdriver⟩ := List.mem_filterMap.1 hd
      obtain ⟨driver, hmem, -, rfl⟩ := driver?_eq_some hdriver
      exact List.mem_map_of_mem hmem
  have hplace := placeReady_rename h.injOn n.nodeCount hids
  rw [topoOrder_eq_ok horder] at hplace
  rw [Netlist.topoOrder, h.nodeCount, h.waiting, hplace]
  rfl

theorem node? (h : Renamed ρ n n') (hc' : n'.Coherent) {node : Node}
    (hnode : node ∈ n.nodes) : n'.node? (ρ node.id) = some (node.rename ρ) := by
  have hmem : node.rename ρ ∈ n'.nodes := h.nodes ▸ List.mem_map_of_mem hnode
  exact hc'.node?_of_mem hmem

/-! ## Evaluation -/

theorem result (h : Renamed ρ n n') (v : Valuation) (node : Node) :
    v.result n' cells (node.rename ρ) = v.result n cells node :=
  Valuation.result_congr rfl (congrFun h.width _)
    (List.map_congr_left fun _ _ => Valuation.seen_congr rfl (congrFun h.width _))

open Evaluator in
theorem inputValues (h : Renamed ρ n n') (given : Values) (inputs : List String)
    (values : Values) : inputValues n' given inputs values = inputValues n given inputs values := by
  induction inputs generalizing values with
  | nil => rfl
  | cons input rest ih =>
    rw [Evaluator.inputValues, Evaluator.inputValues, h.width]
    split
    · exact ih _
    · rfl

/-- A run through the renamed nodes goes through the same values. -/
theorem run (h : Renamed ρ n n') (hc : n.Coherent) (hc' : n'.Coherent)
    (hids : ∀ id ∈ order, id ∈ n.nodeIds) {values final : Values}
    (hrun : Evaluator.run n cells order values = .ok final) :
    Evaluator.run n' cells (order.map ρ) values = .ok final := by
  induction order generalizing values with
  | nil => exact hrun
  | cons id rest ih =>
    rw [List.forall_mem_cons] at hids
    obtain ⟨node, hnode, rfl⟩ := List.mem_map.1 hids.1
    obtain ⟨x, hx, hrest⟩ := (Evaluator.run_cons (hc.node?_of_mem hnode)).1 hrun
    refine (Evaluator.run_cons (h.node? hc' hnode)).2 ⟨x, ?_, ih hids.2 hrest⟩
    rw [h.result]
    exact hx

/-- Other names for the nodes change no value. -/
theorem reproduces (h : Renamed ρ n n') (hc : n.Coherent) (hc' : n'.Coherent) :
    n'.Reproduces n := by
  intro cells e given outputs he heval
  obtain ⟨order, horder, rfl⟩ := ofNetlist_eq_ok he
  obtain ⟨final, hfinal, hret⟩ := ok_of_bind heval
  obtain ⟨start, hstart, hrun⟩ := ok_of_bind hfinal
  cases hret
  have hids : ∀ id ∈ order, id ∈ n.nodeIds := fun id hid =>
    (hc.perm_of_topoOrder horder).mem_iff.1 hid
  refine ⟨⟨n', order.map ρ, cells⟩, by rw [Evaluator.ofNetlist, h.topoOrder horder], ?_⟩
  have hsimulate : Evaluator.simulate ⟨n', order.map ρ, cells⟩ given = .ok final := by
    rw [Evaluator.simulate, h.inputs, h.inputValues, hstart]
    exact h.run hc hc' hids hrun
  rw [Evaluator.evaluate, hsimulate, h.outputs]
  rfl

end Renamed

end Netlist

end GateSynth
