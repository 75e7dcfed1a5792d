import GateSynth.Optimize.Merging
import GateSynth.Proofs.Netlist.Rewriting
import Mathlib.Algebra.BigOperators.Group.List.Basic
import Mathlib.Algebra.GroupWithZero.Nat
import Mathlib.Algebra.Order.BigOperators.Group.List
import Mathlib.Algebra.Order.Group.Nat

/-!
# Weights of netlists

The passes rewrite each other's results, and what they have in common is that the netlist gets
lighter: a dropped node weighs something, and a node that is changed in place weighs less than
before, from operators over inverters and buffers down to literals. `cost` is the weight of all
nodes.

There is one exception. Where two primary outputs are literals of one value and one width
(`Twins`), merging turns one of them into a buffer of the other, which is heavier, and folding turns
the buffer into the literal again. Such ports stay constant through every pass: each of them is a
literal or a buffer of another one (`ConstantPort`).
-/

namespace GateSynth.Netlist

variable {n n' : Netlist} {node : Node}

/-! ## Costs -/

/-- The weight of a node. -/
def weight (n : Netlist) (node : Node) : Nat :=
  match node.kind with
  | .const value => if (n.width node.output).truncate value = value then 1 else 3
  | .op .buf => if Merging.isPortBuffer n node then 2 else 3
  | .op .not => 3
  | _ => 4

/-- The weight of all nodes. -/
def cost (n : Netlist) : Nat := (n.nodes.map n.weight).sum

/-- Only literals that fit and buffers between outputs weigh less than three. -/
theorem weight_cases (n : Netlist) (node : Node) :
    (∃ value, node.kind = .const value ∧
        n.weight node = if (n.width node.output).truncate value = value then 1 else 3) ∨
      (node.kind = .op .buf ∧ n.weight node = if Merging.isPortBuffer n node then 2 else 3) ∨
      3 ≤ n.weight node := by
  cases hkind : node.kind with
  | const value => exact .inl ⟨value, rfl, by rw [weight, hkind]⟩
  | op op =>
    cases op with
    | buf => exact .inr (.inl ⟨rfl, by rw [weight, hkind]⟩)
    | _ =>
      rw [weight, hkind]
      exact .inr (.inr (Nat.le_of_ble_eq_true rfl))
  | _ =>
    rw [weight, hkind]
    exact .inr (.inr (Nat.le_of_ble_eq_true rfl))

theorem one_le_weight (n : Netlist) (node : Node) : 1 ≤ n.weight node := by
  rcases n.weight_cases node with ⟨value, -, hweight⟩ | ⟨-, hweight⟩ | hweight
  · rw [hweight]
    split <;> omega
  · rw [hweight]
    split <;> omega
  · omega

theorem isPortBuffer_congr (houtputs : n'.outputs = n.outputs) (node : Node) :
    Merging.isPortBuffer n' node = Merging.isPortBuffer n node := by
  simp only [Merging.isPortBuffer, isOutput, houtputs]

theorem weight_congr (houtputs : n'.outputs = n.outputs)
    (hwidth : n'.width node.output = n.width node.output) : n'.weight node = n.weight node := by
  rw [weight, weight, hwidth, isPortBuffer_congr houtputs]

theorem weight_of_associative (hkind : node.kind.isAssociative = true) : n.weight node = 4 := by
  unfold weight
  cases hk : node.kind with
  | op op =>
    rw [hk] at hkind
    cases op <;> first | rfl | cases hkind
  | const value =>
    rw [hk] at hkind
    cases hkind
  | module _ => rfl
  | cell _ => rfl

theorem cost_rebuildWires (n : Netlist) : n.rebuildWires.cost = n.cost := rfl

/-- Nodes that are left out take their weights with them. -/
theorem sum_filter_le {p : Node → Bool} {weight : Node → Nat} (hpos : ∀ m, 1 ≤ weight m)
    (nodes : List Node) :
    ((nodes.filter p).map weight).sum + (nodes.length - (nodes.filter p).length) ≤
      (nodes.map weight).sum := by
  induction nodes with
  | nil => simp
  | cons m rest ih =>
    have hle := List.length_filter_le p rest
    have hm := hpos m
    by_cases hp : p m = true
    · simp only [List.filter_cons_of_pos hp, List.map_cons, List.sum_cons, List.length_cons]
      omega
    · simp only [List.filter_cons_of_neg hp, List.map_cons, List.sum_cons, List.length_cons]
      omega

/-- Every dropped node makes the netlist lighter. -/
theorem Without.cost_le {gone : List NodeId} (h : Without n n' gone)
    (hsingle : (n.nodes.map Node.output).Nodup) :
    n'.cost + (n.nodeCount - n'.nodeCount) ≤ n.cost := by
  have hweight : n'.nodes.map n'.weight = n'.nodes.map n.weight := by
    refine List.map_congr_left fun m hm => weight_congr h.outputs (h.width _ ?_)
    intro d hd hgone ho
    obtain ⟨hm, hstay⟩ := h.mem_nodes.1 hm
    rw [List.inj_on_of_nodup_map hsingle hd hm ho] at hgone
    exact hstay hgone
  rw [cost, hweight, nodeCount, nodeCount, h.nodes]
  exact sum_filter_le n.one_le_weight n.nodes

/-- Updating a node changes the cost by the difference of its weights. -/
theorem Coherent.cost_updateNode (hc : n.Coherent) (hm : node ∈ n.nodes) (kind : Kind)
    (fanins : List Fanin) :
    (n.updateNode node.id kind fanins).cost + n.weight node =
      n.cost + n.weight { node with kind, fanins } := by
  obtain ⟨before, after, hsplit, -, hnodes⟩ := exists_split (hc.node?_of_mem hm)
  have hweight : (n.updateNode node.id kind fanins).weight = n.weight :=
    funext fun m => weight_congr rfl rfl
  rw [cost, cost, hweight, hnodes, hsplit]
  simp only [List.map_append, List.map_cons, List.sum_append, List.sum_cons]
  omega

/-! ## Constant ports -/

/-- Does the node drive a primary output with a literal that fits? -/
def isLiteralPort (n : Netlist) (node : Node) : Bool :=
  n.isOutput node.output &&
    match node.kind with
    | .const value => decide ((n.width node.output).truncate value = value)
    | _ => false

/-- Two primary outputs of one width are literals of one value. -/
def Twins (n : Netlist) : Prop :=
  ∃ a ∈ n.nodes, ∃ b ∈ n.nodes, a.output ≠ b.output ∧ a.kind = b.kind ∧
    n.width a.output = n.width b.output ∧ n.isLiteralPort a = true ∧ n.isLiteralPort b = true

instance (n : Netlist) : Decidable n.Twins :=
  inferInstanceAs (Decidable (∃ a ∈ n.nodes, ∃ b ∈ n.nodes, a.output ≠ b.output ∧
    a.kind = b.kind ∧ n.width a.output = n.width b.output ∧ n.isLiteralPort a = true ∧
    n.isLiteralPort b = true))

theorem isLiteralPort_iff :
    n.isLiteralPort node = true ↔ node.output ∈ n.outputs ∧ ∃ value,
      node.kind = .const value ∧ (n.width node.output).truncate value = value := by
  rw [isLiteralPort, Bool.and_eq_true, isOutput_iff]
  refine and_congr_right fun _ => ?_
  cases node.kind <;> simp

/-- The primary output is a literal of a value and a width, or a buffer of such an output. -/
inductive ConstantPort (n : Netlist) (value : Word) (w : Width) : String → Prop
  | literal {node : Node} (hm : node ∈ n.nodes) (hkind : node.kind = .const value)
      (hout : node.output ∈ n.outputs) (hwidth : n.width node.output = w)
      (hfits : w.truncate value = value) : ConstantPort n value w node.output
  | buffer {node : Node} {source : String} (hm : node ∈ n.nodes) (hkind : node.kind = .op .buf)
      (hfanins : node.fanins = [.plain source]) (hout : node.output ∈ n.outputs)
      (hwidth : n.width node.output = w) (hsource : ConstantPort n value w source) :
      ConstantPort n value w node.output

/-- Two primary outputs are constant and equal. -/
def Locked (n : Netlist) : Prop :=
  ∃ value w a b, a ≠ b ∧ ConstantPort n value w a ∧ ConstantPort n value w b

theorem ConstantPort.mem_outputs {value : Word} {w : Width} {port : String}
    (h : ConstantPort n value w port) : port ∈ n.outputs := by
  cases h with
  | literal _ _ hout _ _ => exact hout
  | buffer _ _ _ hout _ _ => exact hout

theorem ConstantPort.width_eq {value : Word} {w : Width} {port : String}
    (h : ConstantPort n value w port) : n.width port = w := by
  cases h with
  | literal _ _ _ hwidth _ => exact hwidth
  | buffer _ _ _ _ hwidth _ => exact hwidth

theorem ConstantPort.fits {value : Word} {w : Width} {port : String}
    (h : ConstantPort n value w port) : w.truncate value = value := by
  induction h with
  | literal _ _ _ _ hfits => exact hfits
  | buffer _ _ _ _ _ _ ih => exact ih

theorem Twins.locked (h : n.Twins) : n.Locked := by
  obtain ⟨a, ha, b, hb, hne, hkind, hwidth, hla, hlb⟩ := h
  obtain ⟨hout, value, hvalue, hfits⟩ := isLiteralPort_iff.1 hla
  obtain ⟨hout', -, -, -⟩ := isLiteralPort_iff.1 hlb
  exact ⟨value, n.width a.output, a.output, b.output, hne, .literal ha hvalue hout rfl hfits,
    .literal hb (hkind ▸ hvalue) hout' hwidth.symm hfits⟩

/-- Constant ports stay constant if every literal and every buffer of a constant port stays or is
replaced by one. -/
theorem Locked.imp (h : n.Locked)
    (hport : ∀ value w port, ConstantPort n value w port → ConstantPort n' value w port) :
    n'.Locked := by
  obtain ⟨value, w, a, b, hne, ha, hb⟩ := h
  exact ⟨value, w, a, b, hne, hport _ _ _ ha, hport _ _ _ hb⟩

/-- Literals and buffers that drive primary outputs and are left alone stay constant. -/
theorem ConstantPort.of_nodes {value : Word} {w : Width} {port : String}
    (h : ConstantPort n value w port) (houtputs : n'.outputs = n.outputs)
    (hwidth : ∀ o ∈ n.outputs, n'.width o = n.width o)
    (hnodes : ∀ m ∈ n.nodes, m.output ∈ n.outputs → m.kind.isAssociative = false →
      m ∈ n'.nodes) : ConstantPort n' value w port := by
  induction h with
  | literal hm hkind hout hw hfits =>
    refine .literal (hnodes _ hm hout ?_) hkind (houtputs ▸ hout) ?_ hfits
    · rw [hkind]
      rfl
    · rw [hwidth _ hout, hw]
  | buffer hm hkind hfanins hout hw _ ih =>
    refine .buffer (hnodes _ hm hout ?_) hkind hfanins (houtputs ▸ hout) ?_ ih
    · rw [hkind]
      rfl
    · rw [hwidth _ hout, hw]

/-- Constant ports do not depend on the wires that are stored. -/
theorem locked_rebuildWires : n.rebuildWires.Locked ↔ n.Locked :=
  ⟨fun h => h.imp fun _ _ _ hport => hport.of_nodes rfl (fun _ _ => rfl) fun _ hm _ _ => hm,
    fun h => h.imp fun _ _ _ hport => hport.of_nodes rfl (fun _ _ => rfl) fun _ hm _ _ => hm⟩

end GateSynth.Netlist
