import GateSynth.Proofs.Simulation.Solutions

/-!
# The meaning of a netlist

`Operator.number` says what every operator makes of numbers, and `Netlist.Meaning` what a netlist
asks of the values of its signals: an input has the given value modulo the number of values of its
width, and the output of a node the number that its operator, literal or cell makes of what the
fanins see. Nothing is said of an order in which values are found.

`simulate_meaning` says that simulation finds the only such values, that they fit the widths, and
that any other order of the nodes with the drivers first finds the same.
-/

namespace GateSynth

/-- What an operator makes of its operands when numbers count modulo `m`. A division takes its
operands in full, a multiplexer its select, and a zero divisor gives zero. -/
def Operator.number (op : Operator) (m : Nat) (operands : List Nat) : Nat :=
  match op, operands with
  | .and, [x, y] => (x &&& y) % m
  | .or, [x, y] => (x ||| y) % m
  | .xor, [x, y] => (x ^^^ y) % m
  | .nand, [x, y] => m - 1 - (x &&& y) % m
  | .nor, [x, y] => m - 1 - (x ||| y) % m
  | .not, [x] => m - 1 - x % m
  | .buf, [x] => x % m
  | .add, [x, y] => (x + y) % m
  | .sub, [x, y] => (x + (m - y % m)) % m
  | .mul, [x, y] => (x * y) % m
  | .div, [x, y] => if y = 0 then 0 else (x / y) % m
  | .mux, [x, y, select] => (if select = 0 then x else y) % m
  | _, _ => 0

/-- The number that a fanin sees: an inverted one the complement at the width of its source. -/
def Valuation.numberSeen (v : Valuation) (n : Netlist) (f : Fanin) : Nat :=
  let m := (n.width f.signal).values
  if f.inverted then m - 1 - (v f.signal).toNat % m else (v f.signal).toNat

namespace Netlist

/-- The values of the signals are those that the netlist asks for. -/
structure Meaning (n : Netlist) (cells : CellFunctions) (given : Values) (v : Valuation) :
    Prop where
  /-- A primary input has the given value, cut to its width. -/
  input : ∀ i ∈ n.inputs, ∃ x, given.find? i = some x ∧
    (v i).toNat = x.toNat % (n.width i).values
  /-- An operator is applied to what the fanins see. -/
  operator : ∀ node ∈ n.nodes, ∀ op, node.kind = .op op →
    (v node.output).toNat =
      op.number (n.width node.output).values (node.fanins.map (v.numberSeen n))
  /-- A literal has its value, cut to the width. -/
  literal : ∀ node ∈ n.nodes, ∀ value, node.kind = .const value →
    (v node.output).toNat = value.toNat % (n.width node.output).values
  /-- A cell has the value that the library gives it, cut to the width. -/
  cell : ∀ node ∈ n.nodes, ∀ name init, node.kind = .cell name init →
    ∃ x, cells name init (node.fanins.map (v.seen n)) (n.width node.output) = some x ∧
      (v node.output).toNat = x.toNat % (n.width node.output).values
  /-- There is no module without a definition. -/
  known : ∀ node ∈ n.nodes, ∀ name, node.kind ≠ .module name

end Netlist

/-! ## Equations about numbers -/

/-- The value of an operator is its number. -/
theorem Operator.toNat_value (op : Operator) {operands : List Word} (w : Width)
    (harity : operands.length = op.arity) :
    (op.value operands w).toNat = op.number w.values (operands.map UInt64.toNat) := by
  obtain ⟨hone, htwo, hthree⟩ := op.operands_of_arity harity
  cases op with
  | and => obtain ⟨x, y, rfl⟩ := htwo rfl; exact toNat_value_and x y w
  | or => obtain ⟨x, y, rfl⟩ := htwo rfl; exact toNat_value_or x y w
  | xor => obtain ⟨x, y, rfl⟩ := htwo rfl; exact toNat_value_xor x y w
  | nand => obtain ⟨x, y, rfl⟩ := htwo rfl; exact toNat_value_nand x y w
  | nor => obtain ⟨x, y, rfl⟩ := htwo rfl; exact toNat_value_nor x y w
  | not => obtain ⟨x, rfl⟩ := hone rfl; exact toNat_value_not x w
  | buf => obtain ⟨x, rfl⟩ := hone rfl; exact toNat_value_buf x w
  | add => obtain ⟨x, y, rfl⟩ := htwo rfl; exact toNat_value_add x y w
  | sub => obtain ⟨x, y, rfl⟩ := htwo rfl; exact toNat_value_sub x y w
  | mul => obtain ⟨x, y, rfl⟩ := htwo rfl; exact toNat_value_mul x y w
  | div =>
    obtain ⟨x, y, rfl⟩ := htwo rfl
    rw [toNat_value_div]
    by_cases hy : y.toNat = 0
    · simp [number, hy]
    · simp [number, hy]
  | mux => obtain ⟨x, y, z, rfl⟩ := hthree rfl; exact toNat_value_mux x y z w

theorem Valuation.toNat_seen (v : Valuation) (n : Netlist) (f : Fanin) :
    (v.seen n f).toNat = v.numberSeen n f := by
  rw [seen, numberSeen]
  split
  · exact Width.toNat_complement _ _
  · rfl

namespace Netlist

variable {n : Netlist} {cells : CellFunctions} {given : Values} {v : Valuation}

/-- A word is the cut of another one if it is so as a number. -/
theorem eq_truncate_iff {w : Width} {x y : Word} :
    x = w.truncate y ↔ x.toNat = y.toNat % w.values := by
  rw [← UInt64.toNat_inj, Width.toNat_truncate]

/-- What a valuation asks of one node, as numbers. -/
theorem result_eq_some_iff {node : Node}
    (harity : ∀ k, node.kind.arity? = some k → k = node.fanins.length) :
    v.result n cells node = some (v node.output) ↔
      (∀ op, node.kind = .op op → (v node.output).toNat =
        op.number (n.width node.output).values (node.fanins.map (v.numberSeen n))) ∧
      (∀ value, node.kind = .const value →
        (v node.output).toNat = value.toNat % (n.width node.output).values) ∧
      (∀ name init, node.kind = .cell name init →
        ∃ x, cells name init (node.fanins.map (v.seen n)) (n.width node.output) = some x ∧
          (v node.output).toNat = x.toNat % (n.width node.output).values) ∧
      ∀ name, node.kind ≠ .module name := by
  rw [Valuation.result]
  cases hkind : node.kind with
  | op op =>
    have hlength : (node.fanins.map (v.seen n)).length = op.arity := by
      rw [List.length_map, ← harity op.arity (by rw [hkind]; rfl)]
    have hnumbers : (node.fanins.map (v.seen n)).map UInt64.toNat =
        node.fanins.map (v.numberSeen n) := by
      rw [List.map_map]
      exact List.map_congr_left fun f _ => v.toNat_seen n f
    have hvalue := op.toNat_value (n.width node.output) hlength
    rw [hnumbers] at hvalue
    simp [← hvalue, UInt64.toNat_inj, eq_comm]
  | const value => simp [← eq_truncate_iff, eq_comm]
  | module name => simp
  | cell name init => simp [← eq_truncate_iff, eq_comm]

/-- The meaning of a netlist is the solution of its equations. -/
theorem Legal.solution_iff_meaning (hl : n.Legal) :
    n.Solution cells given v ↔ n.Meaning cells given v := by
  have hnode (node) (hm : node ∈ n.nodes) : v.result n cells node = some (v node.output) ↔ _ :=
    result_eq_some_iff (hl.arity node hm)
  constructor
  · intro h
    have hresult := fun node hm => (hnode node hm).1 (h.node node hm)
    refine ⟨fun i hi => ?_, fun node hm => (hresult node hm).1,
      fun node hm => (hresult node hm).2.1, fun node hm => (hresult node hm).2.2.1,
      fun node hm => (hresult node hm).2.2.2⟩
    obtain ⟨x, hx, hv⟩ := h.input i hi
    exact ⟨x, hx, eq_truncate_iff.1 hv⟩
  · intro h
    refine ⟨fun i hi => ?_, fun node hm => (hnode node hm).2
      ⟨h.operator node hm, h.literal node hm, h.cell node hm, h.known node hm⟩⟩
    obtain ⟨x, hx, hv⟩ := h.input i hi
    exact ⟨x, hx, eq_truncate_iff.2 hv⟩

/-! ## Simulation -/

/-- Simulation of a valid netlist gives values to the primary inputs and the outputs of the nodes
and to nothing else. They are the only ones that have the meaning of the netlist, they fit the
widths, and they do not depend on the order of the nodes, as long as the drivers come first. -/
theorem simulate_meaning (hc : n.Coherent) (hvalid : n.validate = .ok ()) {e : Evaluator}
    (he : Evaluator.ofNetlist n cells = .ok e) {values : Values}
    (h : e.simulate given = .ok values) :
    (∀ signal, (values.find? signal).isSome ↔
      signal ∈ n.inputs ∨ ∃ node ∈ n.nodes, node.output = signal) ∧
    n.Meaning cells given (.ofValues values) ∧
    (∀ v, n.Meaning cells given v → ∀ signal x, values.find? signal = some x → v signal = x) ∧
    (∀ signal x, values.find? signal = some x → x.toNat < (n.width signal).values) ∧
    ∀ order, order.Perm n.nodeIds → n.DriversFirst order →
      ∃ values', Evaluator.simulate ⟨n, order, cells⟩ given = .ok values' ∧
        ∀ signal, values'.find? signal = values.find? signal := by
  have hl := hc.legal_of_validate hvalid
  have hsolution := hl.solution_of_simulate hc he h
  have hnone : ∀ {signal}, n.isDefined signal = false → values.find? signal = none :=
    fun hs => undefined_of_simulate hc he h hs
  obtain ⟨order, horder, rfl⟩ := ofNetlist_eq_ok he
  have hperm := hc.perm_of_topoOrder horder
  -- Whatever solves the equations is what simulation finds.
  have hfind : ∀ {v}, n.Solution cells given v → ∀ {signal}, n.isDefined signal = true →
      values.find? signal = some (v signal) := by
    intro v hv signal hs
    obtain ⟨found, hfound, hall⟩ :=
      hl.simulate_along hc hv hperm (hc.driversFirst_of_topoOrder horder)
    rw [h] at hfound
    cases hfound
    exact hall signal hs
  have hdefined : ∀ {signal}, (values.find? signal).isSome ↔ n.isDefined signal = true := by
    intro signal
    cases hs : n.isDefined signal with
    | true => simp [hfind hsolution hs]
    | false => simp [hnone hs]
  refine ⟨fun signal => ?_, hl.solution_iff_meaning.1 hsolution, fun v hv signal x hx => ?_,
    fun signal x hx => ?_, fun order' hperm' hfirst => ?_⟩
  · rw [hdefined, isDefined_iff, or_comm]
  · have hs := hdefined.1 (Option.isSome_of_eq_some hx)
    rw [hfind (hl.solution_iff_meaning.2 hv) hs] at hx
    exact Option.some.inj hx
  · have hs := hdefined.1 (Option.isSome_of_eq_some hx)
    have hfits := hsolution.truncate_eq hs
    have hvalue : Valuation.ofValues values signal = x := by rw [Valuation.ofValues, hx]; rfl
    rw [← hvalue, ← hfits]
    exact Width.truncate_lt _ _
  · obtain ⟨values', hvalues', hall⟩ := hl.simulate_along hc hsolution hperm' hfirst
    refine ⟨values', hvalues', fun signal => ?_⟩
    cases hs : n.isDefined signal with
    | true => rw [hall signal hs, hfind hsolution hs]
    | false => rw [undefined_along hc hperm' hvalues' hs, hnone hs]

end Netlist

namespace ZeroQuotient

/-- A sum that reads a later cell and an inverted input of two bits, and a quotient whose divisor,
the literal four, is cut to zero. -/
def netlist : Netlist where
  name := "quotient"
  inputs := ["a", "b"]
  outputs := ["y", "q"]
  widths := ⟨[("a", 4), ("b", 2), ("y", 4), ("q", 3), ("p", 4), ("z", 2)].map
    (Prod.map id fun bits => (Width.ofNat? bits).getD .one)⟩
  arena := [some ⟨⟨0⟩, .op .add, [.plain "p", ⟨"b", true⟩], "y"⟩,
    some ⟨⟨1⟩, .op .div, [.plain "a", .plain "z"], "q"⟩,
    some ⟨⟨2⟩, .cell "DOUBLE" none, [.plain "a"], "p"⟩,
    some ⟨⟨3⟩, .const 4, [], "z"⟩]
  wires := [⟨"p", ⟨0⟩, 0⟩, ⟨"b", ⟨0⟩, 1⟩, ⟨"a", ⟨1⟩, 0⟩, ⟨"z", ⟨1⟩, 1⟩, ⟨"a", ⟨2⟩, 0⟩]
  nextFresh := 0

/-- The cell doubles its operand. -/
def cells : CellFunctions := fun name _ operands _ =>
  if name = "DOUBLE" then operands.head?.map (2 * ·) else none

theorem coherent : netlist.Coherent := by
  refine ⟨fun {i node} h => ?_, by decide, by decide, by decide⟩
  match i, h with
  | 0, h | 1, h | 2, h | 3, h =>
    cases h
    rfl

theorem driversFirst : netlist.DriversFirst [⟨3⟩, ⟨2⟩, ⟨1⟩, ⟨0⟩] := by
  intro before id after h
  match before, h with
  | [], h | [_], h | [_, _], h | [_, _, _], h =>
    cases h
    simp [netlist, Netlist.nodes, Netlist.driver?, Netlist.driverNode?, Fanin.plain]
  | _ :: _ :: _ :: _ :: _, h => simp at h

end ZeroQuotient

/-- The sum of twice five and of the complement of one at two bits; the quotient is zero, in
whatever order the nodes are taken. -/
theorem simulate_meaning_zeroQuotient :
    let n := ZeroQuotient.netlist
    let values : Values := ⟨[("q", 0), ("z", 0), ("y", 12), ("p", 10), ("a", 5), ("b", 1)]⟩
    n.Coherent ∧ n.validate = .ok () ∧
      Evaluator.ofNetlist n ZeroQuotient.cells =
        .ok ⟨n, [⟨2⟩, ⟨0⟩, ⟨3⟩, ⟨1⟩], ZeroQuotient.cells⟩ ∧
      Evaluator.simulate ⟨n, [⟨2⟩, ⟨0⟩, ⟨3⟩, ⟨1⟩], ZeroQuotient.cells⟩ ⟨[("b", 5), ("a", 21)]⟩ =
        .ok values ∧
      n.Meaning ZeroQuotient.cells ⟨[("b", 5), ("a", 21)]⟩ (.ofValues values) ∧
      (∀ v, n.Meaning ZeroQuotient.cells ⟨[("b", 5), ("a", 21)]⟩ v → v "y" = 12 ∧ v "q" = 0) ∧
      ∃ values', Evaluator.simulate ⟨n, [⟨3⟩, ⟨2⟩, ⟨1⟩, ⟨0⟩], ZeroQuotient.cells⟩
          ⟨[("b", 5), ("a", 21)]⟩ = .ok values' ∧
        ∀ signal, values'.find? signal = values.find? signal := by
  intro n values
  have hvalid : n.validate = .ok () := by
    rw [Netlist.validate_of_derived (by decide)]
    decide
  have he : Evaluator.ofNetlist n ZeroQuotient.cells =
      .ok ⟨n, [⟨2⟩, ⟨0⟩, ⟨3⟩, ⟨1⟩], ZeroQuotient.cells⟩ := rfl
  have hvalues : Evaluator.simulate ⟨n, [⟨2⟩, ⟨0⟩, ⟨3⟩, ⟨1⟩], ZeroQuotient.cells⟩
      ⟨[("b", 5), ("a", 21)]⟩ = .ok values := by decide
  obtain ⟨-, hmeaning, hunique, -, horders⟩ :=
    Netlist.simulate_meaning ZeroQuotient.coherent hvalid he hvalues
  refine ⟨ZeroQuotient.coherent, hvalid, he, hvalues, hmeaning, fun v hv => ?_, ?_⟩
  · exact ⟨hunique v hv "y" 12 (by decide), hunique v hv "q" 0 (by decide)⟩
  · exact horders _ (by decide) ZeroQuotient.driversFirst

end GateSynth
