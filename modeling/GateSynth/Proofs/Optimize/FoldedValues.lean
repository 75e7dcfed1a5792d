import GateSynth.Proofs.Optimize.Folding
import GateSynth.Proofs.Simulation.Reproduction

/-!
# Values of folded nodes

What a node becomes when some of its operands are known has the value that the node has
(`fold_yields`): one identity of words for every operator and every constant that it folds with.
The operands that folding takes for known are so in every solution, since a literal has its value
there (`constOperand_seen`), and so every change keeps the solutions (`Becomes.entails`).
-/

namespace GateSynth

open Netlist

namespace Width

variable (w : Width) (x : Word)

theorem truncate_ones : w.truncate (~~~0) = w.mask := by
  rw [truncate, UInt64.and_comm]
  simp

theorem truncate_or_mask : w.truncate (w.truncate x ||| w.mask) = w.mask := by
  have hsame : w.truncate (w.truncate x ||| w.mask) = w.truncate w.mask := by
    refine w.truncate_congr fun i hi hbit => ?_
    rw [UInt64.toBitVec_or, BitVec.getElem_or, hbit, Bool.or_true]
  rw [hsame, Folding.truncate_mask]

theorem truncate_not_or_mask : w.truncate (~~~(w.truncate x ||| w.mask)) = 0 := by
  have hsame : w.truncate (~~~(w.truncate x ||| w.mask)) = w.truncate 0 := by
    refine w.truncate_congr fun i hi hbit => ?_
    rw [UInt64.toBitVec_not, UInt64.toBitVec_or, BitVec.getElem_not, BitVec.getElem_or, hbit,
      Bool.or_true]
    simp
  rw [hsame, w.truncate_zero]

theorem truncate_xor_mask : w.truncate (w.truncate x ^^^ w.mask) = w.complement x := by
  refine w.truncate_congr fun i hi hbit => ?_
  rw [UInt64.toBitVec_xor, UInt64.toBitVec_not, BitVec.getElem_xor, BitVec.getElem_not,
    w.getElem_truncate hbit, hbit, Bool.xor_true]

/-- Complementing a value that was cut to the width is complementing the value. -/
theorem complement_of_truncate : w.complement (w.truncate x) = w.complement x := by
  rw [← w.complement_truncate (w.truncate x), w.truncate_truncate, w.complement_truncate]

end Width

namespace Folding

variable {see : Fanin → Word} {known : Fanin → Option Word} {op : Operator} {w : Width}
  {fanins : List Fanin} {operands : List (Option Word)} {x : Word}

/-! ## Identities -/

/-- If something becomes of a node, it has this value. -/
def Fold.Yields (see : Fanin → Word) (w : Width) (x : Word) : Fold → Prop
  | .become kind used => kind.apply (used.map see) w = .ok x
  | .keep | .divisionByZero => True

theorem Fold.yields_const {value : Word} (h : w.truncate value = x) :
    (Fold.const value).Yields see w x :=
  congrArg Except.ok h

theorem Fold.yields_buffer {f : Fanin} (h : w.truncate (see f) = x) :
    (Fold.buffer f).Yields see w x :=
  congrArg Except.ok ((w.truncate_truncate _).trans h)

theorem Fold.yields_inverter {f : Fanin} (h : w.complement (see f) = x) :
    (Fold.inverter f).Yields see w x :=
  congrArg Except.ok ((w.complement_truncate _).trans h)

/-- The identities of the operators that do not mind the order of their operands. -/
theorem commutativeFold_yields (op : Operator) (w : Width) (c : Word) (f : Fanin) :
    (commutativeFold op w (w.truncate c) f).Yields see w (op.value [see f, c] w) := by
  cases op with
  | and =>
    have hvalue : Operator.and.value [see f, c] w =
        w.truncate (w.truncate (see f) &&& w.truncate c) := rfl
    rw [hvalue]
    simp only [commutativeFold]
    split
    · next hzero => exact Fold.yields_const (by rw [hzero, UInt64.and_zero])
    · split
      · next hones =>
        have hcut : w.truncate (see f) &&& w.mask = w.truncate (w.truncate (see f)) := rfl
        refine Fold.yields_buffer ?_
        rw [hones, hcut, w.truncate_truncate, w.truncate_truncate]
      · trivial
  | or =>
    have hvalue : Operator.or.value [see f, c] w =
        w.truncate (w.truncate (see f) ||| w.truncate c) := rfl
    rw [hvalue]
    simp only [commutativeFold]
    split
    · next hones =>
      exact Fold.yields_const (by rw [hones, w.truncate_or_mask, truncate_mask])
    · split
      · next hzero => exact Fold.yields_buffer (by rw [hzero, UInt64.or_zero, w.truncate_truncate])
      · trivial
  | xor =>
    have hvalue : Operator.xor.value [see f, c] w =
        w.truncate (w.truncate (see f) ^^^ w.truncate c) := rfl
    rw [hvalue]
    simp only [commutativeFold]
    split
    · next hzero => exact Fold.yields_buffer (by rw [hzero, UInt64.xor_zero, w.truncate_truncate])
    · split
      · next hones => exact Fold.yields_inverter (by rw [hones, w.truncate_xor_mask])
      · trivial
  | nand =>
    have hvalue : Operator.nand.value [see f, c] w =
        w.truncate (~~~(w.truncate (see f) &&& w.truncate c)) := rfl
    rw [hvalue]
    simp only [commutativeFold]
    split
    · next hones =>
      have hcut : w.truncate (see f) &&& w.mask = w.truncate (w.truncate (see f)) := rfl
      refine Fold.yields_inverter ?_
      rw [hones, hcut, w.complement_truncate, w.complement_of_truncate]
    · split
      · next hzero =>
        exact Fold.yields_const (by rw [hzero, UInt64.and_zero, w.truncate_ones, truncate_mask])
      · trivial
  | nor =>
    have hvalue : Operator.nor.value [see f, c] w =
        w.truncate (~~~(w.truncate (see f) ||| w.truncate c)) := rfl
    rw [hvalue]
    simp only [commutativeFold]
    split
    · next hones =>
      exact Fold.yields_const (by rw [hones, w.truncate_not_or_mask, w.truncate_zero])
    · split
      · next hzero =>
        exact Fold.yields_inverter (by rw [hzero, UInt64.or_zero, w.complement_truncate])
      · trivial
  | add =>
    have hvalue : Operator.add.value [see f, c] w =
        w.truncate (w.truncate (see f) + w.truncate c) := rfl
    rw [hvalue]
    simp only [commutativeFold]
    split
    · next hzero => exact Fold.yields_buffer (by rw [hzero, UInt64.add_zero, w.truncate_truncate])
    · trivial
  | mul =>
    have hvalue : Operator.mul.value [see f, c] w =
        w.truncate (w.truncate (see f) * w.truncate c) := rfl
    rw [hvalue]
    simp only [commutativeFold]
    split
    · next hzero => exact Fold.yields_const (by rw [hzero, UInt64.mul_zero])
    · split
      · next hone => exact Fold.yields_buffer (by rw [hone, UInt64.mul_one, w.truncate_truncate])
      · trivial
  | not => trivial
  | buf => trivial
  | sub => trivial
  | div => trivial
  | mux => trivial

/-! ## Known operands -/

/-- Operands that are known are what the fanins see. -/
def Agrees (see : Fanin → Word) (known : Fanin → Option Word) : Prop :=
  ∀ ⦃f c⦄, known f = some c → see f = c

/-- The constant may stand on either side. -/
theorem splitConst_value (hagrees : Agrees see known) (hcomm : op.isCommutative = true) {c : Word}
    {f : Fanin} (h : splitConst fanins (fanins.map known) = some (c, f)) :
    op.value (fanins.map see) w = op.value [see f, c] w := by
  unfold splitConst at h
  split at h
  · next first second d hoperands =>
    cases h
    simp only [List.map_cons, List.map_nil, List.cons.injEq] at hoperands
    rw [List.map_cons, List.map_cons, List.map_nil, hagrees hoperands.1]
    exact Operator.value_comm hcomm _ _ _
  · next first second d hoperands =>
    cases h
    simp only [List.map_cons, List.map_nil, List.cons.injEq] at hoperands
    rw [List.map_cons, List.map_cons, List.map_nil, hagrees hoperands.2.1]
  · cases h

theorem partialFold_commutative (hagrees : Agrees see known) (hcomm : op.isCommutative = true) :
    (match splitConst fanins (fanins.map known) with
      | some (c, f) => commutativeFold op w (w.truncate c) f
      | none => Fold.keep).Yields see w (op.value (fanins.map see) w) := by
  split
  · next c f h =>
    rw [splitConst_value hagrees hcomm h]
    exact commutativeFold_yields op w c f
  · trivial

/-- Zero may be taken away. -/
theorem partialFold_sub (hagrees : Agrees see known) :
    (partialFold .sub fanins (fanins.map known) w).Yields see w
      (Operator.sub.value (fanins.map see) w) := by
  simp only [partialFold]
  split
  · next f g c hoperands =>
    simp only [List.map_cons, List.map_nil, List.cons.injEq] at hoperands
    have hvalue : Operator.sub.value [see f, c] w =
        w.truncate (w.truncate (see f) - w.truncate c) := rfl
    rw [List.map_cons, List.map_cons, List.map_nil, hagrees hoperands.2.1, hvalue]
    split
    · next hzero => exact Fold.yields_buffer (by rw [hzero, UInt64.sub_zero, w.truncate_truncate])
    · trivial
  · trivial

/-- The divisor is not cut to the width, so only one itself divides without effect. -/
theorem partialFold_div (hagrees : Agrees see known) :
    (partialFold .div fanins (fanins.map known) w).Yields see w
      (Operator.div.value (fanins.map see) w) := by
  simp only [partialFold]
  split
  · next f g first c hoperands =>
    simp only [List.map_cons, List.map_nil, List.cons.injEq] at hoperands
    rw [List.map_cons, List.map_cons, List.map_nil, hagrees hoperands.2.1]
    split
    · trivial
    · split
      · next hone =>
        have hvalue : Operator.div.value [see f, 1] w = w.truncate (see f / 1) := rfl
        rw [hone.2, hvalue, UInt64.div_one]
        exact Fold.yields_buffer rfl
      · trivial
  · trivial

/-- A known choice, or one between equals, is a buffer of what is chosen. -/
theorem partialFold_mux (hagrees : Agrees see known) :
    (partialFold .mux fanins (fanins.map known) w).Yields see w
      (Operator.mux.value (fanins.map see) w) := by
  have hvalue : ∀ x y z : Word, Operator.mux.value [x, y, z] w =
      w.truncate (if z = 0 then w.truncate x else w.truncate y) := fun _ _ _ => rfl
  simp only [partialFold]
  split
  · next d₀ d₁ g first second select hoperands =>
    simp only [List.map_cons, List.map_nil, List.cons.injEq] at hoperands
    rw [List.map_cons, List.map_cons, List.map_cons, List.map_nil, hagrees hoperands.2.2.1, hvalue]
    refine Fold.yields_buffer ?_
    split <;> rw [w.truncate_truncate]
  · next d₀ d₁ g hunknown =>
    rw [List.map_cons, List.map_cons, List.map_cons, List.map_nil, hvalue]
    by_cases hsame : d₀ = d₁
    · rw [if_pos hsame, hsame, ite_self]
      exact Fold.yields_buffer (w.truncate_truncate _).symm
    · rw [if_neg hsame]
      trivial
  · trivial

theorem partialFold_yields (hagrees : Agrees see known) (op : Operator) (fanins : List Fanin)
    (w : Width) :
    (partialFold op fanins (fanins.map known) w).Yields see w (op.value (fanins.map see) w) := by
  cases op with
  | not => trivial
  | buf => trivial
  | sub => exact partialFold_sub hagrees
  | div => exact partialFold_div hagrees
  | mux => exact partialFold_mux hagrees
  | _ => exact partialFold_commutative hagrees rfl

theorem filterMap_known (hagrees : Agrees see known) {fanins : List Fanin}
    (h : (fanins.map known).all Option.isSome = true) :
    (fanins.map known).filterMap id = fanins.map see := by
  induction fanins with
  | nil => rfl
  | cons f rest ih =>
    rw [List.map_cons, List.all_cons, Bool.and_eq_true, Option.isSome_iff_exists] at h
    obtain ⟨⟨c, hc⟩, hrest⟩ := h
    rw [List.map_cons, hc, List.map_cons, hagrees hc, ← ih hrest]
    rfl

/-- What becomes of an operator has the value that the operator has. -/
theorem fold_yields (hagrees : Agrees see known) {node : Node} (hkind : node.kind = .op op)
    (w : Width) :
    (fold node (node.fanins.map known) w).Yields see w (op.value (node.fanins.map see) w) := by
  rw [fold]
  split
  · next hall =>
    rw [Bool.and_eq_true] at hall
    rw [filterMap_known hagrees hall.2, hkind, Kind.apply]
    rcases op.apply_eq (node.fanins.map see) w with hok | ⟨herror, -⟩
    · rw [hok]
      exact Fold.yields_const (op.truncate_value _ w)
    · rw [herror]
      trivial
  · rw [hkind]
    exact partialFold_yields hagrees op node.fanins w

/-! ## Solutions -/

section Solutions
variable {n : Netlist} {cells : CellFunctions} {given : Values} {v : Valuation} {node : Node}
  {kind : Kind} {used : List Fanin}

/-- A fanin that reads a literal sees it in every solution. -/
theorem constOperand_seen (hv : n.Solution cells given v) : Agrees (v.seen n) (constOperand n) := by
  intro f c hconst
  simp only [constOperand, Option.bind_eq_bind, Option.bind_eq_some_iff] at hconst
  obtain ⟨driver, hdriver, value, hvalue, hc⟩ := hconst
  obtain ⟨hm, ho⟩ := driverNode?_eq_some hdriver
  have hkind : driver.kind = .const value := by
    cases hk : driver.kind <;> rw [hk] at hvalue <;> cases hvalue
    rfl
  have hsignal : v f.signal = (n.width f.signal).truncate value := by
    have hresult := hv.node driver hm
    simp only [Valuation.result, hkind, ho, Option.some.injEq] at hresult
    exact hresult.symm
  cases hc
  rw [Valuation.seen, hsignal, Width.complement_of_truncate]

/-- The value of a kind with a function of its own is the result of a node of the kind. -/
theorem result_of_apply
    (h : node.kind.apply (node.fanins.map (v.seen n)) (n.width node.output) = .ok x) :
    v.result n cells node = some x := by
  rw [Valuation.result]
  cases hkind : node.kind with
  | op op =>
    rw [hkind, Kind.apply] at h
    dsimp only
    rw [Operator.value, h]
  | const value =>
    rw [hkind, Kind.apply] at h
    cases h
    rfl
  | module name =>
    rw [hkind] at h
    cases h
  | cell name init =>
    rw [hkind] at h
    cases h

/-- A change keeps every solution. -/
theorem Becomes.entails (hl : n.Legal) (hc : n.Coherent) (hm : node ∈ n.nodes)
    (h : Becomes n node kind used) : Entails n (n.updateNode node.id kind used) := by
  intro cells given v hv
  obtain ⟨op, hop, -, -⟩ := fold_become (hl.arity node hm) h
  have hyields := fold_yields (constOperand_seen hv) hop (n.width node.output)
  have hold : v.result n cells node =
      some (op.value (node.fanins.map (v.seen n)) (n.width node.output)) := by
    rw [Valuation.result, hop]
  rw [Becomes] at h
  rw [h, Option.some.inj (hold.symm.trans (hv.node node hm))] at hyields
  refine ⟨hv.input, fun m hm' => ?_⟩
  rcases (hc.mem_nodes_updateNode hm).1 hm' with rfl | ⟨hm', -⟩
  · exact result_of_apply hyields
  · exact hv.node m hm'

end Solutions

end Folding

namespace Netlist

variable {n : Netlist}

/-- Folding constants keeps the function of a netlist: without `strict` it succeeds, with nothing
left to fold, and leaves a netlist that puts out the same, in which every node has its identifier and
its output. -/
theorem foldConstants_reproduces (hc : n.Coherent) (hv : n.validate = .ok ()) :
    ∃ n' outcome, n.foldConstants false = (n', .ok outcome) ∧
      (∀ node ∈ n'.nodes, ∀ kind used, ¬ Folding.Becomes n' node kind used) ∧ n'.Reproduces n ∧
      (n'.nodes.map fun node => (node.id, node.output)) =
        n.nodes.map fun node => (node.id, node.output) := by
  have hl := hc.legal_of_validate hv
  obtain ⟨n', outcome, hon, hfold⟩ := hl.foldConstants_foldsOn hc
  have hentails : Folding.KeptByChanges fun m _ => Entails n m :=
    fun _ _ _ _ _ hmc hml h hm hbecomes => h.trans (hbecomes.entails hml hmc hm)
  have hnames : Folding.KeptByChanges fun m _ =>
      (m.nodes.map fun node => (node.id, node.output)) =
        n.nodes.map fun node => (node.id, node.output) := by
    intro m c node kind used hmc _ h hm _
    obtain ⟨before, after, hnodes, -, hupdate⟩ := exists_split (hmc.node?_of_mem hm)
    rw [← h, hupdate, hnodes, List.map_append, List.map_append, List.map_cons, List.map_cons]
  obtain ⟨_, hentails, -⟩ := hl.foldConstants_holds hc false hentails (.refl n)
  obtain ⟨_, hnames, -⟩ := hl.foldConstants_holds hc false hnames rfl
  have hp : Preserved n (n.foldConstants false).1 := hl.foldConstants_preserved hc
  rw [hfold] at hentails hnames hp
  exact ⟨n', outcome, hfold, fun node hm kind used => hon.exhausted hc hl hm,
    hentails.holds.reproduces hp hl hc, hnames.holds⟩

end Netlist

namespace MixedWidths

/-- Gates of two to four bits around the literal twelve, which is read as it is and inverted, and a
cell. -/
def netlist : Netlist where
  name := "mixed"
  inputs := ["a"]
  outputs := ["u", "y"]
  widths := ⟨[("a", 4), ("k", 4), ("s", 2), ("t", 3), ("z", 4), ("u", 3), ("y", 2)].map
    (Prod.map id fun bits => (Width.ofNat? bits).getD .one)⟩
  arena := [some ⟨⟨0⟩, .const 12, [], "k"⟩,
    some ⟨⟨1⟩, .op .and, [.plain "a", ⟨"k", true⟩], "s"⟩,
    some ⟨⟨2⟩, .op .mux, [.plain "s", .plain "a", .plain "k"], "t"⟩,
    some ⟨⟨3⟩, .op .sub, [.plain "k", .plain "k"], "z"⟩,
    some ⟨⟨4⟩, .op .nor, [.plain "z", .plain "t"], "u"⟩,
    some ⟨⟨5⟩, .cell "PASS" none, [⟨"s", true⟩], "y"⟩]
  wires := [⟨"a", ⟨1⟩, 0⟩, ⟨"k", ⟨1⟩, 1⟩, ⟨"s", ⟨2⟩, 0⟩, ⟨"a", ⟨2⟩, 1⟩, ⟨"k", ⟨2⟩, 2⟩, ⟨"k", ⟨3⟩, 0⟩,
    ⟨"k", ⟨3⟩, 1⟩, ⟨"z", ⟨4⟩, 0⟩, ⟨"t", ⟨4⟩, 1⟩, ⟨"s", ⟨5⟩, 0⟩]
  nextFresh := 0

/-- The cell hands its operand on. -/
def cells : CellFunctions := fun name _ operands _ => if name = "PASS" then operands.head? else none

theorem coherent : netlist.Coherent := by
  refine ⟨fun {i node} h => ?_, by decide, by decide, by decide⟩
  match i, h with
  | 0, h | 1, h | 2, h | 3, h | 4, h | 5, h =>
    cases h
    rfl

theorem valid : netlist.validate = .ok () := by
  rw [Netlist.validate_of_derived (by decide)]
  decide

theorem folded : (netlist.foldConstants false).2 = .ok ⟨4, []⟩ := by cbv

end MixedWidths

/-- The inverted literal has all bits of the first gate, so the gate becomes a buffer; the difference
becomes zero, and the last gate an inverter. -/
theorem foldConstants_reproduces_mixedWidths :
    MixedWidths.netlist.Coherent ∧ MixedWidths.netlist.validate = .ok () ∧
      ∃ n', MixedWidths.netlist.foldConstants false = (n', .ok ⟨4, []⟩) ∧
        ∃ e, Evaluator.ofNetlist n' MixedWidths.cells = .ok e ∧
          e.evaluate ⟨[("a", 13)]⟩ = .ok [("u", 2), ("y", 2)] := by
  obtain ⟨n', outcome, hfold, -, hreproduces, -⟩ :=
    Netlist.foldConstants_reproduces MixedWidths.coherent MixedWidths.valid
  have houtcome := MixedWidths.folded
  rw [hfold] at houtcome
  cases houtcome
  refine ⟨MixedWidths.coherent, MixedWidths.valid, n', hfold, ?_⟩
  exact hreproduces _ ⟨MixedWidths.netlist, [⟨0⟩, ⟨1⟩, ⟨2⟩, ⟨3⟩, ⟨4⟩, ⟨5⟩], MixedWidths.cells⟩ _ _
    rfl (by decide)

end GateSynth
