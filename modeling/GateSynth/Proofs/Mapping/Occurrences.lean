import GateSynth.Mapping.Match
import GateSynth.Proofs.Simulation.Solutions

/-!
# Occurrences of patterns

Where a pattern occurs at a signal, it computes it. What the search does at a constant, an operator
or a module is said once (`mem_expand_const`, `mem_expand_op`, `mem_expand_module`). What an
occurrence fixes is never changed later (`Occurrence.Extends`), so the value of a pattern is that of
its signal under every occurrence that extends the one found for it, and for every solution of the
subject graph (`Occurrence.expand_sound`). A pattern with several operators is evaluated at the width
of the root throughout; this is right because below the root only nodes of that width are covered.
-/

namespace GateSynth

namespace Occurrence

variable {o o' o'' : Occurrence} {pin signal : String} {value : Word}

/-- What is fixed in the first occurrence is fixed in the same way in the second. -/
structure Extends (o o' : Occurrence) : Prop where
  pins : ∀ pin signal, o.pins.find? pin = some signal → o'.pins.find? pin = some signal
  init : ∀ value, o.init = some value → o'.init = some value

theorem Extends.refl (o : Occurrence) : o.Extends o := ⟨fun _ _ h => h, fun _ h => h⟩

theorem Extends.trans (h : o.Extends o') (h' : o'.Extends o'') : o.Extends o'' :=
  ⟨fun p s hp => h'.pins p s (h.pins p s hp), fun c hc => h'.init c (h.init c hc)⟩

theorem extends_cover (o : Occurrence) (isRoot : Bool) (id : NodeId) :
    o.Extends (o.cover isRoot id) := by
  rw [cover]
  split
  · exact .refl o
  · exact ⟨fun _ _ h => h, fun _ h => h⟩

theorem mem_bindPin : o' ∈ o.bindPin pin signal ↔ (o.pins.find? pin = some signal ∧ o' = o) ∨
    o.pins.find? pin = none ∧ o' = { o with pins := o.pins.insert pin signal } := by
  rw [bindPin]
  cases o.pins.find? pin with
  | none => simp
  | some bound => by_cases heq : bound = signal <;> simp [heq]

theorem mem_bindInit : o' ∈ o.bindInit value ↔ (o.init = some value ∧ o' = o) ∨
    o.init = none ∧ o' = { o with init := some value } := by
  rw [bindInit]
  cases o.init with
  | none => simp
  | some fixed => by_cases heq : fixed = value <;> simp [heq]

theorem bindPin_sound (h : o' ∈ o.bindPin pin signal) :
    o.Extends o' ∧ o'.pins.find? pin = some signal := by
  rcases mem_bindPin.1 h with ⟨hbound, rfl⟩ | ⟨hfree, rfl⟩
  · exact ⟨.refl _, hbound⟩
  · refine ⟨⟨fun p s hp => ?_, fun _ hc => hc⟩, Table.find?_insert_self _ _ _⟩
    rw [Table.find?_insert, if_neg, hp]
    rintro rfl
    rw [hfree] at hp
    cases hp

theorem bindInit_sound (h : o' ∈ o.bindInit value) :
    o.Extends o' ∧ o'.init = some value := by
  rcases mem_bindInit.1 h with ⟨hfixed, rfl⟩ | ⟨hopen, rfl⟩
  · exact ⟨.refl _, hfixed⟩
  · refine ⟨⟨fun _ _ hp => hp, fun c hc => ?_⟩, rfl⟩
    rw [hopen] at hc
    cases hc

/-- The pins of a list have the values of the signals that an occurrence binds them to. -/
def Values (o : Occurrence) (v : Valuation) (pinValues : Table String Word) (pins : List String) :
    Prop :=
  ∀ pin ∈ pins, ∀ signal, o.pins.find? pin = some signal → pinValues.find? pin = some (v signal)

section
variable {s : Subject} {w : Width} {isRoot : Bool} {node : Node}

/-! ## The steps of the search -/

/-- An operator stands at the driver of its signal, which below the root is absorbable and of the
width of the root. -/
theorem operatorAt?_eq_some (h : operatorAt? s w signal isRoot = some node) :
    node ∈ s.netlist.nodes ∧ node.output = signal ∧
      (isRoot = false → s.isAbsorbable signal = true ∧ s.netlist.width signal = w) := by
  rw [operatorAt?] at h
  split at h
  · next driver hdriver =>
    split at h
    · next hcond =>
      cases h
      obtain ⟨hmem, hout⟩ := Netlist.driverNode?_eq_some hdriver
      refine ⟨hmem, hout, ?_⟩
      rintro rfl
      simpa using hcond
    · cases h
  · cases h

theorem width_of_operatorAt? (h : operatorAt? s w signal isRoot = some node)
    (hroot : isRoot = true → s.netlist.width signal = w) : s.netlist.width signal = w := by
  cases isRoot with
  | true => exact hroot rfl
  | false => exact ((operatorAt?_eq_some h).2.2 rfl).2

/-- Where every signal has a single driver, an operator stands at this driver. -/
theorem operatorAt?_of_mem (hsingle : (s.netlist.nodes.map Node.output).Nodup)
    (hmem : node ∈ s.netlist.nodes)
    (hbelow : isRoot = false → s.isAbsorbable node.output = true ∧ s.netlist.width node.output = w) :
    operatorAt? s w node.output isRoot = some node := by
  rw [operatorAt?, Netlist.driverNode?_of_mem hsingle hmem]
  cases isRoot with
  | true => rfl
  | false =>
    obtain ⟨habsorb, hwidth⟩ := hbelow rfl
    simp [habsorb, hwidth]

/-- The operands in every order that is tried are those of the node. -/
theorem perm_of_operandOrders {kind : Kind} {operands signals : List String}
    (h : operands ∈ operandOrders kind signals) : operands.Perm signals := by
  unfold operandOrders at h
  split at h
  · rcases List.mem_pair.1 h with rfl | rfl
    · exact .refl _
    · exact .swap _ _ _
  · rw [List.mem_singleton.1 h]

theorem mem_expand_const : o' ∈ expand s w .const signal isRoot o ↔
    ∃ node value, operatorAt? s w signal isRoot = some node ∧ node.kind = .const value ∧
      ∃ fixed ∈ o.bindInit value, fixed.cover isRoot node.id = o' := by
  rw [expand]
  cases operatorAt? s w signal isRoot with
  | none => simp
  | some node => cases hkind : node.kind <;> simp [hkind]

theorem mem_expand_op {operator : Operator} {args : List Pattern} :
    o' ∈ expand s w (.op operator args) signal isRoot o ↔
      ∃ node operands, operatorAt? s w signal isRoot = some node ∧ node.kind = .op operator ∧
        args.length = operands.length ∧ operands ∈ operandOrders (.op operator) node.faninSignals ∧
        o' ∈ expandAll s w args operands (o.cover isRoot node.id) := by
  rw [expand]
  cases operatorAt? s w signal isRoot with
  | none => simp
  | some node =>
    have hlength : ∀ {operands}, operands ∈ operandOrders (.op operator) node.faninSignals →
        operands.length = node.fanins.length := fun horder => by
      rw [(perm_of_operandOrders horder).length_eq, Node.faninSignals, List.length_map]
    constructor
    · intro h
      dsimp only at h
      split at h
      · next hshape =>
        obtain ⟨operands, horder, h⟩ := List.mem_flatMap.1 h
        rw [hshape.1] at horder
        exact ⟨node, operands, rfl, hshape.1, by rw [hlength horder, hshape.2], horder, h⟩
      · cases h
    · rintro ⟨_, operands, ⟨⟩, hkind, hargs, horder, h⟩
      dsimp only
      rw [if_pos ⟨hkind, by rw [hargs, hlength horder]⟩, hkind]
      exact List.mem_flatMap.2 ⟨operands, horder, h⟩

theorem mem_expand_module {name : String} {args : List Pattern} :
    o' ∈ expand s w (.module name args) signal isRoot o ↔
      ∃ node, operatorAt? s w signal isRoot = some node ∧ node.kind = .module name ∧
        args.length = node.faninSignals.length ∧
        o' ∈ expandAll s w args node.faninSignals (o.cover isRoot node.id) := by
  rw [expand]
  cases operatorAt? s w signal isRoot with
  | none => simp
  | some node => simp [Node.faninSignals, eq_comm, and_assoc]

/-! ## Occurrences are sound -/

/-- An operator has the same value on every order of its operands that is tried. -/
theorem value_of_operandOrders {operator : Operator} {operands signals : List String}
    (h : operands ∈ operandOrders (.op operator) signals) (v : Valuation) (w : Width) :
    operator.value (operands.map v) w = operator.value (signals.map v) w := by
  unfold operandOrders at h
  split at h
  · next hcomm =>
    rcases List.mem_pair.1 h with rfl | rfl
    · rfl
    · exact Operator.value_comm hcomm _ _ w
  · rw [List.mem_singleton.1 h]

/-- The value of an operator in a pattern. -/
theorem eval_op {pinValues : Table String Word} {init : Option Word} {operator : Operator}
    {args : List Pattern} {operands : List Word}
    (h : Pattern.evals pinValues init w args = some operands) :
    Pattern.eval pinValues init w (.op operator args) = some (operator.value operands w) := by
  rw [Pattern.eval, h]
  rcases operator.apply_eq operands w with happly | ⟨happly, hzero⟩
  · simp only [happly]
  · simp only [happly, hzero]

variable {cells : CellFunctions} {given : GateSynth.Values} {v : Valuation}

mutual

/-- A pattern that occurs at a signal computes its value. -/
theorem expand_sound (hv : s.netlist.Solution cells given v)
    (hplain : ∀ node ∈ s.netlist.nodes, ∀ f ∈ node.fanins, f.inverted = false) :
    ∀ (p : Pattern) {signal : String} {isRoot : Bool} {o o' : Occurrence},
      o' ∈ expand s w p signal isRoot o → (isRoot = true → s.netlist.width signal = w) →
      o.Extends o' ∧ ∀ {final pinValues}, o'.Extends final → final.Values v pinValues p.pinList →
        p.eval pinValues final.init w = some (v signal)
  | .pin name, signal, isRoot, o, o', h, _ => by
    rw [expand] at h
    obtain ⟨hext, hbound⟩ := bindPin_sound h
    refine ⟨hext, fun hfinal hvalues => ?_⟩
    exact hvalues name (by simp [Pattern.pinList]) signal (hfinal.pins _ _ hbound)
  | .const, signal, isRoot, o, o', h, hroot => by
    obtain ⟨node, value, hnode, hkind, o₁, hinit, rfl⟩ := mem_expand_const.1 h
    obtain ⟨hmem, hout, -⟩ := operatorAt?_eq_some hnode
    obtain ⟨hext, hvalue⟩ := bindInit_sound hinit
    refine ⟨hext.trans (extends_cover _ _ _), fun hfinal _ => ?_⟩
    have hinit := hfinal.init value ((extends_cover _ _ _).init value hvalue)
    have hnodev := hv.node node hmem
    simp only [Valuation.result, hkind, hout, width_of_operatorAt? hnode hroot] at hnodev
    rw [Pattern.eval, hinit, ← hnodev]
    rfl
  | .op operator args, signal, isRoot, o, o', h, hroot => by
    obtain ⟨node, operands, hnode, hkind, hlength, horder, h⟩ := mem_expand_op.1 h
    obtain ⟨hmem, hout, -⟩ := operatorAt?_eq_some hnode
    obtain ⟨hext, heval⟩ := expandAll_sound hv hplain args h hlength
    refine ⟨(extends_cover _ _ _).trans hext, fun hfinal hvalues => ?_⟩
    have hnodev := hv.node node hmem
    simp only [Valuation.result, hkind, hout, width_of_operatorAt? hnode hroot,
      Valuation.map_seen_plain (hplain node hmem)] at hnodev
    rw [eval_op (heval hfinal hvalues), value_of_operandOrders horder, hnodev]
  | .module name args, signal, isRoot, o, o', h, hroot => by
    obtain ⟨node, hnode, hkind, -, -⟩ := mem_expand_module.1 h
    -- A netlist with a module on it has no solution.
    have hnodev := hv.node node (operatorAt?_eq_some hnode).1
    simp only [Valuation.result, hkind] at hnodev
    cases hnodev

/-- Patterns that occur at the signals of a list compute their values. -/
theorem expandAll_sound (hv : s.netlist.Solution cells given v)
    (hplain : ∀ node ∈ s.netlist.nodes, ∀ f ∈ node.fanins, f.inverted = false) :
    ∀ (ps : List Pattern) {signals : List String} {o o' : Occurrence},
      o' ∈ expandAll s w ps signals o → ps.length = signals.length →
      o.Extends o' ∧ ∀ {final pinValues}, o'.Extends final →
        final.Values v pinValues (Pattern.pinLists ps) →
        Pattern.evals pinValues final.init w ps = some (signals.map v)
  | [], [], o, o', h, _ => by
    rw [expandAll, List.mem_singleton] at h
    · exact ⟨h ▸ .refl o, fun _ _ => rfl⟩
    · intros; contradiction
  | p :: ps, signal :: signals, o, o', h, hlength => by
    rw [expandAll] at h
    obtain ⟨o₁, hfirst, hrest⟩ := List.mem_flatMap.1 h
    obtain ⟨hext₁, heval₁⟩ := expand_sound hv hplain p hfirst nofun
    obtain ⟨hext₂, heval₂⟩ := expandAll_sound hv hplain ps hrest (Nat.succ.inj hlength)
    refine ⟨hext₁.trans hext₂, fun hfinal hvalues => ?_⟩
    rw [Pattern.evals, heval₁ (hext₂.trans hfinal) fun q hq => hvalues q ?_,
      heval₂ hfinal fun q hq => hvalues q ?_]
    · rfl
    · exact List.mem_append_right _ hq
    · exact List.mem_append_left _ hq

end

end

end Occurrence

end GateSynth
