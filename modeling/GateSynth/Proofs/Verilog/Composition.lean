import GateSynth.Proofs.Verilog.Meaning

/-!
# Composing steps

Elaboration puts its steps together from few parts: reading the netlist, looking something up,
refusing, and adding a node. A property of steps that these parts have, and that goes through
sequences of steps, is `Composable`, and then whatever is lowered has it: see `Composable.lower` for
expressions and `Composable.gateOutput` for gates.
-/

namespace GateSynth.Verilog.Elaborate

variable {α β : Type} {dest : Option String}

/-- The property holds of the parts of elaboration and goes through sequences of steps. What it says
of a step may depend on the signal that the step drives, if there is one. -/
structure Composable (C : Option String → (α : Type) → Build α → Prop) : Prop where
  weaken : ∀ {dest : Option String} {α : Type} {step : Build α}, C none α step → C dest α step
  pure : ∀ {dest : Option String} {α : Type} (a : α), C dest α (pure a)
  throw : ∀ {dest : Option String} {α : Type} (e : SourceError), C dest α (throw e)
  lift : ∀ {dest : Option String} {α : Type} (x : Except SourceError α), C dest α (liftM x)
  get : ∀ {dest : Option String}, C dest Netlist get
  bind : ∀ {dest : Option String} {α β : Type} {step : Build α} {next : α → Build β},
    C dest α step → (∀ a, C dest β (next a)) → C dest β (step >>= next)
  operator : ∀ {dest : Option String} (site : Site) (op : Operator) (fanins : List Fanin) (w : Width),
    C dest Fanin (emit site (.op op) fanins w dest)
  literal : ∀ {dest : Option String} (site : Site) (value : Word) (w : Width),
    C dest Fanin (emit site (.const value) [] w dest)

namespace Composable

variable {C : Option String → (α : Type) → Build α → Prop}

section Parts
variable (h : Composable C)
include h

/-! ## Nodes -/

/-- An operator on a new signal. -/
theorem newOperator (site : Site) (op : Operator) (fanins : List Fanin) (w : Width) :
    C dest Fanin (emit site (.op op) fanins w none) :=
  h.weaken (h.operator site op fanins w)

theorem drive (site : Site) (d : String) (value : Fanin) (w : Width) :
    C (some d) Unit (drive site d value w) := by
  rw [Elaborate.drive]
  split
  · exact h.pure _
  · exact h.bind (h.operator _ _ _ _) fun _ => h.pure _

theorem constant (site : Site) (value : Word) (w : Width) :
    C dest Fanin (constant site value w) :=
  h.weaken (h.literal site _ w)

theorem invert (site : Site) (f : Fanin) (w : Width) (dest : Option String) :
    C dest Fanin (invert site f w dest) := by
  refine h.bind h.get fun n => ?_
  split
  · exact h.pure _
  · exact h.operator _ _ _ _

theorem maskWidth (bits : Nat) : C dest Width (maskWidth bits) := by
  rw [Elaborate.maskWidth]
  split
  · exact h.pure _
  · exact h.throw _

theorem wider (w : Width) : C dest Width (wider w) := h.maskWidth _

theorem powerConstant (site : Site) (exponent : Nat) :
    C dest Fanin (powerConstant site exponent) := by
  have hpower : C dest Word (powerOfTwo exponent) := by
    rw [powerOfTwo]
    split
    · exact h.pure _
    · exact h.throw _
  exact h.bind hpower fun _ => h.bind (h.maskWidth _) fun _ => h.constant _ _ _

theorem topBit (site : Site) (f : Fanin) (w : Width) (dest : Option String) :
    C dest Fanin (topBit site f w dest) :=
  h.bind (h.powerConstant _ _) fun _ => h.operator _ _ _ _

theorem less (site : Site) (a b : Fanin) (w : Width) (dest : Option String) :
    C dest Fanin (less site a b w dest) :=
  h.bind (h.wider w) fun _ => h.bind (h.newOperator _ _ _ _) fun _ => h.topBit _ _ _ _

theorem isZero (site : Site) (f : Fanin) (w : Width) (dest : Option String) :
    C dest Fanin (isZero site f w dest) := by
  rw [Elaborate.isZero]
  split
  · exact h.invert _ _ _ _
  · exact h.bind (h.wider w) fun _ => h.bind (h.constant _ _ _) fun _ =>
      h.bind (h.newOperator _ _ _ _) fun _ => h.topBit _ _ _ _

theorem equal (site : Site) (a b : Fanin) (w : Width) (dest : Option String) :
    C dest Fanin (equal site a b w dest) :=
  h.bind (h.newOperator _ _ _ _) fun _ => h.isZero _ _ _ _

theorem truth (site : Site) (f : Fanin) (w : Width) : C dest Fanin (truth site f w) := by
  rw [Elaborate.truth]
  split
  · exact h.pure _
  · exact h.bind (h.weaken (h.isZero _ _ _ none)) fun _ => h.pure _

theorem compare (site : Site) (op : BinaryOp) (a b : Fanin) (w : Width) (dest : Option String) :
    C dest Fanin (compare site op a b w dest) := by
  have hnegated : ∀ {step : Build Fanin}, C none Fanin step →
      C dest Fanin (do return (← step).negate) := fun hstep =>
    h.bind (h.weaken hstep) fun _ => h.pure _
  unfold Elaborate.compare
  split
  · exact h.equal _ _ _ _ _
  · exact hnegated (h.equal _ _ _ _ none)
  · exact h.less _ _ _ _ _
  · exact h.less _ _ _ _ _
  · exact hnegated (h.less _ _ _ _ none)
  · exact hnegated (h.less _ _ _ _ none)

/-! ## Expressions -/

section
variable {scope : Scope} {site : Site} {left right : Expr}

theorem binary (hleft : ∀ w dest, C dest Fanin (lower scope site left w dest))
    (hright : ∀ w dest, C dest Fanin (lower scope site right w dest)) (op : BinaryOp)
    (w : Width) (dest : Option String) :
    C dest Fanin (lower scope site (.binary op left right) w dest) := by
  have hl : ∀ w, C dest Fanin (lower scope site left w none) := fun w => h.weaken (hleft w _)
  have hr : ∀ w, C dest Fanin (lower scope site right w none) := fun w => h.weaken (hright w _)
  cases op using BinaryOp.byClass with
  | logical op hop =>
    rw [lower_logical hop]
    exact h.bind (h.lift _) fun _ => h.bind (hl _) fun _ => h.bind (h.truth _ _ _) fun _ =>
      h.bind (h.lift _) fun _ => h.bind (hr _) fun _ => h.bind (h.truth _ _ _) fun _ =>
      h.operator _ _ _ _
  | comparison op hop hop' =>
    rw [lower_comparison hop hop']
    refine h.bind (h.lift _) fun _ => h.bind (h.lift _) fun _ => ?_
    split
    · exact h.throw _
    · exact h.bind (hl _) fun _ => h.bind (hr _) fun _ => h.compare _ _ _ _ _ _
  | xnor =>
    rw [lower_xnor]
    exact h.bind (hl _) fun _ => h.bind (hr _) fun _ =>
      h.bind (h.newOperator _ _ _ _) fun _ => h.pure _
  | arithmetic op hop hxnor =>
    rw [lower_arithmetic hop hxnor]
    exact h.bind (hl _) fun _ => h.bind (hr _) fun _ => h.operator _ _ _ _

theorem parts {parts : List Expr}
    (hparts : ∀ part ∈ parts, ∀ w dest, C dest Fanin (lower scope site part w dest))
    (high : Fanin) (total : Width) (dest : Option String) :
    C dest Fanin (lowerParts scope site parts high total dest) := by
  induction parts generalizing high total with
  | nil =>
    rw [lowerParts]
    exact h.pure _
  | cons part rest ih =>
    obtain ⟨hpart, hrest⟩ := List.forall_mem_cons.1 hparts
    have hjoin : ∀ fanins w, C dest Fanin
        (emit site (.op .or) fanins w (if rest.isEmpty then dest else none)) := by
      intro fanins w
      split
      · exact h.operator _ _ _ _
      · exact h.newOperator _ _ _ _
    rw [lowerParts]
    exact h.bind (h.lift _) fun _ => h.bind (h.weaken (hpart _ none)) fun _ =>
      h.bind (h.powerConstant _ _) fun _ => h.bind (h.lift _) fun _ =>
      h.bind (h.newOperator _ _ _ _) fun _ => h.bind (hjoin _ _) fun _ => ih hrest _ _

end

end Parts

mutual

/-- Lowering an expression is composed of the parts, whether the width holds its value or not. -/
theorem lower (h : Composable C) (scope : Scope) (site : Site) :
    ∀ (e : Expr) (w : Width) (dest : Option String),
      C dest Fanin (lower scope site e w dest)
  | .ident _ _, _, _ => by
    rw [Elaborate.lower]
    exact h.lift _
  | .number _ _, _, _ => by
    rw [Elaborate.lower]
    exact h.literal _ _ _
  | .select _ _ _ _, _, _ => by
    rw [Elaborate.lower]
    refine h.bind (h.lift _) fun _ => h.bind (h.lift _) fun _ => ?_
    split
    · refine h.bind (h.lift _) fun _ => ?_
      split
      · exact h.pure _
      · exact h.operator _ _ _ _
    · exact h.bind (h.powerConstant _ _) fun _ => h.operator _ _ _ _
  | .concat parts, _, dest => by
    have hparts := h.lowerMem scope site parts
    unfold Elaborate.lower
    refine h.bind (h.lift _) fun _ => ?_
    cases parts with
    | nil => exact h.throw _
    | cons first rest =>
      obtain ⟨hfirst, hrest⟩ := List.forall_mem_cons.1 hparts
      exact h.bind (h.lift _) fun _ => h.bind (h.weaken (hfirst _ none)) fun _ =>
        h.parts hrest _ _ _
  | .unary .not inner, _, _ => by
    have hinner := h.lower scope site inner
    rw [Elaborate.lower]
    exact h.bind (h.weaken (hinner _ none)) fun _ => h.invert _ _ _ _
  | .unary .logicNot inner, _, _ => by
    have hinner := h.lower scope site inner
    rw [Elaborate.lower]
    exact h.bind (h.lift _) fun _ => h.bind (h.weaken (hinner _ none)) fun _ => h.isZero _ _ _ _
  | .binary op left right, w, dest =>
    h.binary (h.lower scope site left) (h.lower scope site right) op w dest
  | .ternary condition yes no, _, _ => by
    have hcondition := h.lower scope site condition
    have hyes := h.lower scope site yes
    have hno := h.lower scope site no
    rw [Elaborate.lower]
    exact h.bind (h.lift _) fun _ => h.bind (h.weaken (hcondition _ none)) fun _ =>
      h.bind (h.weaken (hyes _ none)) fun _ => h.bind (h.weaken (hno _ none)) fun _ =>
      h.operator _ _ _ _

theorem lowerMem (h : Composable C) (scope : Scope) (site : Site) :
    ∀ (parts : List Expr), ∀ part ∈ parts, ∀ w dest,
      C dest Fanin (Elaborate.lower scope site part w dest)
  | [] => List.forall_mem_nil _
  | first :: rest => List.forall_mem_cons.2 ⟨h.lower scope site first, h.lowerMem scope site rest⟩

end

section Lists
variable (h : Composable C)
include h

theorem lowerAll (scope : Scope) (site : Site) (w : Width) (exprs : List Expr) :
    C dest (List Fanin) (lowerAll scope site w exprs) := by
  induction exprs with
  | nil => exact h.pure _
  | cons e rest ih =>
    exact h.bind (h.weaken (h.lower scope site e w none)) fun _ => h.bind ih fun _ => h.pure _

theorem lowerEach (scope : Scope) (site : Site) (exprs : List Expr) :
    C dest (List Fanin) (lowerEach scope site exprs) := by
  induction exprs with
  | nil => exact h.pure _
  | cons e rest ih =>
    exact h.bind (h.lift _) fun w => h.bind (h.weaken (h.lower scope site e w none)) fun _ =>
      h.bind ih fun _ => h.pure _

/-! ## Gates -/

theorem joinInputs (site : Site) (gate : Gate) (w : Width) (d : String) (joined : Fanin)
    (values : List Fanin) :
    C (some d) Fanin (joinInputs site gate w d joined values) := by
  fun_induction Elaborate.joinInputs site gate w d joined values with
  | case1 joined => exact h.pure _
  | case2 joined last =>
    exact h.bind (h.weaken (h.invert _ _ _ none)) fun _ => h.operator _ _ _ _
  | case3 joined last => exact h.bind (h.pure _) fun _ => h.operator _ _ _ _
  | case4 joined value rest _ ih => exact h.bind (h.newOperator _ _ _ _) fun joined => ih joined

theorem gateOutput (site : Site) (i : Instance) (gate : Gate) (w : Width) (d : String)
    (values : List Fanin) : C (some d) Fanin (gateOutput site i gate w d values) := by
  unfold Elaborate.gateOutput
  split
  · split
    · exact h.operator _ _ _ _
    · exact h.throw _
  · split
    · exact h.joinInputs _ _ _ _ _ _
    · exact h.throw _

end Lists

end Composable

end GateSynth.Verilog.Elaborate
