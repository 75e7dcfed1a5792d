import GateSynth.Proofs.Verilog.Building

/-!
# Lowering expressions

`lower` builds nodes for an expression and returns a fanin that carries its value at the width that
was asked for (`lower_yields`), in every scope whose names stand for signals of their declared
widths (`Scope.Fits`). The proof is by induction on the expression, with one statement for each of
its forms; parts side by side are joined from the most significant one on.
-/

namespace GateSynth.Verilog.Elaborate

open Netlist

/-! ## The names of a scope -/

/-- What a name stands for carries its value. -/
def Scope.value (scope : Scope) (N : Netlist) (v : Valuation) (name : String) : Nat :=
  match scope.read name 0 with
  | .ok f => (v.seen N f).toNat
  | .error _ => 0

/-- Every name of the scope stands for a signal of its declared width. -/
def Scope.Fits (scope : Scope) (n : Netlist) : Prop :=
  ∀ ⦃name line f⦄, scope.read name line = .ok f →
    n.isTaken f.signal = true ∧ ∃ d, scope.module.decl? name = some d ∧ n.width f.signal = d.width

section
variable {scope : Scope} {n n' : Netlist} {name : String} {line : Nat} {f : Fanin}

theorem Scope.Fits.mono (h : scope.Fits n) (hn : Later n n') : scope.Fits n' := by
  intro name line f hread
  obtain ⟨htaken, d, hd, hw⟩ := h hread
  exact ⟨hn.taken _ htaken, d, hd, by rw [hn.width _ htaken, hw]⟩

/-- The line of a name only matters to its error. -/
theorem Scope.read_line (h : scope.read name line = .ok f) (line' : Nat) :
    scope.read name line' = .ok f := by
  rw [Scope.read] at h ⊢
  split at h
  · exact h
  · exact h
  · split at h
    · next hd => rw [if_pos hd]; exact h
    · cases h

theorem Scope.value_of_read (h : scope.read name line = .ok f) (N : Netlist) (v : Valuation) :
    scope.value N v name = (v.seen N f).toNat := by
  rw [Scope.value, Scope.read_line h 0]

theorem Scope.value_lt {N : Netlist} {cells : CellFunctions} {v : Valuation} (h : scope.Fits n)
    (hN : Later n N) (hv : Satisfies N cells v) (name : String) :
    scope.value N v name < span (scope.bits name) := by
  rw [Scope.value]
  split
  · next f hread =>
    obtain ⟨htaken, d, hd, hw⟩ := h hread
    have hlt := hv.seen_lt f
    rw [hN.width _ htaken, hw] at hlt
    rw [Scope.bits, Module.bits_of_decl? hd]
    exact hlt
  · exact span_pos _

/-- What is driven under a name is read under it. -/
theorem Scope.read_of_dest {d : String} (h : scope.dest name line = .ok d) :
    scope.read name line = .ok (.plain d) := by
  rw [Scope.dest] at h
  rw [Scope.read]
  split at h
  · cases h
  · cases h
    rfl
  · split at h
    · next decl hd =>
      split at h
      · cases h
      · cases h
        rw [hd]
        rfl
    · cases h

end

/-! ## Forms of expressions -/

/-- Lowering an expression yields its value at every width that holds it. -/
def Lowers (scope : Scope) (site : Site) (e : Expr) : Prop :=
  ∀ ⦃n n' w own dest f⦄, scope.Fits n → Ready n dest → selfWidth scope site e = .ok own →
    own.bits ≤ w.bits → (lower scope site e w dest).run n = .ok (f, n') →
    Yields n n' f dest fun N v => e.value scope.bits (scope.value N v) w.bits

section
variable {scope : Scope} {site : Site} {n n' : Netlist} {w own : Width} {dest : Option String}
  {f a b : Fanin} {x y : Netlist → Valuation → Nat}

/-- Lowering without a destination makes the value known. -/
theorem Lowers.knows {e : Expr} (he : Lowers scope site e) (hfits : scope.Fits n)
    (hown : selfWidth scope site e = .ok own) (hle : own.bits ≤ w.bits)
    (h : (lower scope site e w none).run n = .ok (f, n')) :
    Extends Computed Flat n n' ∧
      Knows n' f (fun N v => e.value scope.bits (scope.value N v) w.bits) w.bits := by
  have hyields := he hfits (.none n) hown hle h
  refine ⟨hyields.grows, hyields.knows fun hN hv => ?_⟩
  exact Expr.value_lt (Scope.value_lt hfits hN hv) e (ownBits_of_selfWidth e hown ▸ hle)

theorem lowers_ident (name : String) (pos : Position) : Lowers scope site (.ident name pos) := by
  intro n n' w own dest f hfits _ _ _ h
  rw [lower_ident] at h
  obtain ⟨hread, rfl⟩ := run_of_lift h
  refine ⟨.refl n, (hfits hread).1, fun {N cells v} _ _ => .inl ?_⟩
  rw [Expr.value, Scope.value_of_read hread]

theorem lowers_number (size : Option Nat) (value : Word) :
    Lowers scope site (.number size value) := by
  intro n n' w own dest f _ hdest _ _ h
  rw [lower_number] at h
  refine (emit_yields h hdest trivial fun {N cells v} _ _ => ?_).1
  rw [Expr.value]
  refine ⟨Nat.mod_lt _ w.values_pos, fun w' _ => ?_⟩
  simp only [valueAt, Width.toNat_truncate, Width.values_eq_span]

theorem lowers_select (name : String) (msb lsb : Nat) (pos : Position) :
    Lowers scope site (.select name msb lsb pos) := by
  intro n n' w own dest f hfits hdest hown _ h
  have hbits := ownBits_of_selfWidth _ hown
  rw [Expr.ownBits] at hbits
  rw [lower] at h
  obtain ⟨base, hread, h⟩ := run_of_lift_bind h
  obtain ⟨selected, hselected, h⟩ := run_of_lift_bind h
  obtain rfl : own = selected := by simpa [hown] using hselected
  obtain ⟨htaken, d, hd, hwidth⟩ := hfits hread
  have hlt : ∀ {N cells v}, Later n N → Satisfies N cells v →
      scope.value N v name < span d.width.bits := fun {N cells v} hN hv => by
    have := Scope.value_lt hfits hN hv name
    rwa [Scope.bits, Module.bits_of_decl? hd] at this
  split at h
  · next hlsb =>
    have hdiv : ∀ x, x / span lsb = x := fun x => by rw [hlsb]; exact Nat.div_one x
    obtain ⟨declared, hdeclared, h⟩ := run_of_lift_bind h
    obtain ⟨d', hd', hw, -⟩ := Scope.width_eq_ok hdeclared
    obtain rfl : d = d' := by simpa [hd] using hd'
    split at h
    · next heq =>
      -- all bits of the signal
      cases h
      refine ⟨.refl n, htaken, fun {N cells v} hN hv => .inl ?_⟩
      have hvalue := hlt hN hv
      rw [hw, ← heq, hbits] at hvalue
      rw [Expr.value, ← Scope.value_of_read hread N v, hdiv, Nat.mod_eq_of_lt hvalue]
    · refine (emit_yields h hdest trivial fun {N cells v} _ _ => ?_).1
      rw [Expr.value, ← hbits, hdiv]
      refine ⟨Nat.mod_lt _ own.values_pos, fun w' hw' => ?_⟩
      simp only [valueAt, List.map_cons, List.map_nil, Operator.toNat_value_buf,
        ← Scope.value_of_read hread N v]
      exact (Nat.mod_mod_of_dvd _ (Width.values_dvd_values hw')).symm
  · obtain ⟨shift, m, hshift, h⟩ := run_of_bind h
    obtain ⟨hgrows, hshift⟩ := powerConstant_knows hshift
    refine ((emit_yields h (hdest.mono hgrows.later) trivial fun {N cells v} hN hv => ?_).1).after
      hgrows
    rw [Expr.value, ← hbits]
    refine ⟨Nat.mod_lt _ own.values_pos, fun w' hw' => ?_⟩
    simp only [valueAt, List.map_cons, List.map_nil, Operator.toNat_value_div,
      ← Scope.value_of_read hread N v, (hshift.2 hN hv).1]
    exact (Nat.mod_mod_of_dvd _ (Width.values_dvd_values hw')).symm

theorem lowers_not {inner : Expr} (hinner : Lowers scope site inner) :
    Lowers scope site (.unary .not inner) := by
  intro n n' w own dest f hfits hdest hown hle h
  rw [selfWidth] at hown
  rw [lower] at h
  obtain ⟨value, m, hvalue, h⟩ := run_of_bind h
  obtain ⟨hgrows, hknows⟩ := hinner.knows hfits hown hle hvalue
  obtain ⟨hyields, -⟩ := invert_yields (hdest.mono hgrows.later) hknows h
  refine (hyields.congr fun {N cells v} hN hv => ?_).after hgrows
  rw [Expr.value, Nat.mod_eq_of_lt (hknows.2 hN hv).2, w.values_eq_span]

theorem lowers_logicNot {inner : Expr} (hinner : Lowers scope site inner) :
    Lowers scope site (.unary .logicNot inner) := by
  intro n n' w own dest f hfits hdest _ _ h
  rw [lower] at h
  obtain ⟨innerWidth, hwidth, h⟩ := run_of_lift_bind h
  obtain ⟨value, m, hvalue, h⟩ := run_of_bind h
  obtain ⟨hgrows, hknows⟩ := hinner.knows hfits hwidth (Nat.le_refl _) hvalue
  obtain ⟨hyields, -⟩ := isZero_yields (hdest.mono hgrows.later) hknows h
  refine (hyields.congr fun {N cells v} _ _ => ?_).after hgrows
  rw [Expr.value, ownBits_of_selfWidth inner hwidth]

/-- The truth value of an expression at its own width. -/
theorem truth_lower {e : Expr} (he : Lowers scope site e) (hfits : scope.Fits n)
    (hown : selfWidth scope site e = .ok own) {m : Netlist}
    (hlower : (lower scope site e own none).run n = .ok (a, m))
    (h : (truth site a own).run m = .ok (f, n')) :
    Extends Computed Flat n n' ∧ Knows n' f (fun N v =>
      (decide (e.value scope.bits (scope.value N v) (e.ownBits scope.bits) ≠ 0)).toNat) 1 := by
  obtain ⟨hgrows, hknows⟩ := he.knows hfits hown (Nat.le_refl _) hlower
  have hyields := truth_yields hknows h
  rw [ownBits_of_selfWidth e hown] at hyields
  exact ⟨hgrows.trans hyields.grows, hyields.knows fun _ _ => toNat_lt_span (Nat.le_refl 1)⟩

theorem and_toNat (b c : Bool) : b.toNat &&& c.toNat = (b && c).toNat := by
  cases b <;> cases c <;> rfl

theorem or_toNat (b c : Bool) : b.toNat ||| c.toNat = (b || c).toNat := by
  cases b <;> cases c <;> rfl

theorem lowers_logical {op : BinaryOp} {left right : Expr} (hop : op.isLogical = true)
    (hleft : Lowers scope site left) (hright : Lowers scope site right) :
    Lowers scope site (.binary op left right) := by
  intro n n' w own dest f hfits hdest _ _ h
  have hvalue : ∀ N v, (Expr.binary op left right).value scope.bits (scope.value N v) w.bits =
      (op.holds (left.value scope.bits (scope.value N v) (left.ownBits scope.bits))
        (right.value scope.bits (scope.value N v) (right.ownBits scope.bits))).toNat := by
    intro N v
    rw [Expr.value, if_pos hop]
  rw [lower_logical hop] at h
  obtain ⟨leftWidth, hleftWidth, h⟩ := run_of_lift_bind h
  obtain ⟨l, m₁, hl, h⟩ := run_of_bind h
  obtain ⟨a, m₂, ha, h⟩ := run_of_bind h
  obtain ⟨hgrows, ha⟩ := truth_lower hleft hfits hleftWidth hl ha
  obtain ⟨rightWidth, hrightWidth, h⟩ := run_of_lift_bind h
  obtain ⟨r, m₃, hr, h⟩ := run_of_bind h
  obtain ⟨b, m₄, hb, h⟩ := run_of_bind h
  obtain ⟨hgrows', hb⟩ := truth_lower hright (hfits.mono hgrows.later) hrightWidth hr hb
  have hall := hgrows.trans hgrows'
  refine ((emit_yields h (hdest.mono hall.later) trivial fun {N cells v} hN hv => ?_).1).after
    hall
  rw [hvalue]
  refine ⟨toNat_lt_span (Nat.le_refl 1), fun w' _ => ?_⟩
  have ha := (ha.2 (hgrows'.later.trans hN) hv).1
  have hb := (hb.2 hN hv).1
  cases op <;> first | (cases hop; done) | skip
  · simp only [valueAt, List.map_cons, List.map_nil, if_true, Operator.toNat_value_and, ha, hb,
      and_toNat, BinaryOp.holds]
  · simp only [valueAt, List.map_cons, List.map_nil, reduceCtorEq, if_false,
      Operator.toNat_value_or, ha, hb, or_toNat, BinaryOp.holds]

theorem lowers_compare {op : BinaryOp} {left right : Expr} (hop : op.isBoolean = true)
    (hop' : op.isLogical = false) (hleft : Lowers scope site left)
    (hright : Lowers scope site right) : Lowers scope site (.binary op left right) := by
  intro n n' w own dest f hfits hdest _ _ h
  rw [lower_comparison hop hop'] at h
  obtain ⟨leftWidth, hleftWidth, h⟩ := run_of_lift_bind h
  obtain ⟨rightWidth, hrightWidth, h⟩ := run_of_lift_bind h
  split at h
  · cases h
  · obtain ⟨a, m₁, ha, h⟩ := run_of_bind h
    obtain ⟨b, m₂, hb, h⟩ := run_of_bind h
    have hbits := bits_max leftWidth rightWidth
    obtain ⟨hgrows, ha⟩ := hleft.knows hfits hleftWidth (by omega) ha
    obtain ⟨hgrows', hb⟩ := hright.knows (hfits.mono hgrows.later) hrightWidth (by omega) hb
    have hall := hgrows.trans hgrows'
    have hyields := compare_yields hop hop' (hdest.mono hall.later) (ha.mono hgrows'.later) hb h
    refine (hyields.congr fun {N cells v} _ _ => ?_).after hall
    rw [Expr.value, if_neg (by rw [hop']; decide), if_pos hop, hbits,
      ownBits_of_selfWidth left hleftWidth, ownBits_of_selfWidth right hrightWidth]

/-- Both operands of an operator at the width of its result. -/
theorem knows_operands {left right : Expr} {op : BinaryOp} (hop : op.isBoolean = false)
    (hleft : Lowers scope site left) (hright : Lowers scope site right) (hfits : scope.Fits n)
    (hown : selfWidth scope site (.binary op left right) = .ok own) (hle : own.bits ≤ w.bits)
    {m : Netlist} (ha : (lower scope site left w none).run n = .ok (a, m))
    (hb : (lower scope site right w none).run m = .ok (b, n')) :
    Extends Computed Flat n n' ∧
      Knows n' a (fun N v => left.value scope.bits (scope.value N v) w.bits) w.bits ∧
      Knows n' b (fun N v => right.value scope.bits (scope.value N v) w.bits) w.bits := by
  rw [selfWidth, if_neg (by rw [hop]; decide)] at hown
  obtain ⟨leftWidth, hleftWidth, hown⟩ := ok_of_bind hown
  obtain ⟨rightWidth, hrightWidth, hown⟩ := ok_of_bind hown
  cases hown
  rw [bits_max] at hle
  obtain ⟨hgrows, ha⟩ := hleft.knows hfits hleftWidth (by omega) ha
  obtain ⟨hgrows', hb⟩ := hright.knows (hfits.mono hgrows.later) hrightWidth (by omega) hb
  exact ⟨hgrows.trans hgrows', ha.mono hgrows'.later, hb⟩

/-- An operator node computes its operator, at every width up to that of the operands. -/
theorem toNat_value_operatorKind {op : BinaryOp} (hop : op.isBoolean = false) (hxnor : op ≠ .xnor)
    {w' : Width} (hw : w'.bits ≤ w.bits) (x y : Word) :
    ((operatorKind op).value [x, y] w').toNat = op.compute w.bits x.toNat y.toNat % w'.values := by
  have hdvd : w'.values ∣ span w.bits := Width.values_dvd_values hw
  cases op <;> first | (cases hop; done) | (exact absurd rfl hxnor) | skip
  case and =>
    rw [BinaryOp.compute, Nat.mod_mod_of_dvd _ hdvd]
    exact Operator.toNat_value_and x y w'
  case or =>
    rw [BinaryOp.compute, Nat.mod_mod_of_dvd _ hdvd]
    exact Operator.toNat_value_or x y w'
  case xor =>
    rw [BinaryOp.compute, Nat.mod_mod_of_dvd _ hdvd]
    exact Operator.toNat_value_xor x y w'
  case add =>
    rw [BinaryOp.compute, Nat.mod_mod_of_dvd _ hdvd]
    exact Operator.toNat_value_add x y w'
  case sub =>
    rw [BinaryOp.compute, Nat.mod_mod_of_dvd _ hdvd, add_neg_mod hdvd (span_pos _)]
    exact Operator.toNat_value_sub x y w'
  case mul =>
    rw [BinaryOp.compute, Nat.mod_mod_of_dvd _ hdvd]
    exact Operator.toNat_value_mul x y w'
  case div => exact Operator.toNat_value_div x y w'

theorem value_arithmetic {op : BinaryOp} (hop : op.isBoolean = false) (left right : Expr)
    (bits env : String → Nat) (w : Nat) :
    (Expr.binary op left right).value bits env w =
      op.compute w (left.value bits env w) (right.value bits env w) := by
  rw [Expr.value, if_neg (by rw [BinaryOp.not_isLogical hop]; decide), if_neg (by rw [hop]; decide)]

theorem lowers_arithmetic {op : BinaryOp} {left right : Expr} (hop : op.isBoolean = false)
    (hxnor : op ≠ .xnor) (hleft : Lowers scope site left) (hright : Lowers scope site right) :
    Lowers scope site (.binary op left right) := by
  intro n n' w own dest f hfits hdest hown hle h
  rw [lower_arithmetic hop hxnor] at h
  obtain ⟨a, m₁, ha, h⟩ := run_of_bind h
  obtain ⟨b, m₂, hb, h⟩ := run_of_bind h
  obtain ⟨hgrows, ha, hb⟩ := knows_operands hop hleft hright hfits hown hle ha hb
  refine ((emit_yields h (hdest.mono hgrows.later) trivial fun {N cells v} hN hv => ?_).1).after
    hgrows
  obtain ⟨ha, hlt⟩ := ha.2 hN hv
  rw [value_arithmetic hop]
  refine ⟨BinaryOp.compute_lt hlt, fun w' hw' => ?_⟩
  simp only [valueAt, List.map_cons, List.map_nil, toNat_value_operatorKind hop hxnor hw', ha,
    (hb.2 hN hv).1]

theorem lowers_xnor {left right : Expr} (hleft : Lowers scope site left)
    (hright : Lowers scope site right) : Lowers scope site (.binary .xnor left right) := by
  intro n n' w own dest f hfits _ hown hle h
  rw [lower_xnor] at h
  obtain ⟨a, m₁, ha, h⟩ := run_of_bind h
  obtain ⟨b, m₂, hb, h⟩ := run_of_bind h
  obtain ⟨g, m₃, hg, h⟩ := run_of_bind h
  cases h
  obtain ⟨hgrows, ha, hb⟩ := knows_operands rfl hleft hright hfits hown hle ha hb
  obtain ⟨hyields, hwidth⟩ := emit_yields (x := fun N v =>
    (left.value scope.bits (scope.value N v) w.bits ^^^
      right.value scope.bits (scope.value N v) w.bits) % span w.bits) hg (.none _) trivial
    fun {N cells v} hN hv => by
      refine ⟨Nat.mod_lt _ (span_pos _), fun w' hw' => ?_⟩
      simp only [valueAt, List.map_cons, List.map_nil, Operator.toNat_value_xor, (ha.2 hN hv).1,
        (hb.2 hN hv).1]
      exact (Nat.mod_mod_of_dvd _ (Width.values_dvd_values hw')).symm
  refine ((hyields.complement (hwidth rfl) dest).congr fun {N cells v} _ _ => ?_).after hgrows
  rw [value_arithmetic rfl, BinaryOp.compute, w.values_eq_span]

theorem lowers_ternary {condition yes no : Expr} (hcondition : Lowers scope site condition)
    (hyes : Lowers scope site yes) (hno : Lowers scope site no) :
    Lowers scope site (.ternary condition yes no) := by
  intro n n' w own dest f hfits hdest hown hle h
  rw [selfWidth] at hown
  obtain ⟨yesWidth, hyesWidth, hown⟩ := ok_of_bind hown
  obtain ⟨noWidth, hnoWidth, hown⟩ := ok_of_bind hown
  cases hown
  rw [bits_max] at hle
  rw [lower] at h
  obtain ⟨conditionWidth, hwidth, h⟩ := run_of_lift_bind h
  obtain ⟨select, m₁, hselect, h⟩ := run_of_bind h
  obtain ⟨d1, m₂, hd1, h⟩ := run_of_bind h
  obtain ⟨d0, m₃, hd0, h⟩ := run_of_bind h
  obtain ⟨hgrows₁, hselect⟩ := hcondition.knows hfits hwidth (Nat.le_refl _) hselect
  obtain ⟨hgrows₂, hd1⟩ := hyes.knows (hfits.mono hgrows₁.later) hyesWidth (by omega) hd1
  have hgrows₁₂ := hgrows₁.trans hgrows₂
  obtain ⟨hgrows₃, hd0⟩ := hno.knows (hfits.mono hgrows₁₂.later) hnoWidth (by omega) hd0
  have hall := hgrows₁₂.trans hgrows₃
  refine ((emit_yields h (hdest.mono hall.later) trivial fun {N cells v} hN hv => ?_).1).after hall
  obtain ⟨hd1, hlt1⟩ := hd1.2 (hgrows₃.later.trans hN) hv
  obtain ⟨hd0, hlt0⟩ := hd0.2 hN hv
  have hselect := (hselect.2 ((hgrows₂.trans hgrows₃).later.trans hN) hv).1
  rw [ownBits_of_selfWidth condition hwidth] at hselect
  rw [Expr.value]
  refine ⟨?_, fun w' hw' => ?_⟩
  · split
    · exact hlt0
    · exact hlt1
  · simp only [valueAt, List.map_cons, List.map_nil, Operator.toNat_value_mux, hselect, hd0, hd1]

/-! ## Parts side by side -/

/-- A value is moved up by a multiplication and another one put below it. -/
theorem join_yields {total partWidth : Width} {factor shifted value : Fanin} {m₁ m₂ : Netlist}
    (htotal : total.bits = w.bits + partWidth.bits)
    (hdest : Ready n dest) (hhigh : Knows n a x w.bits) (hvalue : Knows n value y partWidth.bits)
    (hfactor : (powerConstant site partWidth.bits).run n = .ok (factor, m₁))
    (hshifted : (emit site (.op .mul) [a, factor] total none).run m₁ = .ok (shifted, m₂))
    (h : (emit site (.op .or) [shifted, value] total dest).run m₂ = .ok (f, n')) :
    Yields n n' f dest fun N v => x N v * span partWidth.bits + y N v := by
  obtain ⟨hgrows, hfactor⟩ := powerConstant_knows hfactor
  have hbound : ∀ {N cells v}, Later n N → Satisfies N cells v →
      x N v * span partWidth.bits + y N v < span total.bits := fun hN hv => by
    rw [htotal]
    exact join_lt (hhigh.2 hN hv).2 (hvalue.2 hN hv).2
  have hshifted := (emit_yields (x := fun N v => x N v * span partWidth.bits) hshifted (.none m₁)
    trivial fun {N cells v} hN hv => by
      have hN' := hgrows.later.trans hN
      have := hbound hN' hv
      refine ⟨by rw [total.values_eq_span]; omega, fun w' _ => ?_⟩
      simp only [valueAt, List.map_cons, List.map_nil, Operator.toNat_value_mul,
        (hhigh.2 hN' hv).1, (hfactor.2 hN hv).1]).1
  have hall := hgrows.trans hshifted.grows
  refine ((emit_yields h (hdest.mono hall.later) trivial fun {N cells v} hN hv => ?_).1).after hall
  have hN' := hall.later.trans hN
  refine ⟨hbound hN' hv, fun w' _ => ?_⟩
  obtain ⟨hseen, hlow⟩ := hvalue.2 hN' hv
  simp only [valueAt, List.map_cons, List.map_nil, Operator.toNat_value_or, hseen,
    (hshifted.carries hN hv).exact]
  rw [Nat.mul_comm]
  exact congrArg (· % w'.values) (Nat.two_pow_add_eq_or_of_lt hlow _).symm

theorem lowerParts_yields {parts : List Expr} (hparts : ∀ part ∈ parts, Lowers scope site part)
    (hfits : scope.Fits n) (hdest : Ready n dest) {high : Fanin} {total : Width}
    {x : Netlist → Valuation → Nat} (hhigh : Knows n high x total.bits)
    (h : (lowerParts scope site parts high total dest).run n = .ok (f, n')) :
    Yields n n' f dest fun N v => Expr.joined scope.bits (scope.value N v) (x N v) parts := by
  induction parts generalizing n high total x with
  | nil =>
    rw [lowerParts] at h
    cases h
    refine ⟨.refl _, hhigh.1, fun {N cells v} hN hv => .inl ?_⟩
    rw [Expr.joined]
    exact (hhigh.2 hN hv).1
  | cons part rest ih =>
    obtain ⟨hpart, hrest⟩ := List.forall_mem_cons.1 hparts
    rw [lowerParts] at h
    obtain ⟨partWidth, hpartWidth, h⟩ := run_of_lift_bind h
    obtain ⟨value, m₁, hvalue, h⟩ := run_of_bind h
    obtain ⟨factor, m₂, hfactor, h⟩ := run_of_bind h
    obtain ⟨total', htotal, h⟩ := run_of_lift_bind h
    obtain ⟨shifted, m₃, hshifted, h⟩ := run_of_bind h
    obtain ⟨joined, m₄, hjoined, h⟩ := run_of_bind h
    have htotalBits := checkedWidth_eq_ok htotal
    have hbits := ownBits_of_selfWidth part hpartWidth
    obtain ⟨hgrows, hvalue⟩ := hpart.knows hfits hpartWidth (Nat.le_refl _) hvalue
    have hdest' : Ready m₁ (if rest.isEmpty then dest else none) := by
      split
      · exact hdest.mono hgrows.later
      · exact .none m₁
    have hyields := (join_yields htotalBits hdest' (hhigh.mono hgrows.later) hvalue hfactor
      hshifted hjoined).after hgrows
    simp only [Expr.joined, ← hbits]
    cases rest with
    | nil =>
      rw [lowerParts] at h
      cases h
      simp only [Expr.joined]
      exact hyields
    | cons next rest =>
      -- only the last part may drive the destination
      have hknows : Knows m₄ joined _ total'.bits := hyields.knows fun hN hv => by
        rw [htotalBits]
        exact join_lt (hhigh.2 hN hv).2 (hbits ▸ Expr.value_lt (Scope.value_lt hfits hN hv) part
          (Nat.le_refl _))
      have hlater := hyields.grows.later
      exact (ih hrest (hfits.mono hlater) (hdest.mono hlater) hknows h).after hyields.grows

theorem lowers_concat {parts : List Expr} (hparts : ∀ part ∈ parts, Lowers scope site part) :
    Lowers scope site (.concat parts) := by
  intro n n' w own dest f hfits hdest _ _ h
  unfold lower at h
  obtain ⟨_, _, h⟩ := run_of_lift_bind h
  cases parts with
  | nil => cases h
  | cons first rest =>
    obtain ⟨hfirst, hrest⟩ := List.forall_mem_cons.1 hparts
    obtain ⟨firstWidth, hfirstWidth, h⟩ := run_of_lift_bind h
    obtain ⟨high, m, hhigh, h⟩ := run_of_bind h
    obtain ⟨hgrows, hknows⟩ := hfirst.knows hfits hfirstWidth (Nat.le_refl _) hhigh
    have hlater := hgrows.later
    have hyields := lowerParts_yields hrest (hfits.mono hlater) (hdest.mono hlater) hknows h
    refine (hyields.congr fun {N cells v} _ _ => ?_).after hgrows
    rw [Expr.value, Expr.joined, Nat.zero_mul, Nat.zero_add, ownBits_of_selfWidth first hfirstWidth]

mutual

/-- Every expression is lowered to its value. -/
theorem lowers (scope : Scope) (site : Site) : ∀ e : Expr, Lowers scope site e
  | .ident name pos => lowers_ident name pos
  | .number size value => lowers_number size value
  | .select name msb lsb pos => lowers_select name msb lsb pos
  | .concat parts => lowers_concat (lowers_parts scope site parts)
  | .unary .not inner => lowers_not (lowers scope site inner)
  | .unary .logicNot inner => lowers_logicNot (lowers scope site inner)
  | .binary op left right => by
    have hleft := lowers scope site left
    have hright := lowers scope site right
    cases op using BinaryOp.byClass with
    | logical op hop => exact lowers_logical hop hleft hright
    | comparison op hop hop' => exact lowers_compare hop hop' hleft hright
    | xnor => exact lowers_xnor hleft hright
    | arithmetic op hop hxnor => exact lowers_arithmetic hop hxnor hleft hright
  | .ternary condition yes no =>
    lowers_ternary (lowers scope site condition) (lowers scope site yes) (lowers scope site no)

theorem lowers_parts (scope : Scope) (site : Site) :
    ∀ (parts : List Expr), ∀ part ∈ parts, Lowers scope site part
  | [] => List.forall_mem_nil _
  | first :: rest => List.forall_mem_cons.2 ⟨lowers scope site first, lowers_parts scope site rest⟩

end

end

end GateSynth.Verilog.Elaborate
