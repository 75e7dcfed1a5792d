import GateSynth.Proofs.Verilog.CutWidths
import GateSynth.Proofs.Verilog.Elaboration

/-!
# Terminals of gates

The terminals of a gate are computed at the width of its output and no wider, where an assignment
computes its expression at the wider of the two. So a buffer gives its output the expression cut
to that width (`buf_spec`), which is what an assignment gives it where the width holds the expression
or no division sees what is cut off.
-/

namespace GateSynth.Verilog

namespace Elaborate

open Netlist

/-! ## Forms of expressions -/

/-- Lowering an expression on a new signal yields the value computed at the width, whether this
holds the expression or not. -/
def Cuts (scope : Scope) (site : Site) (e : Expr) : Prop :=
  ∀ ⦃n n' w f⦄, scope.Fits n → (lower scope site e w none).run n = .ok (f, n') →
    Yields n n' f none fun N v => e.cut scope.bits (scope.value N v) w.bits

section
variable {scope : Scope} {site : Site} {k n n' : Netlist} {w : Width} {f g : Fanin}
  {x : Netlist → Valuation → Nat}

/-- An expression that is lowered at its own width, whatever the width around it. -/
theorem cuts_of_sized {e : Expr}
    (hown : ∀ {w n n' f}, (lower scope site e w none).run n = .ok (f, n') →
      ∃ own, selfWidth scope site e = .ok own)
    (hlower : ∀ w w', lower scope site e w none = lower scope site e w' none)
    (hvalue : ∀ bits env w w', e.cut bits env w = e.value bits env w') : Cuts scope site e := by
  intro n n' w f hfits h
  obtain ⟨own, hown⟩ := hown h
  rw [hlower w own] at h
  refine (lowers scope site e hfits (.none n) hown (Nat.le_refl _) h).congr fun _ _ => ?_
  exact (hvalue _ _ _ _).symm

theorem cuts_ident (name : String) (pos : Position) : Cuts scope site (.ident name pos) := by
  intro n n' w f hfits h
  rw [lower_ident] at h
  obtain ⟨hread, rfl⟩ := run_of_lift h
  refine ⟨.refl n, (hfits hread).1, fun {N cells v} _ _ => .inl ?_⟩
  rw [Expr.cut, Scope.value_of_read hread]

theorem cuts_number (size : Option Nat) (value : Word) : Cuts scope site (.number size value) := by
  intro n n' w f _ h
  rw [lower_number] at h
  refine (emit_yields h (.none n) trivial fun {N cells v} _ _ => ?_).1
  rw [Expr.cut]
  refine ⟨Nat.mod_lt _ w.values_pos, fun w' _ => ?_⟩
  simp only [valueAt, Width.toNat_truncate, Width.values_eq_span]

theorem cuts_select (name : String) (msb lsb : Nat) (pos : Position) :
    Cuts scope site (.select name msb lsb pos) := by
  refine cuts_of_sized (fun h => ?_) (fun w w' => ?_) fun bits env w w' => ?_
  · rw [lower] at h
    obtain ⟨_, _, h⟩ := run_of_lift_bind h
    obtain ⟨own, hown, -⟩ := run_of_lift_bind h
    exact ⟨own, hown⟩
  · rw [lower, lower]
  · rw [Expr.cut, Expr.value, Expr.value]

theorem cuts_concat (parts : List Expr) : Cuts scope site (.concat parts) := by
  refine cuts_of_sized (fun h => ?_) (fun w w' => ?_) fun bits env w w' => ?_
  · unfold lower at h
    obtain ⟨own, hown, -⟩ := run_of_lift_bind h
    exact ⟨own, hown⟩
  · unfold lower
    rfl
  · rw [Expr.cut, Expr.value, Expr.value]

theorem cuts_logicNot (inner : Expr) : Cuts scope site (.unary .logicNot inner) := by
  refine cuts_of_sized (fun _ => ⟨.one, by rw [selfWidth]⟩) (fun w w' => ?_) fun bits env w w' => ?_
  · rw [lower, lower]
  · rw [Expr.cut, Expr.value, Expr.value]

theorem cuts_boolean {op : BinaryOp} (hop : op.isBoolean = true) (left right : Expr) :
    Cuts scope site (.binary op left right) := by
  refine cuts_of_sized (fun _ => ⟨.one, by rw [selfWidth, if_pos hop]⟩) (fun w w' => ?_)
    fun bits env w w' => ?_
  · unfold lower
    cases op <;> first | rfl | cases hop
  · rw [Expr.cut, if_pos hop, Expr.value, Expr.value, if_pos hop, if_pos hop]

/-- The complement of a value at a width that may not hold it. -/
theorem invert_cuts (hf : Yields k n f none x) (h : (invert site f w none).run n = .ok (g, n')) :
    Yields k n' g none fun N v => w.values - 1 - x N v % w.values := by
  obtain ⟨m, _, hm, h⟩ := run_of_bind h
  cases hm
  split at h
  · next hw =>
    cases h
    refine ⟨hf.grows, hf.taken, fun {N cells v} hN hv => .inl ?_⟩
    have hlt := hv.seen_lt f
    rw [hN.width _ hf.taken, hw, (hf.carries hN hv).exact] at hlt
    rw [hv.seen_negate, hN.width _ hf.taken, hw, (hf.carries hN hv).exact, Nat.mod_eq_of_lt hlt]
  · refine (emit_yields h (.none n) trivial fun {N cells v} hN hv => ?_).1.after hf.grows
    have hpos := w.values_pos
    refine ⟨by omega, fun w' hw' => ?_⟩
    have hdvd := Width.values_dvd_values hw'
    simp only [valueAt, List.map_cons, List.map_nil, Operator.toNat_value_not,
      (hf.carries hN hv).exact]
    rw [last_sub_mod w'.values_pos hdvd (Nat.mod_lt _ hpos), Nat.mod_mod_of_dvd _ hdvd]

theorem cuts_not {inner : Expr} (hinner : Cuts scope site inner) :
    Cuts scope site (.unary .not inner) := by
  intro n n' w f hfits h
  rw [lower] at h
  obtain ⟨value, m, hvalue, h⟩ := run_of_bind h
  refine (invert_cuts (hinner hfits hvalue) h).congr fun {N cells v} _ _ => ?_
  rw [Expr.cut, w.values_eq_span]

/-- Both operands of an operator at a width that may not hold them. -/
theorem cuts_operands {left right : Expr} {a b : Fanin} {m : Netlist}
    (hleft : Cuts scope site left) (hright : Cuts scope site right) (hfits : scope.Fits n)
    (ha : (lower scope site left w none).run n = .ok (a, m))
    (hb : (lower scope site right w none).run m = .ok (b, n')) :
    Extends Computed Flat n n' ∧ ∀ {N cells v}, Later n' N → Satisfies N cells v →
      (v.seen N a).toNat = left.cut scope.bits (scope.value N v) w.bits ∧
        (v.seen N b).toNat = right.cut scope.bits (scope.value N v) w.bits := by
  have ha := hleft hfits ha
  have hb := hright (hfits.mono ha.grows.later) hb
  exact ⟨ha.grows.trans hb.grows, fun hN hv =>
    ⟨(ha.carries (hb.grows.later.trans hN) hv).exact, (hb.carries hN hv).exact⟩⟩

theorem cuts_arithmetic {op : BinaryOp} {left right : Expr} (hop : op.isBoolean = false)
    (hxnor : op ≠ .xnor) (hleft : Cuts scope site left) (hright : Cuts scope site right) :
    Cuts scope site (.binary op left right) := by
  intro n n' w f hfits h
  rw [lower_arithmetic hop hxnor] at h
  obtain ⟨a, m₁, ha, h⟩ := run_of_bind h
  obtain ⟨b, m₂, hb, h⟩ := run_of_bind h
  obtain ⟨hgrows, hoperands⟩ := cuts_operands hleft hright hfits ha hb
  refine (emit_yields h (.none m₂) trivial fun {N cells v} hN hv => ?_).1.after hgrows
  obtain ⟨ha, hb⟩ := hoperands hN hv
  rw [Expr.cut, if_neg (by rw [hop]; decide)]
  refine ⟨Nat.mod_lt _ (span_pos _), fun w' hw' => ?_⟩
  simp only [valueAt, List.map_cons, List.map_nil, toNat_value_operatorKind hop hxnor hw', ha, hb]
  exact (Nat.mod_mod_of_dvd _ (Width.values_dvd_values hw')).symm

theorem cuts_xnor {left right : Expr} (hleft : Cuts scope site left)
    (hright : Cuts scope site right) : Cuts scope site (.binary .xnor left right) := by
  intro n n' w f hfits h
  rw [lower_xnor] at h
  obtain ⟨a, m₁, ha, h⟩ := run_of_bind h
  obtain ⟨b, m₂, hb, h⟩ := run_of_bind h
  obtain ⟨g, m₃, hg, h⟩ := run_of_bind h
  cases h
  obtain ⟨hgrows, hoperands⟩ := cuts_operands hleft hright hfits ha hb
  obtain ⟨hyields, hwidth⟩ := emit_yields (x := fun N v =>
    (left.cut scope.bits (scope.value N v) w.bits ^^^
      right.cut scope.bits (scope.value N v) w.bits) % span w.bits) hg (.none m₂) trivial
    fun {N cells v} hN hv => by
      obtain ⟨ha, hb⟩ := hoperands hN hv
      refine ⟨Nat.mod_lt _ (span_pos _), fun w' hw' => ?_⟩
      simp only [valueAt, List.map_cons, List.map_nil, Operator.toNat_value_xor, ha, hb]
      exact (Nat.mod_mod_of_dvd _ (Width.values_dvd_values hw')).symm
  refine ((hyields.complement (hwidth rfl) none).congr fun {N cells v} _ _ => ?_).after hgrows
  have hpos := span_pos w.bits
  rw [Expr.cut, if_neg (by decide), BinaryOp.compute, w.values_eq_span]
  exact (Nat.mod_eq_of_lt (by omega)).symm

theorem cuts_ternary {condition yes no : Expr} (hyes : Cuts scope site yes)
    (hno : Cuts scope site no) : Cuts scope site (.ternary condition yes no) := by
  intro n n' w f hfits h
  rw [lower] at h
  obtain ⟨conditionWidth, hwidth, h⟩ := run_of_lift_bind h
  obtain ⟨select, m₁, hselect, h⟩ := run_of_bind h
  obtain ⟨d1, m₂, hd1, h⟩ := run_of_bind h
  obtain ⟨d0, m₃, hd0, h⟩ := run_of_bind h
  obtain ⟨hgrows, hselect⟩ :=
    (lowers scope site condition).knows hfits hwidth (Nat.le_refl _) hselect
  obtain ⟨hgrows', hbranches⟩ := cuts_operands hyes hno (hfits.mono hgrows.later) hd1 hd0
  have hall := hgrows.trans hgrows'
  refine (emit_yields h (.none m₃) trivial fun {N cells v} hN hv => ?_).1.after hall
  obtain ⟨hd1, hd0⟩ := hbranches hN hv
  have hselect := (hselect.2 (hgrows'.later.trans hN) hv).1
  rw [ownBits_of_selfWidth condition hwidth] at hselect
  rw [Expr.cut]
  refine ⟨Nat.mod_lt _ (span_pos _), fun w' hw' => ?_⟩
  simp only [valueAt, List.map_cons, List.map_nil, Operator.toNat_value_mux, hselect, hd0, hd1]
  exact (Nat.mod_mod_of_dvd _ (Width.values_dvd_values hw')).symm

/-- Every expression is lowered to its value at the width that was asked for. -/
theorem cuts (scope : Scope) (site : Site) : ∀ e : Expr, Cuts scope site e
  | .ident name pos => cuts_ident name pos
  | .number size value => cuts_number size value
  | .select name msb lsb pos => cuts_select name msb lsb pos
  | .unary .not inner => cuts_not (cuts scope site inner)
  | .unary .logicNot inner => cuts_logicNot inner
  | .binary op left right => by
    have hleft := cuts scope site left
    have hright := cuts scope site right
    cases op using BinaryOp.byClass with
    | logical op hop => exact cuts_boolean (BinaryOp.isBoolean_of_isLogical hop) left right
    | comparison op hop => exact cuts_boolean hop left right
    | xnor => exact cuts_xnor hleft hright
    | arithmetic op hop hxnor => exact cuts_arithmetic hop hxnor hleft hright
  | .ternary _ yes no => cuts_ternary (cuts scope site yes) (cuts scope site no)
  | .concat parts => cuts_concat parts

/-! ## Buffers -/

/-- A buffer lowers its input at the width of its output and drives this. -/
theorem buf_run {i : Instance} {y : String} {pos : Position} {e : Expr} (hfits : scope.Fits n)
    (hconnections : i.connections = .positional [.ident y pos, e])
    (h : (gateInstance scope site i .buf).run n = .ok ((), n')) :
    ∃ d decl f m id, scope.dest y i.pos.line = .ok d ∧ scope.module.decl? y = some decl ∧
      n.width d = decl.width ∧ (lower scope site e decl.width none).run n = .ok (f, m) ∧
      m.addNode (.op .buf) [f] d = .ok (n', id) := by
  rw [gateInstance, positional, hconnections] at h
  obtain ⟨terminals, hterminals, h⟩ := run_of_lift_bind h
  cases hterminals
  obtain ⟨d, hd, h⟩ := run_of_lift_bind h
  obtain ⟨w, hw, h⟩ := run_of_lift_bind h
  obtain ⟨values, m₁, hvalues, h⟩ := run_of_bind h
  obtain ⟨value, m, hvalue, hvalues⟩ := run_of_bind hvalues
  cases hvalues
  obtain ⟨f, m₂, hf, h⟩ := run_of_bind h
  rw [gateOutput, if_pos (.inr rfl), if_neg (by decide)] at hf
  obtain ⟨htaken, decl, hdecl, hwidth⟩ := hfits (Scope.read_of_dest hd)
  obtain ⟨decl', hdecl', rfl, -⟩ := Scope.width_eq_ok hw
  obtain rfl : decl = decl' := by simpa [hdecl] using hdecl'
  -- the output is no wider than its width, so the buffer drives it and nothing is left to do
  have hgrows := (cuts scope site e hfits hvalue).grows
  rcases emit_run hf with ⟨hwide, -⟩ | ⟨id, d', hd', -, rfl, hadd⟩
  · have := hwide d rfl
    rw [show m₁.width d = decl.width from (hgrows.width d htaken).trans hwidth] at this
    omega
  · cases hd'
    rw [drive, if_pos ⟨rfl, rfl⟩] at h
    cases h
    exact ⟨d, decl, value, m₁, id, hd, hdecl, hwidth, hvalue, hadd⟩

/-- A buffer gives its output the value of its input computed at the width of the output. -/
theorem buf_spec {i : Instance} {y : String} {pos : Position} {e : Expr} (hfits : scope.Fits n)
    (hconnections : i.connections = .positional [.ident y pos, e])
    (h : (gateInstance scope site i .buf).run n = .ok ((), n')) :
    ∃ d, scope.module.decl? y = some d ∧ ∀ {N cells v}, Later n' N → Satisfies N cells v →
      scope.value N v y =
        e.cut scope.bits (scope.value N v) d.width.bits % span d.width.bits := by
  obtain ⟨d, decl, f, m, id, hd, hdecl, hwidth, hlower, hadd⟩ := buf_run hfits hconnections h
  have hread := Scope.read_of_dest hd
  obtain ⟨htaken, -⟩ := hfits hread
  have hyields := cuts scope site e hfits hlower
  have hkind : Computed (.op .buf) := trivial
  have hlast : Later m n' := .of_addNode hadd (hyields.grows.taken d htaken) trivial
  refine ⟨decl, hdecl, fun {N cells v} hN hv => ?_⟩
  have hmem : ⟨id, .op .buf, [f], d⟩ ∈ n'.nodes := by
    rw [nodes_of_addNode hadd]
    exact List.mem_append_right _ (.head _)
  have hout := hv.output (hN.nodes _ hmem) hkind
  have hwidth' : N.width d = decl.width := by
    rw [((hyields.grows.later.trans hlast).trans hN).width d htaken, hwidth]
  rw [Scope.value_of_read hread, Valuation.seen_plain rfl, show (Fanin.plain d).signal = d from rfl,
    hout, ← (hyields.carries (hlast.trans hN) hv).exact]
  simp only [valueAt, List.map_cons, List.map_nil, Operator.toNat_value_buf, hwidth',
    Width.values_eq_span]

end

end Elaborate

end GateSynth.Verilog
