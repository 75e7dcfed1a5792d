import GateSynth.Proofs.Verilog.Lowering

/-!
# Expressions at a width that is too small

`Expr.cut` is the value of an expression that is computed at a width no matter how wide the
expression itself is: literals and operators are cut to that width, names keep all their bits. Where
the width holds the expression this is its value (`Expr.cut_eq_value`). Elsewhere it may be
another number even after cutting the value to the width, since a division sees the bits that its
operands have lost. It is the same as long as no division sees an operand that depends on the width
(`Expr.cut_mod`).
-/

namespace GateSynth.Verilog

open Elaborate

/-- The value of an expression computed at a width, which may be less than its own. -/
def Expr.cut (bits env : String → Nat) (w : Nat) : Expr → Nat
  | .ident name _ => env name
  | .number _ value => value.toNat % span w
  | .select name msb lsb pos => (Expr.select name msb lsb pos).value bits env w
  | .concat parts => (Expr.concat parts).value bits env w
  | .unary .not inner => span w - 1 - inner.cut bits env w % span w
  | .unary .logicNot inner => (Expr.unary .logicNot inner).value bits env w
  | .binary op left right =>
    if op.isBoolean then (Expr.binary op left right).value bits env w
    else op.compute w (left.cut bits env w) (right.cut bits env w) % span w
  | .ternary condition yes no =>
    (if condition.value bits env (condition.ownBits bits) = 0 then no.cut bits env w
      else yes.cut bits env w) % span w

/-- Is the value the same at a width and at all greater ones? -/
def Expr.isFixed (w : Nat) : Expr → Bool
  | .ident .. | .select .. | .concat _ | .unary .logicNot _ => true
  | .number _ value => value.toNat < span w
  | .binary op _ _ => op.isBoolean
  | .unary .not _ | .ternary .. => false

/-- Do all divisions at the width of the expression have operands whose values do not depend on
it? -/
def Expr.truncates (w : Nat) : Expr → Bool
  | .unary .not inner => inner.truncates w
  | .binary op left right =>
    op.isBoolean || if op = .div then left.isFixed w && right.isFixed w
      else left.truncates w && right.truncates w
  | .ternary _ yes no => yes.truncates w && no.truncates w
  | .ident .. | .number .. | .select .. | .concat _ | .unary .logicNot _ => true

/-! ## Where the width holds the expression -/

section
variable {bits env : String → Nat}

/-- Computing an expression at a width that holds it gives its value. -/
theorem Expr.cut_eq_value (henv : ∀ name, env name < span (bits name)) :
    ∀ (e : Expr) {w : Nat}, e.ownBits bits ≤ w → e.cut bits env w = e.value bits env w
  | .ident .., _, _ | .number .., _, _ => by
    rw [cut, value]
  | .select .., _, _ | .concat _, _, _ | .unary .logicNot _, _, _ => by
    rw [cut]
  | .unary .not inner, w, h => by
    rw [ownBits] at h
    rw [cut, value, cut_eq_value henv inner h]
  | .binary op left right, w, h => by
    rw [ownBits] at h
    rw [cut]
    split
    · rfl
    · next hop =>
      rw [if_neg hop] at h
      have hleft := value_lt henv left (Nat.le_trans (Nat.le_max_left _ _) h)
      rw [cut_eq_value henv left (by omega), cut_eq_value henv right (by omega),
        Nat.mod_eq_of_lt (BinaryOp.compute_lt hleft), value_arithmetic (by simpa using hop)]
  | .ternary condition yes no, w, h => by
    have hlt := value_lt henv (.ternary condition yes no) h
    rw [ownBits] at h
    rw [cut, cut_eq_value henv yes (by omega), cut_eq_value henv no (by omega)]
    rw [value] at hlt ⊢
    exact Nat.mod_eq_of_lt hlt

/-! ## Where no division sees the width -/

variable {w w' : Nat}

theorem Expr.cut_of_isFixed (hw : w ≤ w') {e : Expr} (h : e.isFixed w = true) :
    e.cut bits env w = e.value bits env w' := by
  cases e with
  | ident name pos => rw [cut, value]
  | number size x =>
    rw [isFixed, decide_eq_true_eq] at h
    rw [cut, value, Nat.mod_eq_of_lt h, Nat.mod_eq_of_lt (Nat.lt_of_lt_of_le h (span_le hw))]
  | select name msb lsb pos => rw [cut, value, value]
  | concat parts => rw [cut, value, value]
  | unary op inner =>
    cases op with
    | not => cases h
    | logicNot => rw [cut, value, value]
  | binary op left right =>
    rw [isFixed] at h
    rw [cut, if_pos h, value, value, if_pos h, if_pos h]
  | ternary condition yes no => cases h

/-- Operators but division work on remainders. -/
theorem BinaryOp.compute_mod {op : BinaryOp} {x y x' y' : Nat} (hop : op.isBoolean = false)
    (hdiv : op ≠ .div) (hw : w ≤ w') (hx : x % span w = x' % span w)
    (hy : y % span w = y' % span w) :
    op.compute w x y % span w = op.compute w' x' y' % span w := by
  have hdvd := span_dvd hw
  cases op <;> first | (cases hop; done) | (exact absurd rfl hdiv) | skip
  case and =>
    rw [compute, compute, Nat.mod_mod, Nat.mod_mod_of_dvd _ hdvd, and_mod_span, and_mod_span, hx, hy]
  case or =>
    rw [compute, compute, Nat.mod_mod, Nat.mod_mod_of_dvd _ hdvd, or_mod_span, or_mod_span, hx, hy]
  case xor =>
    rw [compute, compute, Nat.mod_mod, Nat.mod_mod_of_dvd _ hdvd, xor_mod_span, xor_mod_span, hx, hy]
  case xnor =>
    rw [compute, compute, last_sub_mod (span_pos w) (Nat.dvd_refl _) (Nat.mod_lt _ (span_pos w)),
      last_sub_mod (span_pos w) hdvd (Nat.mod_lt _ (span_pos w')), Nat.mod_mod,
      Nat.mod_mod_of_dvd _ hdvd, xor_mod_span, xor_mod_span, hx, hy]
  case add =>
    rw [compute, compute, Nat.mod_mod, Nat.mod_mod_of_dvd _ hdvd, Nat.add_mod, hx, hy, ← Nat.add_mod]
  case sub =>
    rw [compute, compute, Nat.mod_mod, Nat.mod_mod_of_dvd _ hdvd, add_neg_mod hdvd (span_pos w'), hy,
      Nat.add_mod, hx, ← Nat.add_mod]
  case mul =>
    rw [compute, compute, Nat.mod_mod, Nat.mod_mod_of_dvd _ hdvd, Nat.mul_mod, hx, hy, ← Nat.mul_mod]

/-- Where no division sees the width, the value computed at it has the remainder of the value at any
greater one. -/
theorem Expr.cut_mod (hw : w ≤ w') :
    ∀ {e : Expr}, e.truncates w = true →
      e.cut bits env w % span w = e.value bits env w' % span w
  | .ident .., _ => by
    rw [cut, value]
  | .number .., _ => by
    rw [cut, value, Nat.mod_mod, Nat.mod_mod_of_dvd _ (span_dvd hw)]
  | .select .., _ | .concat _, _ | .unary .logicNot _, _ => by
    rw [cut, value, value]
  | .unary .not inner, h => by
    rw [truncates] at h
    rw [cut, value, last_sub_mod (span_pos w) (Nat.dvd_refl _) (Nat.mod_lt _ (span_pos w)),
      last_sub_mod (span_pos w) (span_dvd hw) (Nat.mod_lt _ (span_pos w')), Nat.mod_mod,
      Nat.mod_mod_of_dvd _ (span_dvd hw), cut_mod hw h]
  | .binary op left right, h => by
    rw [truncates] at h
    cases hop : op.isBoolean with
    | true => rw [cut, if_pos hop, value, value, if_pos hop, if_pos hop]
    | false =>
      rw [hop, Bool.false_or] at h
      rw [cut, if_neg (by rw [hop]; decide), value_arithmetic hop, Nat.mod_mod]
      split at h
      · next hdiv =>
        rw [Bool.and_eq_true] at h
        rw [hdiv, BinaryOp.compute, BinaryOp.compute, cut_of_isFixed hw h.1, cut_of_isFixed hw h.2]
      · next hdiv =>
        rw [Bool.and_eq_true] at h
        exact BinaryOp.compute_mod hop hdiv hw (cut_mod hw h.1) (cut_mod hw h.2)
  | .ternary condition yes no, h => by
    rw [truncates, Bool.and_eq_true] at h
    rw [cut, value, Nat.mod_mod]
    split
    · exact cut_mod hw h.2
    · exact cut_mod hw h.1

end

end GateSynth.Verilog
