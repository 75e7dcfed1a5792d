import GateSynth.Simulation.Apply
import Mathlib.Data.List.Permutation
import Mathlib.Data.Nat.ModEq

/-!
# Values of operators

`Operator.value` is what a node with an operator puts out: the value of the operator, and zero for
a division by zero. It always fits the width (`Operator.truncate_value`), and the order of the
operands matters as little as `isCommutative` says (`Operator.value_comm`). The last section gives
the value of every operator as a number, modulo the number of values of the width.
-/

namespace GateSynth

/-- The number of values of this many bits. -/
def span (bits : Nat) : Nat := Nat.pow 2 bits

theorem span_pos (bits : Nat) : 0 < span bits := Nat.two_pow_pos bits

theorem span_add (a b : Nat) : span (a + b) = span a * span b := Nat.pow_add 2 a b

theorem span_succ (a : Nat) : span (a + 1) = 2 * span a := by
  rw [span_add, Nat.mul_comm]
  rfl

theorem span_dvd {a b : Nat} (h : a ≤ b) : span a ∣ span b := Nat.pow_dvd_pow 2 h

theorem span_le {a b : Nat} (h : a ≤ b) : span a ≤ span b := Nat.pow_le_pow_right (by decide) h

theorem span_lt {a b : Nat} (h : a < b) : span a < span b := Nat.pow_lt_pow_right (by decide) h

theorem one_lt_span {bits : Nat} (h : 1 ≤ bits) : 1 < span bits :=
  Nat.lt_of_lt_of_le (by decide) (span_le h)

theorem and_mod_span (x y bits : Nat) :
    (x &&& y) % span bits = (x % span bits) &&& (y % span bits) := Nat.and_mod_two_pow

theorem or_mod_span (x y bits : Nat) :
    (x ||| y) % span bits = (x % span bits) ||| (y % span bits) := Nat.or_mod_two_pow

theorem xor_mod_span (x y bits : Nat) :
    (x ^^^ y) % span bits = (x % span bits) ^^^ (y % span bits) := Nat.xor_mod_two_pow

/-- Subtracting from the last value of a range and then taking the remainder in a smaller one. -/
theorem last_sub_mod {a b x : Nat} (ha : 0 < a) (h : a ∣ b) (hx : x < b) :
    (b - 1 - x) % a = a - 1 - x % a := by
  obtain ⟨k, rfl⟩ := h
  have hmod := Nat.mod_lt x ha
  have hdiv := Nat.div_add_mod x a
  have hq : x / a < k := by
    rw [Nat.div_lt_iff_lt_mul ha, Nat.mul_comm]
    exact hx
  -- The difference is `a - 1 - x % a` plus a multiple of `a`.
  obtain ⟨j, rfl⟩ : ∃ j, k = x / a + 1 + j := ⟨k - (x / a + 1), by omega⟩
  have hsplit : a * (x / a + 1 + j) - 1 - x = (a - 1 - x % a) + a * j := by
    rw [Nat.mul_add, Nat.mul_add, Nat.mul_one]
    omega
  rw [hsplit, Nat.add_mul_mod_self_left, Nat.mod_eq_of_lt (by omega)]

/-- Adding the complement of a remainder in a range and then taking the remainder in a smaller
one. -/
theorem add_neg_mod {a b : Nat} (h : a ∣ b) (hb : 0 < b) (x y : Nat) :
    (x + (b - y % b)) % a = (x + (a - y % a)) % a := by
  have hcancel : ∀ c, a ∣ c → 0 < c → (c - y % c) + y ≡ 0 [MOD a] := by
    intro c hc hpos
    have hdiv := Nat.div_add_mod y c
    have hlt := Nat.mod_lt y hpos
    have hsum : (c - y % c) + y = c * (1 + y / c) := by
      rw [Nat.mul_add, Nat.mul_one]
      omega
    rw [hsum]
    exact (Nat.modEq_zero_iff_dvd.2 (hc.mul_right _))
  have ha : 0 < a := Nat.pos_of_dvd_of_pos h hb
  have hsame : b - y % b ≡ a - y % a [MOD a] :=
    Nat.ModEq.add_right_cancel' y ((hcancel b h hb).trans (hcancel a (dvd_refl a) ha).symm)
  exact hsame.add_left x

theorem Width.values_eq_span (w : Width) : w.values = span w.bits := rfl

theorem Width.values_dvd_values {v w : Width} (h : v.bits ≤ w.bits) : v.values ∣ w.values :=
  span_dvd h

theorem Width.values_dvd (w : Width) : w.values ∣ UInt64.size := span_dvd w.le

namespace Width

@[simp] theorem truncate_zero (w : Width) : w.truncate 0 = 0 := by
  simp [truncate]

/-- Two words are cut to the same if they agree on the bits of the mask. -/
theorem truncate_congr (w : Width) {x y : Word}
    (h : ∀ i (_ : i < 64), w.mask.toBitVec[i] = true → x.toBitVec[i] = y.toBitVec[i]) :
    w.truncate x = w.truncate y := by
  rw [← UInt64.toBitVec_inj, truncate, truncate]
  ext i hi
  rw [UInt64.toBitVec_and, UInt64.toBitVec_and, BitVec.getElem_and, BitVec.getElem_and]
  cases hbit : w.mask.toBitVec[i] with
  | false => rw [Bool.and_false, Bool.and_false]
  | true => rw [h i hi hbit]

/-- The bits of the mask are left as they are. -/
theorem getElem_truncate (w : Width) {x : Word} {i : Nat} {hi : i < 64}
    (hbit : w.mask.toBitVec[i] = true) : (w.truncate x).toBitVec[i] = x.toBitVec[i] := by
  rw [truncate, UInt64.toBitVec_and, BitVec.getElem_and, hbit, Bool.and_true]

/-- Complementing does not look at the bits above the width. -/
theorem complement_truncate (w : Width) (x : Word) :
    w.truncate (~~~(w.truncate x)) = w.complement x := by
  refine w.truncate_congr fun i hi hbit => ?_
  rw [UInt64.toBitVec_not, UInt64.toBitVec_not, BitVec.getElem_not, BitVec.getElem_not,
    w.getElem_truncate hbit]

end Width

namespace Operator

variable {op : Operator} {operands : List Word} {w : Width}

/-- The value of an operator, where a division by zero gives zero. -/
def value (op : Operator) (operands : List Word) (w : Width) : Word :=
  match op.apply operands w with
  | .ok value => value
  | .error _ => 0

theorem apply_eq (op : Operator) (operands : List Word) (w : Width) :
    op.apply operands w = .ok (op.value operands w) ∨
      op.apply operands w = .error .divisionByZero ∧ op.value operands w = 0 := by
  rw [value]
  cases op <;> simp only [apply, raw] <;> try exact .inl rfl
  split
  · exact .inr ⟨rfl, rfl⟩
  · exact .inl rfl

@[simp] theorem truncate_value (op : Operator) (operands : List Word) (w : Width) :
    w.truncate (op.value operands w) = op.value operands w := by
  rw [value, apply]
  cases op.raw operands w with
  | error e => exact w.truncate_zero
  | ok value => exact w.truncate_truncate value

theorem value_not (x : Word) (w : Width) : Operator.not.value [x] w = w.complement x :=
  w.complement_truncate x

theorem value_comm (h : op.isCommutative = true) (x y : Word) (w : Width) :
    op.value [x, y] w = op.value [y, x] w := by
  cases op <;> try cases h
  all_goals simp only [value, apply, raw, operand, List.getElem?_cons_zero, List.getElem?_cons_succ,
    Option.getD_some, Except.map]
  · rw [UInt64.and_comm]
  · rw [UInt64.or_comm]
  · rw [UInt64.xor_comm]
  · rw [UInt64.and_comm]
  · rw [UInt64.or_comm]
  · rw [UInt64.add_comm]
  · rw [UInt64.mul_comm]

theorem arity_of_isCommutative (op : Operator) (h : op.isCommutative = true) : op.arity = 2 := by
  cases op <;> first | rfl | cases h

/-- As many operands as the arity says are one, two or three. -/
theorem operands_of_arity {α : Type} (op : Operator) {operands : List α}
    (h : operands.length = op.arity) :
    (op.arity = 1 → ∃ x, operands = [x]) ∧ (op.arity = 2 → ∃ x y, operands = [x, y]) ∧
      (op.arity = 3 → ∃ x y z, operands = [x, y, z]) :=
  ⟨fun hone => List.length_eq_one_iff.1 (h.trans hone),
    fun htwo => List.length_eq_two.1 (h.trans htwo),
    fun hthree => List.length_eq_three.1 (h.trans hthree)⟩

/-- Where the order of the two operands does not matter, any order gives the same value. -/
theorem value_perm {operands' : List Word} (h : op.isCommutative = true)
    (hlength : operands.length = 2) (hperm : operands.Perm operands') :
    op.value operands w = op.value operands' w := by
  obtain ⟨x, y, rfl⟩ := List.length_eq_two.1 hlength
  rcases List.perm_pair.1 hperm.symm with rfl | rfl
  · rfl
  · exact value_comm h x y w

theorem value_buf (x : Word) (w : Width) : Operator.buf.value [x] w = w.truncate x :=
  w.truncate_truncate x

end Operator

/-! ## Values as numbers -/

theorem Width.toNat_complement (w : Width) (x : Word) :
    (w.complement x).toNat = w.values - 1 - x.toNat % w.values := by
  rw [Width.complement, ← Width.truncate, Width.toNat_truncate, UInt64.toNat_not]
  exact last_sub_mod w.values_pos w.values_dvd x.toNat_lt

namespace Operator

variable (x y z : Word) (w : Width)

theorem toNat_value_and :
    (Operator.and.value [x, y] w).toNat = (x.toNat &&& y.toNat) % w.values := by
  simp only [value, apply, raw, operand, List.getElem?_cons_zero, List.getElem?_cons_succ,
    Option.getD_some, Except.map, Width.toNat_truncate, UInt64.toNat_and]
  rw [w.values_eq_span, ← and_mod_span, Nat.mod_mod]

theorem toNat_value_or :
    (Operator.or.value [x, y] w).toNat = (x.toNat ||| y.toNat) % w.values := by
  simp only [value, apply, raw, operand, List.getElem?_cons_zero, List.getElem?_cons_succ,
    Option.getD_some, Except.map, Width.toNat_truncate, UInt64.toNat_or]
  rw [w.values_eq_span, ← or_mod_span, Nat.mod_mod]

theorem toNat_value_xor :
    (Operator.xor.value [x, y] w).toNat = (x.toNat ^^^ y.toNat) % w.values := by
  simp only [value, apply, raw, operand, List.getElem?_cons_zero, List.getElem?_cons_succ,
    Option.getD_some, Except.map, Width.toNat_truncate, UInt64.toNat_xor]
  rw [w.values_eq_span, ← xor_mod_span, Nat.mod_mod]

theorem toNat_value_nand :
    (Operator.nand.value [x, y] w).toNat = w.values - 1 - (x.toNat &&& y.toNat) % w.values := by
  have hcomplement : Operator.nand.value [x, y] w =
      w.complement (w.truncate x &&& w.truncate y) := rfl
  rw [hcomplement, Width.toNat_complement, UInt64.toNat_and, Width.toNat_truncate,
    Width.toNat_truncate, w.values_eq_span, ← and_mod_span, Nat.mod_mod]

theorem toNat_value_nor :
    (Operator.nor.value [x, y] w).toNat = w.values - 1 - (x.toNat ||| y.toNat) % w.values := by
  have hcomplement : Operator.nor.value [x, y] w =
      w.complement (w.truncate x ||| w.truncate y) := rfl
  rw [hcomplement, Width.toNat_complement, UInt64.toNat_or, Width.toNat_truncate,
    Width.toNat_truncate, w.values_eq_span, ← or_mod_span, Nat.mod_mod]

theorem toNat_value_not :
    (Operator.not.value [x] w).toNat = w.values - 1 - x.toNat % w.values := by
  rw [value_not, Width.toNat_complement]

theorem toNat_value_buf : (Operator.buf.value [x] w).toNat = x.toNat % w.values := by
  simp [value, apply, raw, operand, Except.map]

theorem toNat_value_add :
    (Operator.add.value [x, y] w).toNat = (x.toNat + y.toNat) % w.values := by
  simp only [value, apply, raw, operand, List.getElem?_cons_zero, List.getElem?_cons_succ,
    Option.getD_some, Except.map, Width.toNat_truncate, UInt64.toNat_add]
  rw [Nat.mod_mod_of_dvd _ w.values_dvd, ← Nat.add_mod]

theorem toNat_value_mul :
    (Operator.mul.value [x, y] w).toNat = (x.toNat * y.toNat) % w.values := by
  simp only [value, apply, raw, operand, List.getElem?_cons_zero, List.getElem?_cons_succ,
    Option.getD_some, Except.map, Width.toNat_truncate, UInt64.toNat_mul]
  rw [Nat.mod_mod_of_dvd _ w.values_dvd, ← Nat.mul_mod]

theorem toNat_value_sub :
    (Operator.sub.value [x, y] w).toNat =
      (x.toNat + (w.values - y.toNat % w.values)) % w.values := by
  simp only [value, apply, raw, operand, List.getElem?_cons_zero, List.getElem?_cons_succ,
    Option.getD_some, Except.map, Width.toNat_truncate, UInt64.toNat_sub]
  have hy : y.toNat % w.values < UInt64.size :=
    Nat.lt_of_lt_of_le (Nat.mod_lt _ w.values_pos) w.values_le
  rw [Nat.mod_mod_of_dvd _ w.values_dvd, Nat.add_comm]
  have hneg := add_neg_mod w.values_dvd (by decide : 0 < UInt64.size) (x.toNat % w.values)
    (y.toNat % w.values)
  rw [Nat.mod_eq_of_lt hy, Nat.mod_mod] at hneg
  refine hneg.trans ?_
  rw [Nat.mod_add_mod]

theorem toNat_value_div :
    (Operator.div.value [x, y] w).toNat = (x.toNat / y.toNat) % w.values := by
  simp only [value, apply, raw, operand, List.getElem?_cons_zero, List.getElem?_cons_succ,
    Option.getD_some]
  by_cases hy : y = 0
  · simp [hy, Except.map]
  · simp [hy, Except.map]

theorem toNat_value_mux :
    (Operator.mux.value [x, y, z] w).toNat =
      (if z.toNat = 0 then x.toNat else y.toNat) % w.values := by
  simp only [value, apply, raw, operand, List.getElem?_cons_zero, List.getElem?_cons_succ,
    Option.getD_some, Except.map]
  by_cases hz : z = 0
  · simp [hz]
  · have hz' : z.toNat ≠ 0 := fun h => hz (UInt64.toNat_inj.1 h)
    simp [hz, hz']

end Operator

end GateSynth
