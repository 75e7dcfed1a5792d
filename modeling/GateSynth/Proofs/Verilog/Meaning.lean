import GateSynth.Proofs.Results
import GateSynth.Proofs.Simulation.Operators
import GateSynth.Verilog.Elaborate

/-!
# The meaning of expressions

The reference for elaboration, on natural numbers. `Expr.ownBits` is the width that an expression
has by itself, and `Expr.value` its value at a width, both given the widths and the values of the
signals it names. A value fits the width at which it is taken, as long as that is no less than the
width of the expression itself (`Expr.value_lt`). `selfWidth` finds the reference width
(`ownBits_of_selfWidth`). What an operator of two operands means falls into four classes
(`BinaryOp.byClass`), and so does what it is lowered to (`lower_logical`, `lower_comparison`,
`lower_xnor`, `lower_arithmetic`).
-/

namespace GateSynth.Verilog

/-- The value of an operator that works at the width of its result. -/
def BinaryOp.compute (op : BinaryOp) (bits x y : Nat) : Nat :=
  match op with
  | .and => (x &&& y) % span bits
  | .or => (x ||| y) % span bits
  | .xor => (x ^^^ y) % span bits
  | .xnor => span bits - 1 - (x ^^^ y) % span bits
  | .add => (x + y) % span bits
  | .sub => (x + (span bits - y % span bits)) % span bits
  | .mul => x * y % span bits
  | .div => x / y
  | _ => 0

/-- What an operator with a truth value asks of its operands. -/
def BinaryOp.holds (op : BinaryOp) (x y : Nat) : Bool :=
  match op with
  | .logicAnd => x ≠ 0 && y ≠ 0
  | .logicOr => x ≠ 0 || y ≠ 0
  | .eq => x = y
  | .ne => x ≠ y
  | .lt => x < y
  | .le => x ≤ y
  | .gt => y < x
  | .ge => y ≤ x
  | _ => false

/-- Does the operator join truth values? -/
def BinaryOp.isLogical : BinaryOp → Bool
  | .logicAnd | .logicOr => true
  | _ => false

theorem BinaryOp.isBoolean_of_isLogical {op : BinaryOp} (h : op.isLogical = true) :
    op.isBoolean = true := by
  cases op <;> first | rfl | cases h

theorem BinaryOp.not_isLogical {op : BinaryOp} (h : op.isBoolean = false) :
    op.isLogical = false := by
  cases op <;> first | rfl | cases h

/-- The operators by what they are lowered to: truth tests, a comparison, a complemented exclusive
or, and a single node. -/
theorem BinaryOp.byClass {P : BinaryOp → Prop}
    (logical : ∀ op : BinaryOp, op.isLogical = true → P op)
    (comparison : ∀ op : BinaryOp, op.isBoolean = true → op.isLogical = false → P op)
    (xnor : P .xnor)
    (arithmetic : ∀ op : BinaryOp, op.isBoolean = false → op ≠ .xnor → P op) (op : BinaryOp) :
    P op := by
  cases hboolean : op.isBoolean with
  | true =>
    cases hlogical : op.isLogical with
    | true => exact logical op hlogical
    | false => exact comparison op hboolean hlogical
  | false =>
    by_cases hop : op = .xnor
    · exact hop ▸ xnor
    · exact arithmetic op hboolean hop

mutual

/-- The bits that an expression has by itself, given those of the signals. -/
def Expr.ownBits (bits : String → Nat) : Expr → Nat
  | .ident name _ => bits name
  | .number (some size) _ => size
  | .number none value => (Width.ofValue value).bits
  | .select _ msb lsb _ => msb - lsb + 1
  | .concat parts => Expr.partBits bits parts
  | .unary .not inner => inner.ownBits bits
  | .unary .logicNot _ => 1
  | .binary op left right =>
    if op.isBoolean then 1 else max (left.ownBits bits) (right.ownBits bits)
  | .ternary _ yes no => max (yes.ownBits bits) (no.ownBits bits)

/-- The bits of expressions side by side. -/
def Expr.partBits (bits : String → Nat) : List Expr → Nat
  | [] => 0
  | part :: rest => part.ownBits bits + Expr.partBits bits rest

end

mutual

/-- The value of an expression at a width, given the widths and the values of the signals. -/
def Expr.value (bits env : String → Nat) (w : Nat) : Expr → Nat
  | .ident name _ => env name
  | .number _ value => value.toNat % span w
  | .select name msb lsb _ => env name / span lsb % span (msb - lsb + 1)
  | .concat parts => Expr.joined bits env 0 parts
  | .unary .not inner => span w - 1 - inner.value bits env w % span w
  | .unary .logicNot inner => (decide (inner.value bits env (inner.ownBits bits) = 0)).toNat
  | .binary op left right =>
    if op.isLogical then
      (op.holds (left.value bits env (left.ownBits bits))
        (right.value bits env (right.ownBits bits))).toNat
    else if op.isBoolean then
      (op.holds (left.value bits env (max (left.ownBits bits) (right.ownBits bits)))
        (right.value bits env (max (left.ownBits bits) (right.ownBits bits)))).toNat
    else op.compute w (left.value bits env w) (right.value bits env w)
  | .ternary condition yes no =>
    if condition.value bits env (condition.ownBits bits) = 0 then no.value bits env w
    else yes.value bits env w

/-- The value of expressions side by side, each at its own width, below a value. -/
def Expr.joined (bits env : String → Nat) (high : Nat) : List Expr → Nat
  | [] => high
  | part :: rest =>
    Expr.joined bits env
      (high * span (part.ownBits bits) + part.value bits env (part.ownBits bits)) rest

end

/-! ## Values fit their width -/

theorem BinaryOp.compute_lt {op : BinaryOp} {bits x y : Nat} (hx : x < span bits) :
    op.compute bits x y < span bits := by
  have hpos := span_pos bits
  cases op <;> simp only [BinaryOp.compute] <;> try exact Nat.mod_lt _ hpos
  case xnor => omega
  case div => exact Nat.lt_of_le_of_lt (Nat.div_le_self x y) hx
  all_goals exact hpos

theorem toNat_lt_span {b : Bool} {w : Nat} (h : 1 ≤ w) : b.toNat < span w :=
  Nat.lt_of_le_of_lt (Bool.toNat_le b) (one_lt_span h)

/-- A value with another one below it fits both widths together. -/
theorem join_lt {a b high low : Nat} (hhigh : high < span a) (hlow : low < span b) :
    high * span b + low < span (a + b) := by
  rw [span_add]
  calc high * span b + low < high * span b + span b := by omega
    _ = (high + 1) * span b := by rw [Nat.add_mul, Nat.one_mul]
    _ ≤ span a * span b := Nat.mul_le_mul_right _ hhigh

section
variable {bits env : String → Nat}

mutual

/-- A value fits the width at which it is taken. -/
theorem Expr.value_lt (henv : ∀ name, env name < span (bits name)) :
    ∀ (e : Expr) {w : Nat}, e.ownBits bits ≤ w → e.value bits env w < span w
  | .ident name _, w, h => by
    rw [ownBits] at h
    rw [value]
    exact Nat.lt_of_lt_of_le (henv name) (span_le h)
  | .number _ x, w, _ => by
    rw [value]
    exact Nat.mod_lt _ (span_pos w)
  | .select name msb lsb _, w, h => by
    rw [ownBits] at h
    rw [value]
    exact Nat.lt_of_lt_of_le (Nat.mod_lt _ (span_pos _)) (span_le h)
  | .concat parts, w, h => by
    rw [ownBits] at h
    rw [value]
    have hjoined := joined_lt henv parts 0 (by decide : 0 < span 0)
    rw [Nat.zero_add] at hjoined
    exact Nat.lt_of_lt_of_le hjoined (span_le h)
  | .unary .not inner, w, _ => by
    rw [value]
    have := span_pos w
    omega
  | .unary .logicNot inner, w, h => by
    rw [ownBits] at h
    rw [value]
    exact toNat_lt_span h
  | .binary op left right, w, h => by
    rw [ownBits] at h
    rw [value]
    split
    · next hlogical =>
      rw [if_pos (BinaryOp.isBoolean_of_isLogical hlogical)] at h
      exact toNat_lt_span h
    · split at h
      · next hboolean =>
        rw [if_pos hboolean]
        exact toNat_lt_span h
      · next hboolean =>
        rw [if_neg hboolean]
        exact BinaryOp.compute_lt (value_lt henv left (by omega))
  | .ternary condition yes no, w, h => by
    rw [ownBits] at h
    rw [value]
    split
    · exact value_lt henv no (by omega)
    · exact value_lt henv yes (by omega)

/-- Values side by side fit their widths together. -/
theorem Expr.joined_lt (henv : ∀ name, env name < span (bits name)) :
    ∀ (parts : List Expr) (w : Nat) {high : Nat}, high < span w →
      joined bits env high parts < span (w + partBits bits parts)
  | [], w, high, h => by
    rw [joined, partBits]
    exact h
  | part :: rest, w, high, h => by
    rw [joined, partBits, ← Nat.add_assoc]
    refine joined_lt henv rest _ ?_
    exact join_lt h (value_lt henv part (Nat.le_refl _))

end

end

/-! ## Widths that elaboration finds -/

theorem bits_max (v w : Width) : (v.max w).bits = max v.bits w.bits := by
  rw [Width.max]
  split <;> omega

/-- The bits of a declared name; a name without a declaration has none. -/
def Module.bits (m : Module) (name : String) : Nat :=
  ((m.decl? name).map fun d => d.width.bits).getD 0

theorem Module.bits_of_decl? {m : Module} {name : String} {d : Decl} (h : m.decl? name = some d) :
    m.bits name = d.width.bits := by
  rw [Module.bits, h]
  rfl

namespace Elaborate

variable {scope : Scope} {site : Site}

/-- The bits of the names of a scope. -/
def Scope.bits (scope : Scope) : String → Nat := scope.module.bits

theorem Scope.width_eq_ok {name : String} {line : Nat} {w : Width}
    (h : scope.width name line = .ok w) :
    ∃ d, scope.module.decl? name = some d ∧ d.width = w ∧ scope.bits name = w.bits := by
  rw [Scope.width] at h
  split at h
  · next d hd =>
    cases h
    exact ⟨d, hd, rfl, by rw [Scope.bits, Module.bits_of_decl? hd]⟩
  · cases h

theorem checkedWidth_eq_ok {bits : Nat} {w : Width} (h : checkedWidth site bits = .ok w) :
    w.bits = bits := by
  rw [checkedWidth, Width.ofNat?] at h
  split at h
  · next v hv =>
    split at hv
    · cases hv
      cases h
      rfl
    · cases hv
  · cases h

mutual

/-- The width that elaboration finds for an expression is its own. -/
theorem ownBits_of_selfWidth :
    ∀ (e : Expr) {w : Width}, selfWidth scope site e = .ok w → w.bits = e.ownBits scope.bits
  | .ident name pos, w, h => by
    rw [selfWidth] at h
    obtain ⟨d, -, -, hbits⟩ := Scope.width_eq_ok h
    rw [Expr.ownBits, hbits]
  | .number (some size) value, w, h => by
    rw [selfWidth] at h
    exact checkedWidth_eq_ok h
  | .number none value, w, h => by
    rw [selfWidth] at h
    cases h
    rfl
  | .select name msb lsb pos, w, h => by
    rw [selfWidth] at h
    obtain ⟨declared, -, h⟩ := ok_of_bind h
    split at h
    · cases h
    split at h
    · cases h
    · exact checkedWidth_eq_ok h
  | .concat parts, w, h => by
    rw [selfWidth] at h
    obtain ⟨bits, hbits, h⟩ := ok_of_bind h
    rw [Expr.ownBits, checkedWidth_eq_ok h, partBits_of_selfBits parts hbits, Nat.zero_add]
  | .unary .not inner, w, h => by
    rw [selfWidth] at h
    exact ownBits_of_selfWidth inner h
  | .unary .logicNot inner, w, h => by
    rw [selfWidth] at h
    cases h
    rfl
  | .binary op left right, w, h => by
    rw [selfWidth] at h
    rw [Expr.ownBits]
    split at h
    · next hop =>
      cases h
      rw [if_pos hop]
      rfl
    · next hop =>
      obtain ⟨v, hv, h⟩ := ok_of_bind h
      obtain ⟨u, hu, h⟩ := ok_of_bind h
      cases h
      rw [if_neg hop, bits_max, ownBits_of_selfWidth left hv, ownBits_of_selfWidth right hu]
  | .ternary condition yes no, w, h => by
    rw [selfWidth] at h
    obtain ⟨v, hv, h⟩ := ok_of_bind h
    obtain ⟨u, hu, h⟩ := ok_of_bind h
    cases h
    rw [Expr.ownBits, bits_max, ownBits_of_selfWidth yes hv, ownBits_of_selfWidth no hu]

theorem partBits_of_selfBits :
    ∀ (parts : List Expr) {before bits : Nat}, selfBits scope site before parts = .ok bits →
      bits = before + Expr.partBits scope.bits parts
  | [], before, bits, h => by
    rw [selfBits] at h
    cases h
    rfl
  | part :: rest, before, bits, h => by
    rw [selfBits] at h
    obtain ⟨w, hw, h⟩ := ok_of_bind h
    split at h
    · rw [Expr.partBits, ← ownBits_of_selfWidth part hw, ← Nat.add_assoc]
      exact partBits_of_selfBits rest h
    · cases h

end

/-! ## Operators of two operands -/

section
variable {op : BinaryOp} {left right : Expr} {w : Width} {dest : Option String}

/-- Operands of a logical operator are lowered at their own widths and tested. -/
theorem lower_logical (hop : op.isLogical = true) :
    lower scope site (.binary op left right) w dest = (do
      let leftWidth ← selfWidth scope site left
      let a ← truth site (← lower scope site left leftWidth none) leftWidth
      let rightWidth ← selfWidth scope site right
      let b ← truth site (← lower scope site right rightWidth none) rightWidth
      emit site (.op (if op = .logicAnd then .and else .or)) [a, b] .one dest) := by
  conv => lhs; unfold lower
  cases op <;> first | (cases hop; done) | rfl

/-- Operands of a comparison are lowered at the wider of their own widths. -/
theorem lower_comparison (hop : op.isBoolean = true) (hop' : op.isLogical = false) :
    lower scope site (.binary op left right) w dest = (do
      let leftWidth ← selfWidth scope site left
      let rightWidth ← selfWidth scope site right
      if (leftWidth.max rightWidth).bits ≥ Width.limit then
        throw (unsupported site s!"{(leftWidth.max rightWidth).bits}-bit comparison")
      else
        let a ← lower scope site left (leftWidth.max rightWidth) none
        let b ← lower scope site right (leftWidth.max rightWidth) none
        compare site op a b (leftWidth.max rightWidth) dest) := by
  conv => lhs; unfold lower
  cases op <;> first | (cases hop; done) | (cases hop'; done) | rfl

theorem lower_xnor :
    lower scope site (.binary .xnor left right) w dest = (do
      let a ← lower scope site left w none
      let b ← lower scope site right w none
      return (← emit site (.op .xor) [a, b] w none).negate) := by
  rw [lower]

/-- Operands of the other operators are lowered at the width of the result. -/
theorem lower_arithmetic (hop : op.isBoolean = false) (hxnor : op ≠ .xnor) :
    lower scope site (.binary op left right) w dest = (do
      let a ← lower scope site left w none
      let b ← lower scope site right w none
      emit site (.op (operatorKind op)) [a, b] w dest) := by
  conv => lhs; unfold lower
  cases op <;> first | (cases hop; done) | (exact absurd rfl hxnor) | rfl

end

end Elaborate

end GateSynth.Verilog
