import GateSynth.Proofs.Verilog.CutWidths

/-!
# Expressions in a context

The value of an expression depends on the names in it only (`Expr.value_congr`), and on a part of it
only through the width of the part and its value at the width where the context takes it
(`Expr.Context.value_fill`). This width is that of the whole expression, or where a concatenation, a
truth test or a comparison is in between, the own width of what stands there. It is never less than
the own width of the part (`Expr.Context.ownBits_le_width`).
-/

namespace GateSynth.Verilog

/-! ## Names -/

mutual

/-- The names in an expression. -/
def Expr.names : Expr → List String
  | .ident name _ | .select name _ _ _ => [name]
  | .number .. => []
  | .concat parts => Expr.namesAll parts
  | .unary _ inner => inner.names
  | .binary _ left right => left.names ++ right.names
  | .ternary condition yes no => condition.names ++ yes.names ++ no.names

/-- The names in a list of expressions. -/
def Expr.namesAll : List Expr → List String
  | [] => []
  | e :: rest => e.names ++ Expr.namesAll rest

end

/-- Widths and values are the same for some names. -/
def SameOn (names : List String) (bits env bits' env' : String → Nat) : Prop :=
  ∀ s ∈ names, bits s = bits' s ∧ env s = env' s

section
variable {bits env bits' env' : String → Nat} {names others : List String}

theorem sameOn_append : SameOn (names ++ others) bits env bits' env' ↔
    SameOn names bits env bits' env' ∧ SameOn others bits env bits' env' :=
  List.forall_mem_append

mutual

theorem Expr.ownBits_congr :
    ∀ e : Expr, SameOn e.names bits env bits' env' → e.ownBits bits = e.ownBits bits'
  | .ident name _, h => by
    rw [ownBits, ownBits]
    exact (h name (.head _)).1
  | .number (some _) _, _ | .number none _, _ | .select .., _ | .unary .logicNot _, _ => by
    rw [ownBits, ownBits]
  | .concat parts, h => by
    rw [names] at h
    rw [ownBits, ownBits]
    exact partBits_congr parts h
  | .unary .not inner, h => by
    rw [names] at h
    rw [ownBits, ownBits]
    exact ownBits_congr inner h
  | .binary op left right, h => by
    rw [names, sameOn_append] at h
    rw [ownBits, ownBits, ownBits_congr left h.1, ownBits_congr right h.2]
  | .ternary condition yes no, h => by
    rw [names, sameOn_append, sameOn_append] at h
    rw [ownBits, ownBits, ownBits_congr yes h.1.2, ownBits_congr no h.2]

theorem Expr.partBits_congr : ∀ parts : List Expr,
    SameOn (Expr.namesAll parts) bits env bits' env' → partBits bits parts = partBits bits' parts
  | [], _ => by
    rw [partBits, partBits]
  | part :: rest, h => by
    rw [namesAll, sameOn_append] at h
    rw [partBits, partBits, ownBits_congr part h.1, partBits_congr rest h.2]

end

/-! ## Operands -/

/-- The width at which an operator takes an operand: its own for a truth test, that of both for a
comparison, and that of the result otherwise. -/
def BinaryOp.operandBits (op : BinaryOp) (w own other : Nat) : Nat :=
  if op.isLogical then own else if op.isBoolean then max own other else w

theorem BinaryOp.own_le_operandBits (op : BinaryOp) {w own other : Nat}
    (h : op.isBoolean = false → own ≤ w) : own ≤ op.operandBits w own other := by
  rw [operandBits]
  split
  · exact Nat.le_refl _
  · split
    · exact Nat.le_max_left _ _
    · next hop => exact h (Bool.eq_false_iff.2 hop)

/-- An operator sees its operands at these widths. -/
theorem Expr.value_binary {op : BinaryOp} {left right left' right' : Expr} {w : Nat}
    (hownLeft : left.ownBits bits = left'.ownBits bits')
    (hownRight : right.ownBits bits = right'.ownBits bits')
    (hleft : let own := op.operandBits w (left.ownBits bits) (right.ownBits bits)
      left.value bits env own = left'.value bits' env' own)
    (hright : let own := op.operandBits w (right.ownBits bits) (left.ownBits bits)
      right.value bits env own = right'.value bits' env' own) :
    (Expr.binary op left right).value bits env w =
      (Expr.binary op left' right').value bits' env' w := by
  rw [value, value]
  rw [BinaryOp.operandBits] at hleft hright
  split
  · next hop =>
    rw [if_pos hop] at hleft hright
    rw [← hownLeft, ← hownRight, hleft, hright]
  · next hop =>
    rw [if_neg hop] at hleft hright
    split
    · next hboolean =>
      rw [if_pos hboolean] at hleft hright
      rw [Nat.max_comm] at hright
      rw [← hownLeft, ← hownRight, hleft, hright]
    · next hboolean =>
      rw [if_neg hboolean] at hleft hright
      rw [hleft, hright]

/-! ## Values -/

mutual

theorem Expr.value_congr : ∀ (e : Expr) (w : Nat), SameOn e.names bits env bits' env' →
    e.value bits env w = e.value bits' env' w
  | .ident name _, w, h => by
    rw [value, value]
    exact (h name (.head _)).2
  | .number .., w, _ => by
    rw [value, value]
  | .select name msb lsb _, w, h => by
    rw [value, value, (h name (.head _)).2]
  | .concat parts, w, h => by
    rw [names] at h
    rw [value, value]
    exact joined_congr parts 0 h
  | .unary .not inner, w, h => by
    rw [names] at h
    rw [value, value, value_congr inner w h]
  | .unary .logicNot inner, w, h => by
    rw [names] at h
    rw [value, value, ownBits_congr inner h, value_congr inner _ h]
  | .binary op left right, w, h => by
    rw [names, sameOn_append] at h
    exact value_binary (ownBits_congr left h.1) (ownBits_congr right h.2)
      (value_congr left _ h.1) (value_congr right _ h.2)
  | .ternary condition yes no, w, h => by
    rw [names, sameOn_append, sameOn_append] at h
    rw [value, value, ownBits_congr condition h.1.1, value_congr condition _ h.1.1,
      value_congr yes w h.1.2, value_congr no w h.2]

theorem Expr.joined_congr : ∀ (parts : List Expr) (high : Nat),
    SameOn (Expr.namesAll parts) bits env bits' env' →
      joined bits env high parts = joined bits' env' high parts
  | [], high, _ => by
    rw [joined, joined]
  | part :: rest, high, h => by
    rw [namesAll, sameOn_append] at h
    rw [joined, joined, ownBits_congr part h.1, value_congr part _ h.1, joined_congr rest _ h.2]

end

theorem Expr.cut_congr : ∀ (e : Expr) (w : Nat), SameOn e.names bits env bits' env' →
    e.cut bits env w = e.cut bits' env' w
  | .ident name _, w, h => by
    rw [cut, cut]
    exact (h name (.head _)).2
  | .number .., w, _ => by
    rw [cut, cut]
  | .select .., w, h | .concat _, w, h | .unary .logicNot _, w, h => by
    rw [cut, cut]
    exact value_congr _ w h
  | .unary .not inner, w, h => by
    rw [names] at h
    rw [cut, cut, cut_congr inner w h]
  | .binary op left right, w, h => by
    have hvalue := value_congr _ w h
    rw [names, sameOn_append] at h
    rw [cut, cut, hvalue, cut_congr left w h.1, cut_congr right w h.2]
  | .ternary condition yes no, w, h => by
    rw [names, sameOn_append, sameOn_append] at h
    rw [cut, cut, ownBits_congr condition h.1.1, value_congr condition _ h.1.1,
      cut_congr yes w h.1.2, cut_congr no w h.2]

end

/-! ## Contexts -/

/-- An expression with a hole in it. -/
inductive Expr.Context where
  /-- Nothing around the hole. -/
  | hole
  /-- One of the parts of a concatenation. -/
  | part (before : List Expr) (inner : Context) (after : List Expr)
  /-- The operand of an operator. -/
  | operand (op : UnaryOp) (inner : Context)
  /-- The left operand of an operator. -/
  | leftOperand (op : BinaryOp) (inner : Context) (right : Expr)
  /-- The right operand of an operator. -/
  | rightOperand (op : BinaryOp) (left : Expr) (inner : Context)
  /-- The condition of a choice. -/
  | test (inner : Context) (yes no : Expr)
  /-- The first value of a choice. -/
  | chosen (condition : Expr) (inner : Context) (no : Expr)
  /-- The second value of a choice. -/
  | other (condition yes : Expr) (inner : Context)

namespace Expr

/-- The expression with something in its hole. -/
def Context.fill (e : Expr) : Context → Expr
  | .hole => e
  | .part before inner after => .concat (before ++ inner.fill e :: after)
  | .operand op inner => .unary op (inner.fill e)
  | .leftOperand op inner right => .binary op (inner.fill e) right
  | .rightOperand op left inner => .binary op left (inner.fill e)
  | .test inner yes no => .ternary (inner.fill e) yes no
  | .chosen condition inner no => .ternary condition (inner.fill e) no
  | .other condition yes inner => .ternary condition yes (inner.fill e)

/-- The width at which the hole is taken when the whole expression is taken at a width. -/
def Context.width (bits : String → Nat) (e : Expr) : Context → (w : Nat) → Nat
  | .hole, w => w
  | .part _ inner _, _ | .operand .logicNot inner, _ | .test inner _ _, _ =>
    inner.width bits e ((inner.fill e).ownBits bits)
  | .operand .not inner, w | .chosen _ inner _, w | .other _ _ inner, w => inner.width bits e w
  | .leftOperand op inner beside, w | .rightOperand op beside inner, w =>
    inner.width bits e (op.operandBits w ((inner.fill e).ownBits bits) (beside.ownBits bits))

section
variable {bits env bits' env' : String → Nat}

theorem namesAll_append (parts others : List Expr) :
    namesAll (parts ++ others) = namesAll parts ++ namesAll others := by
  induction parts with
  | nil => rfl
  | cons part rest ih => rw [List.cons_append, namesAll, namesAll, ih, List.append_assoc]

theorem partBits_append (parts others : List Expr) :
    partBits bits (parts ++ others) = partBits bits parts + partBits bits others := by
  induction parts with
  | nil => rw [List.nil_append, partBits, Nat.zero_add]
  | cons part rest ih => rw [List.cons_append, partBits, partBits, ih, Nat.add_assoc]

theorem joined_append (parts others : List Expr) (high : Nat) :
    joined bits env high (parts ++ others) =
      joined bits env (joined bits env high parts) others := by
  induction parts generalizing high with
  | nil => rw [List.nil_append, joined]
  | cons part rest ih => rw [List.cons_append, joined, joined, ih]

namespace Context

variable {e e' : Expr}

/-- The hole is never taken at less than the width of what is in it. -/
theorem ownBits_le_width (c : Context) {w : Nat} (h : (c.fill e).ownBits bits ≤ w) :
    e.ownBits bits ≤ c.width bits e w := by
  induction c generalizing w with
  | hole => exact h
  | part before inner after ih => exact ih (Nat.le_refl _)
  | test inner yes no ih => exact ih (Nat.le_refl _)
  | operand op inner ih =>
    cases op with
    | not =>
      rw [fill, ownBits] at h
      exact ih h
    | logicNot => exact ih (Nat.le_refl _)
  | leftOperand op inner right ih =>
    rw [fill, ownBits] at h
    refine ih (op.own_le_operandBits fun hop => ?_)
    rw [if_neg (by rw [hop]; decide)] at h
    omega
  | rightOperand op left inner ih =>
    rw [fill, ownBits] at h
    refine ih (op.own_le_operandBits fun hop => ?_)
    rw [if_neg (by rw [hop]; decide)] at h
    omega
  | chosen condition inner no ih =>
    rw [fill, ownBits] at h
    exact ih (by omega)
  | other condition yes inner ih =>
    rw [fill, ownBits] at h
    exact ih (by omega)

/-- What is as wide in the hole makes an expression that is as wide. -/
theorem ownBits_fill (c : Context) (hown : e.ownBits bits = e'.ownBits bits')
    (h : SameOn (c.fill e).names bits env bits' env') :
    (c.fill e).ownBits bits = (c.fill e').ownBits bits' := by
  induction c with
  | hole => exact hown
  | part before inner after ih =>
    rw [fill, names, namesAll_append, namesAll, sameOn_append, sameOn_append] at h
    rw [fill, fill, ownBits, ownBits, partBits_append, partBits_append, partBits, partBits,
      partBits_congr before h.1, ih h.2.1, partBits_congr after h.2.2]
  | operand op inner ih =>
    rw [fill, names] at h
    cases op with
    | not =>
      rw [fill, fill, ownBits, ownBits]
      exact ih h
    | logicNot => rw [fill, fill, ownBits, ownBits]
  | leftOperand op inner right ih =>
    rw [fill, names, sameOn_append] at h
    rw [fill, fill, ownBits, ownBits, ih h.1, ownBits_congr right h.2]
  | rightOperand op left inner ih =>
    rw [fill, names, sameOn_append] at h
    rw [fill, fill, ownBits, ownBits, ih h.2, ownBits_congr left h.1]
  | test inner yes no ih =>
    rw [fill, names, sameOn_append, sameOn_append] at h
    rw [fill, fill, ownBits, ownBits, ownBits_congr yes h.1.2, ownBits_congr no h.2]
  | chosen condition inner no ih =>
    rw [fill, names, sameOn_append, sameOn_append] at h
    rw [fill, fill, ownBits, ownBits, ih h.1.2, ownBits_congr no h.2]
  | other condition yes inner ih =>
    rw [fill, names, sameOn_append, sameOn_append] at h
    rw [fill, fill, ownBits, ownBits, ownBits_congr yes h.1.2, ih h.2]

/-- What has the same value in the hole, at the width of the hole, makes an expression with the same
value. -/
theorem value_fill (c : Context) {w : Nat} (hown : e.ownBits bits = e'.ownBits bits')
    (h : SameOn (c.fill e).names bits env bits' env')
    (hvalue : e.value bits env (c.width bits e w) = e'.value bits' env' (c.width bits e w)) :
    (c.fill e).value bits env w = (c.fill e').value bits' env' w := by
  induction c generalizing w with
  | hole => exact hvalue
  | part before inner after ih =>
    rw [fill, names, namesAll_append, namesAll, sameOn_append, sameOn_append] at h
    rw [fill, fill, value, value, joined_append, joined_append, joined, joined,
      joined_congr before 0 h.1, ← inner.ownBits_fill hown h.2.1, ih h.2.1 hvalue,
      joined_congr after _ h.2.2]
  | operand op inner ih =>
    rw [fill, names] at h
    cases op with
    | not => rw [fill, fill, value, value, ih h hvalue]
    | logicNot => rw [fill, fill, value, value, ← inner.ownBits_fill hown h, ih h hvalue]
  | leftOperand op inner right ih =>
    rw [fill, names, sameOn_append] at h
    exact value_binary (inner.ownBits_fill hown h.1) (ownBits_congr right h.2) (ih h.1 hvalue)
      (value_congr right _ h.2)
  | rightOperand op left inner ih =>
    rw [fill, names, sameOn_append] at h
    exact value_binary (ownBits_congr left h.1) (inner.ownBits_fill hown h.2)
      (value_congr left _ h.1) (ih h.2 hvalue)
  | test inner yes no ih =>
    rw [fill, names, sameOn_append, sameOn_append] at h
    rw [fill, fill, value, value, ← inner.ownBits_fill hown h.1.1, ih h.1.1 hvalue,
      value_congr yes w h.1.2, value_congr no w h.2]
  | chosen condition inner no ih =>
    rw [fill, names, sameOn_append, sameOn_append] at h
    rw [fill, fill, value, value, ownBits_congr condition h.1.1, value_congr condition _ h.1.1,
      ih h.1.2 hvalue, value_congr no w h.2]
  | other condition yes inner ih =>
    rw [fill, names, sameOn_append, sameOn_append] at h
    rw [fill, fill, value, value, ownBits_congr condition h.1.1, value_congr condition _ h.1.1,
      value_congr yes w h.1.2, ih h.2 hvalue]

end Context

end

end Expr

end GateSynth.Verilog
