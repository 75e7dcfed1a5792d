import GateSynth.Proofs.Verilog.Positions

/-!
# The grammar of expressions

`Derives` is the grammar of expressions as it is written down: a choice, a level for each line of
`operatorLevels` with its operators joined from the left, operators in front of an operand, and
operands. Every parser has one lemma for what its runs are made of (`run_expr_iff` and so on), and
from these the grammar derives whatever the parsers take from the tokens that they go behind
(`Sound`).
-/

namespace GateSynth.Verilog

/-! ## The grammar -/

/-- The operators between two operands, the loosest level first. -/
def operatorLevels : List (List (Mark × BinaryOp)) :=
  [[(.orOr, .logicOr)],
    [(.andAnd, .logicAnd)],
    [(.pipe, .or)],
    [(.caret, .xor), (.xnor, .xnor)],
    [(.amp, .and)],
    [(.equalEqual, .eq), (.notEqual, .ne)],
    [(.less, .lt), (.lessEqual, .le), (.greater, .gt), (.greaterEqual, .ge)],
    [(.plus, .add), (.minus, .sub)],
    [(.star, .mul), (.slash, .div)]]

/-- The mark is an operator of a level. -/
def IsOperator (level : Nat) (m : Mark) (op : BinaryOp) : Prop :=
  ∃ operators, operatorLevels[level]? = some operators ∧ (m, op) ∈ operators

/-- The operators in front of an operand, with what they make of it: a minus sign subtracts from
zero. -/
def signs : List (Mark × (Expr → Expr)) :=
  [(.tilde, .unary .not), (.bang, .unary .logicNot), (.minus, .binary .sub (.number none 0))]

/-- What can be derived. -/
inductive Symbol where
  /-- An expression. -/
  | expr
  /-- Operands joined by operators of a level and of tighter ones. -/
  | joined (level : Nat)
  /-- An operand with operators in front of it. -/
  | signed
  /-- A signal, a literal, an expression in parentheses, or parts in braces. -/
  | operand

/-- The tokens derive a tree without positions. -/
inductive Derives : Symbol → List Token → Expr → Prop
  | plain {ts : List Token} {e : Expr} (joined : Derives (.joined 0) ts e) : Derives .expr ts e
  | choice {cs ys ns : List Token} {c y n : Expr} (condition : Derives (.joined 0) cs c)
    (yes : Derives .expr ys y) (no : Derives .expr ns n) :
    Derives .expr (cs ++ .mark .question :: (ys ++ .mark .colon :: ns)) (.ternary c y n)
  /-- The left operand is of the same level, the right one of a tighter one. -/
  | join {level : Nat} {ls rs : List Token} {m : Mark} {op : BinaryOp} {l r : Expr}
    (operator : IsOperator level m op) (left : Derives (.joined level) ls l)
    (right : Derives (.joined (level + 1)) rs r) :
    Derives (.joined level) (ls ++ .mark m :: rs) (.binary op l r)
  | tighter {level : Nat} {ts : List Token} {e : Expr}
    (joined : Derives (.joined (level + 1)) ts e) : Derives (.joined level) ts e
  | single {ts : List Token} {e : Expr} (signed : Derives .signed ts e) :
    Derives (.joined operatorLevels.length) ts e
  | sign {m : Mark} {f : Expr → Expr} {ts : List Token} {e : Expr} (sign : (m, f) ∈ signs)
    (signed : Derives .signed ts e) : Derives .signed (.mark m :: ts) (f e)
  | unsigned {ts : List Token} {e : Expr} (operand : Derives .operand ts e) : Derives .signed ts e
  | ident (name : String) : Derives .operand [.ident name] (.ident name .nowhere)
  | range (name : String) {m l : Word} (msb : m.toNat < UInt32.size) (lsb : l.toNat ≤ m.toNat) :
    Derives .operand [.ident name, .mark .leftBracket, .number m, .mark .colon, .number l,
      .mark .rightBracket] (.select name m.toNat l.toNat .nowhere)
  | bit (name : String) {m : Word} (msb : m.toNat < UInt32.size) :
    Derives .operand [.ident name, .mark .leftBracket, .number m, .mark .rightBracket]
      (.select name m.toNat m.toNat .nowhere)
  | number (value : Word) : Derives .operand [.number value] (.number none value)
  | sized (width : Nat) (value : Word) :
    Derives .operand [.sized width value] (.number (some width) value)
  | parens {ts : List Token} {e : Expr} (inner : Derives .expr ts e) :
    Derives .operand (.mark .leftParen :: (ts ++ [.mark .rightParen])) e
  | concat {ts : List Token} {e : Expr} {rest : List (List Token × Expr)}
    (first : Derives .expr ts e) (others : ∀ part ∈ rest, Derives .expr part.1 part.2) :
    Derives .operand (.mark .leftBrace :: (ts ++
        (rest.flatMap (fun part => .mark .comma :: part.1) ++ [.mark .rightBrace])))
      (.concat (e :: rest.map Prod.snd))

/-- The levels are those of the binding powers. -/
theorem isOperator_iff {level : Nat} {m : Mark} {op : BinaryOp} :
    IsOperator level m op ↔ Parser.bindingPower? (.mark m) = some (level + 1, op) := by
  constructor
  · rintro ⟨operators, hlevel, hop⟩
    have hall : ∀ p ∈ operatorLevels.zipIdx, ∀ q ∈ p.1,
        Parser.bindingPower? (.mark q.1) = some (p.2 + 1, q.2) := by decide
    exact hall _ (List.mk_mem_zipIdx_iff_getElem?.2 hlevel) _ hop
  · intro h
    cases m <;> cases h <;> exact ⟨_, rfl, by decide⟩

/-- What is derived at a level is derived at the looser ones. -/
theorem Derives.loosen {level level' : Nat} {ts : List Token} {e : Expr}
    (h : Derives (.joined level) ts e) (hle : level' ≤ level) : Derives (.joined level') ts e := by
  induction level with
  | zero => exact Nat.le_zero.1 hle ▸ h
  | succ level ih =>
    rcases Nat.le_succ_iff.1 hle with hle | rfl
    · exact ih h.tighter hle
    · exact h

/-! ## Tokens between cursors -/

/-- Going behind tokens leads from one cursor to another. -/
def Cursor.Reaches (c : Cursor) (ts : List Token) (c' : Cursor) : Prop :=
  ∃ spanned : List Spanned, spanned.map Spanned.token = ts ∧ c = ⟨spanned ++ c'.rest, c'.last⟩

namespace Cursor

variable {c c' d : Cursor} {t : Token} {ts us : List Token}

@[simp] theorem reaches_nil_iff : c.Reaches [] c' ↔ c = c' := by
  simp [Reaches]

theorem Reaches.trans (h : c.Reaches ts d) (h' : d.Reaches us c') : c.Reaches (ts ++ us) c' := by
  obtain ⟨spanned, rfl, rfl⟩ := h
  obtain ⟨spanned', rfl, rfl⟩ := h'
  exact ⟨spanned ++ spanned', List.map_append, by rw [List.append_assoc]⟩

theorem reaches_append_iff : c.Reaches (ts ++ us) c' ↔ ∃ d, c.Reaches ts d ∧ d.Reaches us c' := by
  refine ⟨?_, fun ⟨_, h, h'⟩ => h.trans h'⟩
  rintro ⟨spanned, heq, rfl⟩
  obtain ⟨first, second, rfl, rfl, rfl⟩ := List.map_eq_append_iff.1 heq
  exact ⟨⟨second ++ c'.rest, c'.last⟩, ⟨first, rfl, by rw [List.append_assoc]⟩, second, rfl, rfl⟩

theorem reaches_cons_iff :
    c.Reaches (t :: ts) c' ↔ c.peek? = some t ∧ c.next.Reaches ts c' := by
  constructor
  · rintro ⟨spanned, heq, rfl⟩
    obtain ⟨s, rest, rfl, rfl, rfl⟩ := List.map_eq_cons_iff.1 heq
    exact ⟨rfl, rest, rfl, rfl⟩
  · rintro ⟨hpeek, spanned, rfl, hnext⟩
    obtain ⟨rest, last⟩ := c
    obtain ⟨s, hs, rfl⟩ := Option.map_eq_some_iff.1 hpeek
    obtain ⟨tail, rfl⟩ := List.head?_eq_some_iff.1 hs
    cases hnext
    exact ⟨s :: spanned, rfl, rfl⟩

theorem Reaches.cons (ht : c.peek? = some t) (h : c.next.Reaches ts c') : c.Reaches (t :: ts) c' :=
  reaches_cons_iff.2 ⟨ht, h⟩

theorem reaches_singleton_iff : c.Reaches [t] c' ↔ c.peek? = some t ∧ c.next = c' := by
  rw [reaches_cons_iff, reaches_nil_iff]

theorem reaches_next (h : c.peek? = some t) : c.Reaches [t] c.next :=
  reaches_singleton_iff.2 ⟨h, rfl⟩

/-- No operator of the level `power` or a tighter one is next. -/
def Closes (c : Cursor) (power : Nat) : Prop :=
  ∀ level m op, c.peek? = some (.mark m) → IsOperator level m op → level + 1 ≤ power

theorem Closes.mono {power power' : Nat} (h : c.Closes power) (hle : power ≤ power') :
    c.Closes power' := fun level m op hpeek hop => (h level m op hpeek hop).trans hle

end Cursor

/-! ## Runs of the parser -/

namespace Parser

section
variable {α β : Type} {c : Cursor} {r : β × Cursor}

theorem run_bind_iff {p : Parser α} {f : α → Parser β} :
    (p >>= f).run c = .ok r ↔ ∃ a d, p.run c = .ok (a, d) ∧ (f a).run d = .ok r := by
  refine ⟨run_of_bind, fun ⟨a, d, hp, hf⟩ => ?_⟩
  rw [StateT.run_bind, hp]
  exact hf

theorem run_pure_iff {a : β} : (pure a : Parser β).run c = .ok r ↔ (a, c) = r :=
  ⟨fun h => Except.ok.inj h, fun h => h ▸ rfl⟩

theorem run_peek_bind (f : Option Token → Parser β) : (peek >>= f).run c = (f c.peek?).run c := rfl

theorem run_skip_bind (f : Unit → Parser β) : (skip >>= f).run c = (f ()).run c.next := rfl

theorem run_acceptMark_iff {m : Mark} {f : Bool → Parser β} :
    (acceptMark m >>= f).run c = .ok r ↔
      (c.peek? = some (.mark m) ∧ (f true).run c.next = .ok r) ∨
        (c.peek? ≠ some (.mark m) ∧ (f false).run c = .ok r) := by
  rw [acceptMark, accept, bind_assoc, run_peek_bind]
  split
  · next h =>
    exact ⟨fun hrun => .inl ⟨h, hrun⟩, fun hrun => (hrun.resolve_right fun hn => hn.1 h).2⟩
  · next h =>
    exact ⟨fun hrun => .inr ⟨h, hrun⟩, fun hrun => (hrun.resolve_left fun hn => h hn.1).2⟩

theorem run_expectMark_iff {m : Mark} {f : Unit → Parser β} :
    (expectMark m >>= f).run c = .ok r ↔
      c.peek? = some (.mark m) ∧ (f ()).run c.next = .ok r := by
  rw [expectMark, expect, show accept (.mark m) = acceptMark m from rfl, bind_assoc,
    run_acceptMark_iff]
  exact or_iff_left fun ⟨_, hrun⟩ => nomatch hrun

theorem run_index_iff {f : Nat → Parser β} :
    (index >>= f).run c = .ok r ↔ ∃ value : Word, c.peek? = some (.number value) ∧
      value.toNat < UInt32.size ∧ (f value.toNat).run c.next = .ok r := by
  rw [index, bind_assoc, run_peek_bind]
  split
  · next value h =>
    rw [bind_assoc, run_skip_bind]
    split
    · next hlt =>
      exact ⟨fun hrun => ⟨value, h, hlt, hrun⟩, fun ⟨_, hpeek, _, hrun⟩ => by
        cases h.symm.trans hpeek
        exact hrun⟩
    · next hlt =>
      exact ⟨nofun, fun ⟨_, hpeek, hlt', _⟩ => by
        cases h.symm.trans hpeek
        exact absurd hlt' hlt⟩
  · next h => exact ⟨nofun, fun ⟨value, hpeek, _⟩ => absurd hpeek (h value)⟩

end

variable {c c' : Cursor} {e left : Expr} {fuel power : Nat}

/-- The bits of a signal in brackets, or the signal. -/
theorem run_signal_iff {name : String} {pos : Position} :
    (signal name pos).run c = .ok (e, c') ↔
      (c.peek? ≠ some (.mark .leftBracket) ∧ e = .ident name pos ∧ c' = c) ∨
      (∃ m l : Word, m.toNat < UInt32.size ∧ l.toNat ≤ m.toNat ∧
        c.Reaches [.mark .leftBracket, .number m, .mark .colon, .number l, .mark .rightBracket] c' ∧
        e = .select name m.toNat l.toNat pos) ∨
      ∃ m : Word, m.toNat < UInt32.size ∧
        c.Reaches [.mark .leftBracket, .number m, .mark .rightBracket] c' ∧
        e = .select name m.toNat m.toNat pos := by
  have hclose : ∀ (msb lsb : Nat) (d : Cursor), (do
        if msb < lsb then
          Parser.unsupported s!"ascending part-select [{msb}:{lsb}]"
        expectMark .rightBracket
        return Expr.select name msb lsb pos).run d = .ok (e, c') ↔
      lsb ≤ msb ∧ d.Reaches [.mark .rightBracket] c' ∧ e = .select name msb lsb pos := by
    intro msb lsb d
    split
    · next hlt => exact ⟨nofun, fun h => absurd hlt (Nat.not_lt.2 h.1)⟩
    · next hle =>
      rw [run_expectMark_iff, run_pure_iff, Cursor.reaches_singleton_iff, Prod.mk.injEq]
      exact ⟨fun ⟨hpeek, he, hc⟩ => ⟨Nat.le_of_not_lt hle, ⟨hpeek, hc⟩, he.symm⟩,
        fun ⟨_, ⟨hpeek, hc⟩, he⟩ => ⟨hpeek, he.symm, hc⟩⟩
  constructor
  · intro hrun
    rcases run_acceptMark_iff.1 hrun with ⟨hopen, hrun⟩ | ⟨hnone, hrun⟩
    · obtain ⟨m, hm, hlt, hrun⟩ := run_index_iff.1 hrun
      rcases run_acceptMark_iff.1 hrun with ⟨hcolon, hrun⟩ | ⟨-, hrun⟩
      · obtain ⟨l, hl, -, hrun⟩ := run_index_iff.1 hrun
        obtain ⟨hle, hclosed, he⟩ := (hclose _ _ _).1 hrun
        refine .inr (.inl ⟨m, l, hlt, hle, ?_, he⟩)
        exact (Cursor.reaches_next hopen).trans ((Cursor.reaches_next hm).trans
          ((Cursor.reaches_next hcolon).trans ((Cursor.reaches_next hl).trans hclosed)))
      · obtain ⟨-, hclosed, he⟩ := (hclose _ _ _).1 hrun
        refine .inr (.inr ⟨m, hlt, ?_, he⟩)
        exact (Cursor.reaches_next hopen).trans ((Cursor.reaches_next hm).trans hclosed)
    · cases run_pure_iff.1 hrun
      exact .inl ⟨hnone, rfl, rfl⟩
  · rintro (⟨hnone, rfl, rfl⟩ | ⟨m, l, hm, hle, hreaches, rfl⟩ | ⟨m, hm, hreaches, rfl⟩)
    · exact run_acceptMark_iff.2 (.inr ⟨hnone, run_pure_iff.2 rfl⟩)
    · simp only [Cursor.reaches_cons_iff, Cursor.reaches_nil_iff] at hreaches
      obtain ⟨hopen, hmsb, hcolon, hlsb, hclosed⟩ := hreaches
      refine run_acceptMark_iff.2 (.inl ⟨hopen, run_index_iff.2 ⟨m, hmsb, hm, ?_⟩⟩)
      refine run_acceptMark_iff.2 (.inl ⟨hcolon, run_index_iff.2 ⟨l, hlsb, hle.trans_lt hm, ?_⟩⟩)
      exact (hclose _ _ _).2 ⟨hle, Cursor.reaches_singleton_iff.2 hclosed, rfl⟩
    · simp only [Cursor.reaches_cons_iff, Cursor.reaches_nil_iff] at hreaches
      obtain ⟨hopen, hmsb, hclosed⟩ := hreaches
      have hnocolon : c.next.next.peek? ≠ some (.mark .colon) := by
        rw [hclosed.1]
        decide
      refine run_acceptMark_iff.2 (.inl ⟨hopen, run_index_iff.2 ⟨m, hmsb, hm, ?_⟩⟩)
      refine run_acceptMark_iff.2 (.inr ⟨hnocolon, ?_⟩)
      exact (hclose _ _ _).2 ⟨le_rfl, Cursor.reaches_singleton_iff.2 hclosed, rfl⟩

theorem run_expr_iff : (expr (fuel + 1)).run c = .ok (e, c') ↔
    ∃ condition d, (binary fuel 0).run c = .ok (condition, d) ∧
      ((d.peek? ≠ some (.mark .question) ∧ condition = e ∧ d = c') ∨
        ∃ yes no d', d.peek? = some (.mark .question) ∧ (expr fuel).run d.next = .ok (yes, d') ∧
          d'.peek? = some (.mark .colon) ∧ (expr fuel).run d'.next = .ok (no, c') ∧
          .ternary condition yes no = e) := by
  rw [expr, run_bind_iff]
  refine exists₂_congr fun condition d => and_congr_right fun _ => run_acceptMark_iff.trans ?_
  constructor
  · rintro (⟨hquestion, hrun⟩ | ⟨hnone, hrun⟩)
    · obtain ⟨yes, d', hyes, hrun⟩ := run_of_bind hrun
      obtain ⟨hcolon, hrun⟩ := run_expectMark_iff.1 hrun
      obtain ⟨no, _, hno, hrun⟩ := run_of_bind hrun
      cases run_pure_iff.1 hrun
      exact .inr ⟨yes, no, d', hquestion, hyes, hcolon, hno, rfl⟩
    · cases run_pure_iff.1 hrun
      exact .inl ⟨hnone, rfl, rfl⟩
  · rintro (⟨hnone, rfl, rfl⟩ | ⟨yes, no, d', hquestion, hyes, hcolon, hno, rfl⟩)
    · exact .inr ⟨hnone, run_pure_iff.2 rfl⟩
    · refine .inl ⟨hquestion, run_bind_iff.2 ⟨yes, d', hyes, run_expectMark_iff.2 ⟨hcolon, ?_⟩⟩⟩
      exact run_bind_iff.2 ⟨no, c', hno, run_pure_iff.2 rfl⟩

theorem run_binary_iff : (binary (fuel + 1) power).run c = .ok (e, c') ↔
    ∃ left d, (unary fuel).run c = .ok (left, d) ∧
      (binaryRest fuel power left).run d = .ok (e, c') := by
  rw [binary, run_bind_iff]

/-- The next token is an operator of a level. -/
theorem bindingPower?_peek {tighter : Nat} {op : BinaryOp}
    (h : c.peek?.bind bindingPower? = some (tighter, op)) :
    ∃ level m, c.peek? = some (.mark m) ∧ tighter = level + 1 ∧ IsOperator level m op := by
  obtain ⟨t, ht, hpower⟩ := Option.bind_eq_some_iff.1 h
  cases t with
  | mark m =>
    obtain ⟨level, rfl⟩ : ∃ level, tighter = level + 1 := by
      cases m <;> cases hpower <;> exact ⟨_, rfl⟩
    exact ⟨level, m, ht, rfl, isOperator_iff.2 hpower⟩
  | keyword | ident | sized | number => cases hpower

theorem run_binaryRest_iff : (binaryRest (fuel + 1) power left).run c = .ok (e, c') ↔
    (c.Closes power ∧ left = e ∧ c = c') ∨
      ∃ level m op right d, c.peek? = some (.mark m) ∧ IsOperator level m op ∧ power ≤ level ∧
        (binary fuel (level + 1)).run c.next = .ok (right, d) ∧
        (binaryRest fuel power (.binary op left right)).run d = .ok (e, c') := by
  rw [binaryRest, run_peek_bind]
  constructor
  · intro hrun
    split at hrun
    · next tighter op hpower =>
      obtain ⟨level, m, hpeek, rfl, hop⟩ := bindingPower?_peek hpower
      split at hrun
      · next hle =>
        cases run_pure_iff.1 hrun
        refine .inl ⟨fun level' m' op' hpeek' hop' => ?_, rfl, rfl⟩
        cases hpeek.symm.trans hpeek'
        cases (isOperator_iff.1 hop).symm.trans (isOperator_iff.1 hop')
        exact hle
      · next hlt =>
        rw [run_skip_bind] at hrun
        obtain ⟨right, d, hright, hrun⟩ := run_of_bind hrun
        exact .inr ⟨level, m, op, right, d, hpeek, hop, by omega, hright, hrun⟩
    · next hnone =>
      cases run_pure_iff.1 hrun
      refine .inl ⟨fun level m op hpeek hop => ?_, rfl, rfl⟩
      rw [hpeek, Option.bind_some, isOperator_iff.1 hop] at hnone
      cases hnone
  · rintro (⟨hcloses, rfl, rfl⟩ | ⟨level, m, op, right, d, hpeek, hop, hle, hright, hrun⟩)
    · split
      · next tighter op hpower =>
        obtain ⟨level, m, hpeek, rfl, hop⟩ := bindingPower?_peek hpower
        rw [if_pos (hcloses level m op hpeek hop)]
        rfl
      · rfl
    · rw [hpeek, Option.bind_some, isOperator_iff.1 hop]
      dsimp only
      rw [if_neg (by omega), run_skip_bind]
      exact run_bind_iff.2 ⟨right, d, hright, hrun⟩

theorem run_unary_iff : (unary (fuel + 1)).run c = .ok (e, c') ↔
    (∃ m f inner, (m, f) ∈ signs ∧ c.peek? = some (.mark m) ∧
        (unary fuel).run c.next = .ok (inner, c') ∧ f inner = e) ∨
      ((∀ m ∈ [Mark.tilde, .bang, .minus, .amp, .pipe, .caret, .xnor],
        c.peek? ≠ some (.mark m)) ∧ (operand fuel).run c = .ok (e, c')) := by
  have hsigned : ∀ f : Expr → Expr,
      (skip >>= fun _ => unary fuel >>= fun inner => pure (f inner) : Parser Expr).run c =
          .ok (e, c') ↔
        ∃ inner, (unary fuel).run c.next = .ok (inner, c') ∧ f inner = e := by
    intro f
    rw [run_skip_bind, run_bind_iff]
    refine exists_congr fun inner => ⟨?_, ?_⟩
    · rintro ⟨d, hinner, hrun⟩
      cases run_pure_iff.1 hrun
      exact ⟨hinner, rfl⟩
    · rintro ⟨hinner, rfl⟩
      exact ⟨c', hinner, run_pure_iff.2 rfl⟩
  rw [unary, run_peek_bind]
  constructor
  · intro hrun
    split at hrun
    · next h =>
      obtain ⟨inner, hinner, he⟩ := (hsigned _).1 hrun
      exact .inl ⟨_, _, inner, .head _, h, hinner, he⟩
    · next h =>
      obtain ⟨inner, hinner, he⟩ := (hsigned _).1 hrun
      exact .inl ⟨_, _, inner, .tail _ (.head _), h, hinner, he⟩
    · next h =>
      obtain ⟨inner, hinner, he⟩ := (hsigned _).1 hrun
      exact .inl ⟨_, _, inner, .tail _ (.tail _ (.head _)), h, hinner, he⟩
    · cases hrun
    · cases hrun
    · cases hrun
    · cases hrun
    · next htilde hbang hminus hamp hpipe hcaret hxnor =>
      refine .inr ⟨?_, hrun⟩
      simp only [List.forall_mem_cons]
      exact ⟨htilde, hbang, hminus, hamp, hpipe, hcaret, hxnor, nofun⟩
  · rintro (⟨m, f, inner, hsign, hpeek, hinner, he⟩ | ⟨hunsigned, hrun⟩)
    · have hrest := (hsigned f).2 ⟨inner, hinner, he⟩
      rw [hpeek]
      simp only [signs, List.mem_cons, Prod.mk.injEq, List.not_mem_nil, or_false] at hsign
      rcases hsign with ⟨rfl, rfl⟩ | ⟨rfl, rfl⟩ | ⟨rfl, rfl⟩ <;> exact hrest
    · simp only [List.forall_mem_cons] at hunsigned
      obtain ⟨htilde, hbang, hminus, hamp, hpipe, hcaret, hxnor, -⟩ := hunsigned
      split <;> first | contradiction | exact hrun

theorem run_operand_iff : (operand (fuel + 1)).run c = .ok (e, c') ↔
    (∃ name, c.peek? = some (.ident name) ∧ (signal name c.pos).run c.next = .ok (e, c')) ∨
    (∃ value, c.peek? = some (.number value) ∧ .number none value = e ∧ c.next = c') ∨
    (∃ width value, c.peek? = some (.sized width value) ∧ .number (some width) value = e ∧
      c.next = c') ∨
    (∃ d, c.peek? = some (.mark .leftParen) ∧ (expr fuel).run c.next = .ok (e, d) ∧
      d.peek? = some (.mark .rightParen) ∧ d.next = c') ∨
    ∃ first parts d d', c.peek? = some (.mark .leftBrace) ∧
      (expr fuel).run c.next = .ok (first, d) ∧ (exprsRest fuel [first]).run d = .ok (parts, d') ∧
      d'.peek? = some (.mark .rightBrace) ∧ .concat parts = e ∧ d'.next = c' := by
  rw [operand, show ∀ f : Position → Parser Expr, (position >>= f).run c = (f c.pos).run c from
    fun _ => rfl, run_peek_bind]
  constructor
  · intro hrun
    split at hrun
    · next name h => exact .inl ⟨name, h, hrun⟩
    · next value h =>
      cases run_pure_iff.1 hrun
      exact .inr (.inl ⟨value, h, rfl, rfl⟩)
    · next width value h =>
      cases run_pure_iff.1 hrun
      exact .inr (.inr (.inl ⟨width, value, h, rfl, rfl⟩))
    · next h =>
      rw [run_skip_bind] at hrun
      obtain ⟨inner, d, hinner, hrun⟩ := run_of_bind hrun
      obtain ⟨hclose, hrun⟩ := run_expectMark_iff.1 hrun
      cases run_pure_iff.1 hrun
      exact .inr (.inr (.inr (.inl ⟨d, h, hinner, hclose, rfl⟩)))
    · next h =>
      rw [run_skip_bind] at hrun
      obtain ⟨first, d, hfirst, hrun⟩ := run_of_bind hrun
      obtain ⟨parts, d', hparts, hrun⟩ := run_of_bind hrun
      obtain ⟨hclose, hrun⟩ := run_expectMark_iff.1 hrun
      cases run_pure_iff.1 hrun
      exact .inr (.inr (.inr (.inr ⟨first, parts, d, d', h, hfirst, hparts, hclose, rfl, rfl⟩)))
    · cases hrun
    · cases hrun
    · cases hrun
  · rintro (⟨name, h, hrun⟩ | ⟨value, h, rfl, rfl⟩ | ⟨width, value, h, rfl, rfl⟩ |
      ⟨d, h, hinner, hclose, rfl⟩ | ⟨first, parts, d, d', h, hfirst, hparts, hclose, rfl, rfl⟩)
    · rw [h]
      exact hrun
    · rw [h]
      rfl
    · rw [h]
      rfl
    · rw [h]
      refine run_bind_iff.2 ⟨(), c.next, rfl, run_bind_iff.2 ⟨e, d, hinner, ?_⟩⟩
      exact run_expectMark_iff.2 ⟨hclose, run_pure_iff.2 rfl⟩
    · rw [h]
      refine run_bind_iff.2 ⟨(), c.next, rfl, run_bind_iff.2 ⟨first, d, hfirst, ?_⟩⟩
      refine run_bind_iff.2 ⟨parts, d', hparts, ?_⟩
      exact run_expectMark_iff.2 ⟨hclose, run_pure_iff.2 rfl⟩

theorem run_exprsRest_iff {before es : List Expr} :
    (exprsRest (fuel + 1) before).run c = .ok (es, c') ↔
      (c.peek? ≠ some (.mark .comma) ∧ before = es ∧ c = c') ∨
        ∃ next d, c.peek? = some (.mark .comma) ∧ (expr fuel).run c.next = .ok (next, d) ∧
          (exprsRest fuel (before ++ [next])).run d = .ok (es, c') := by
  rw [exprsRest, run_acceptMark_iff, or_comm]
  refine or_congr (and_congr_right fun _ => run_pure_iff.trans Prod.mk_inj) ?_
  constructor
  · rintro ⟨hcomma, hrun⟩
    obtain ⟨next, d, hnext, hrun⟩ := run_of_bind hrun
    exact ⟨next, d, hcomma, hnext, hrun⟩
  · rintro ⟨next, d, hcomma, hnext, hrun⟩
    exact ⟨hcomma, run_bind_iff.2 ⟨next, d, hnext, hrun⟩⟩

end Parser

/-! ## Trees that are read -/

theorem Expr.unplacedAll_eq_map (es : List Expr) : Expr.unplacedAll es = es.map Expr.unplaced := by
  induction es with
  | nil => rw [unplacedAll, List.map_nil]
  | cons e es ih => rw [unplacedAll, List.map_cons, ih]

/-- Operators in front of an operand have no positions. -/
theorem unplaced_sign {m : Mark} {f : Expr → Expr} (h : (m, f) ∈ signs) (e : Expr) :
    (f e).unplaced = f e.unplaced := by
  simp only [signs, List.mem_cons, Prod.mk.injEq, List.not_mem_nil, or_false] at h
  rcases h with ⟨-, rfl⟩ | ⟨-, rfl⟩ | ⟨-, rfl⟩ <;> simp only [Expr.unplaced]

/-- What the parsers take, with some fuel, is derived from the tokens that they go behind. -/
structure Sound (fuel : Nat) : Prop where
  expr : ∀ {c c' : Cursor} {e : Expr}, (Parser.expr fuel).run c = .ok (e, c') →
    ∃ ts, c.Reaches ts c' ∧ Derives .expr ts e.unplaced
  binary : ∀ {c c' : Cursor} {e : Expr} {power : Nat}, power ≤ operatorLevels.length →
    (Parser.binary fuel power).run c = .ok (e, c') →
      ∃ ts, c.Reaches ts c' ∧ Derives (.joined power) ts e.unplaced ∧ c'.Closes power
  /-- The operators still to come may go on the level of the left operand. -/
  binaryRest : ∀ {c c' : Cursor} {left e : Expr} {power level : Nat} {ls : List Token},
    power ≤ level → Derives (.joined level) ls left.unplaced → c.Closes (level + 1) →
    (Parser.binaryRest fuel power left).run c = .ok (e, c') →
      ∃ ts, c.Reaches ts c' ∧ Derives (.joined power) (ls ++ ts) e.unplaced ∧ c'.Closes power
  unary : ∀ {c c' : Cursor} {e : Expr}, (Parser.unary fuel).run c = .ok (e, c') →
    ∃ ts, c.Reaches ts c' ∧ Derives .signed ts e.unplaced
  operand : ∀ {c c' : Cursor} {e : Expr}, (Parser.operand fuel).run c = .ok (e, c') →
    ∃ ts, c.Reaches ts c' ∧ Derives .operand ts e.unplaced
  exprsRest : ∀ {c c' : Cursor} {before es : List Expr},
    (Parser.exprsRest fuel before).run c = .ok (es, c') →
      ∃ parts : List (List Token × Expr),
        c.Reaches (parts.flatMap fun part => .mark .comma :: part.1) c' ∧
        (∀ part ∈ parts, Derives .expr part.1 part.2) ∧
        es.map Expr.unplaced = before.map Expr.unplaced ++ parts.map Prod.snd

namespace Sound

open Cursor

variable {fuel power level : Nat} {c c' : Cursor} {e left : Expr} {ls : List Token}

theorem zero : Sound 0 := by
  constructor <;> nofun

theorem expr_succ (ih : Sound fuel) (h : (Parser.expr (fuel + 1)).run c = .ok (e, c')) :
    ∃ ts, c.Reaches ts c' ∧ Derives .expr ts e.unplaced := by
  obtain ⟨condition, d, hcondition, hrest⟩ := Parser.run_expr_iff.1 h
  obtain ⟨cs, hcs, hjoined, -⟩ := ih.binary (Nat.zero_le _) hcondition
  rcases hrest with ⟨-, rfl, rfl⟩ | ⟨yes, no, d', hquestion, hyes, hcolon, hno, rfl⟩
  · exact ⟨cs, hcs, .plain hjoined⟩
  · obtain ⟨ys, hys, hyes⟩ := ih.expr hyes
    obtain ⟨ns, hns, hno⟩ := ih.expr hno
    rw [Expr.unplaced]
    exact ⟨_, hcs.trans (.cons hquestion (hys.trans (.cons hcolon hns))), .choice hjoined hyes hno⟩

theorem binary_succ (ih : Sound fuel) (hpower : power ≤ operatorLevels.length)
    (h : (Parser.binary (fuel + 1) power).run c = .ok (e, c')) :
    ∃ ts, c.Reaches ts c' ∧ Derives (.joined power) ts e.unplaced ∧ c'.Closes power := by
  obtain ⟨left, d, hleft, hrest⟩ := Parser.run_binary_iff.1 h
  obtain ⟨ls, hls, hsigned⟩ := ih.unary hleft
  have hcloses : d.Closes (operatorLevels.length + 1) := fun level m op _ ⟨_, hlevel, _⟩ =>
    Nat.succ_le_succ (List.getElem?_eq_some_iff.1 hlevel).1.le
  obtain ⟨ts, hts, hjoined, hclosed⟩ := ih.binaryRest hpower (.single hsigned) hcloses hrest
  exact ⟨ls ++ ts, hls.trans hts, hjoined, hclosed⟩

/-- An operator that may follow joins the level that it is of. -/
theorem binaryRest_succ (ih : Sound fuel) (hpower : power ≤ level)
    (hleft : Derives (.joined level) ls left.unplaced) (hcloses : c.Closes (level + 1))
    (h : (Parser.binaryRest (fuel + 1) power left).run c = .ok (e, c')) :
    ∃ ts, c.Reaches ts c' ∧ Derives (.joined power) (ls ++ ts) e.unplaced ∧ c'.Closes power := by
  rcases Parser.run_binaryRest_iff.1 h with ⟨hclosed, rfl, rfl⟩ |
    ⟨level', m, op, right, d, hpeek, hop, hlevel, hright, hrest⟩
  · exact ⟨[], reaches_nil_iff.2 rfl, by rw [List.append_nil]; exact hleft.loosen hpower, hclosed⟩
  · have hlt : level' < operatorLevels.length := by
      obtain ⟨_, hlevel', -⟩ := hop
      exact (List.getElem?_eq_some_iff.1 hlevel').1
    obtain ⟨rs, hrs, hjoined, hnext⟩ := ih.binary hlt hright
    have hleft' := hleft.loosen (Nat.le_of_succ_le_succ (hcloses level' m op hpeek hop))
    have hboth : Derives (.joined level') (ls ++ .mark m :: rs)
        (Expr.binary op left right).unplaced := by
      rw [Expr.unplaced]
      exact .join hop hleft' hjoined
    obtain ⟨ts, hts, hall, hclosed⟩ := ih.binaryRest hlevel hboth hnext hrest
    rw [List.append_assoc, List.cons_append] at hall
    exact ⟨_, .cons hpeek (hrs.trans hts), hall, hclosed⟩

theorem unary_succ (ih : Sound fuel) (h : (Parser.unary (fuel + 1)).run c = .ok (e, c')) :
    ∃ ts, c.Reaches ts c' ∧ Derives .signed ts e.unplaced := by
  rcases Parser.run_unary_iff.1 h with ⟨m, f, inner, hsign, hpeek, hinner, rfl⟩ | ⟨-, hoperand⟩
  · obtain ⟨ts, hts, hsigned⟩ := ih.unary hinner
    rw [unplaced_sign hsign]
    exact ⟨_, .cons hpeek hts, .sign hsign hsigned⟩
  · obtain ⟨ts, hts, hderives⟩ := ih.operand hoperand
    exact ⟨ts, hts, .unsigned hderives⟩

theorem signal_derives {name : String} {pos : Position}
    (h : (Parser.signal name pos).run c = .ok (e, c')) :
    ∃ ts, c.Reaches ts c' ∧ Derives .operand (.ident name :: ts) e.unplaced := by
  rcases Parser.run_signal_iff.1 h with ⟨-, rfl, rfl⟩ | ⟨m, l, hm, hle, hts, rfl⟩ |
    ⟨m, hm, hts, rfl⟩
  · rw [Expr.unplaced]
    exact ⟨[], reaches_nil_iff.2 rfl, .ident name⟩
  · rw [Expr.unplaced]
    exact ⟨_, hts, .range name hm hle⟩
  · rw [Expr.unplaced]
    exact ⟨_, hts, .bit name hm⟩

theorem operand_succ (ih : Sound fuel) (h : (Parser.operand (fuel + 1)).run c = .ok (e, c')) :
    ∃ ts, c.Reaches ts c' ∧ Derives .operand ts e.unplaced := by
  rcases Parser.run_operand_iff.1 h with ⟨name, hpeek, hsignal⟩ | ⟨value, hpeek, rfl, rfl⟩ |
    ⟨width, value, hpeek, rfl, rfl⟩ | ⟨d, hopen, hinner, hclose, rfl⟩ |
    ⟨first, parts, d, d', hopen, hfirst, hparts, hclose, rfl, rfl⟩
  · obtain ⟨ts, hts, hderives⟩ := signal_derives hsignal
    exact ⟨_, .cons hpeek hts, hderives⟩
  · rw [Expr.unplaced]
    exact ⟨_, reaches_next hpeek, .number value⟩
  · rw [Expr.unplaced]
    exact ⟨_, reaches_next hpeek, .sized width value⟩
  · obtain ⟨ts, hts, hderives⟩ := ih.expr hinner
    exact ⟨_, .cons hopen (hts.trans (reaches_next hclose)), .parens hderives⟩
  · obtain ⟨ts, hts, hderives⟩ := ih.expr hfirst
    obtain ⟨rest, hrest, hothers, hmap⟩ := ih.exprsRest hparts
    rw [Expr.unplaced, Expr.unplacedAll_eq_map, hmap]
    exact ⟨_, .cons hopen (hts.trans (hrest.trans (reaches_next hclose))),
      .concat hderives hothers⟩

theorem exprsRest_succ (ih : Sound fuel) {before es : List Expr}
    (h : (Parser.exprsRest (fuel + 1) before).run c = .ok (es, c')) :
    ∃ parts : List (List Token × Expr),
      c.Reaches (parts.flatMap fun part => .mark .comma :: part.1) c' ∧
      (∀ part ∈ parts, Derives .expr part.1 part.2) ∧
      es.map Expr.unplaced = before.map Expr.unplaced ++ parts.map Prod.snd := by
  rcases Parser.run_exprsRest_iff.1 h with ⟨-, rfl, rfl⟩ | ⟨next, d, hcomma, hnext, hrest⟩
  · exact ⟨[], reaches_nil_iff.2 rfl, nofun, (List.append_nil _).symm⟩
  · obtain ⟨ts, hts, hderives⟩ := ih.expr hnext
    obtain ⟨parts, hparts, hothers, hmap⟩ := ih.exprsRest hrest
    refine ⟨(ts, next.unplaced) :: parts, ?_, List.forall_mem_cons.2 ⟨hderives, hothers⟩, ?_⟩
    · exact .cons hcomma (hts.trans hparts)
    · rw [hmap, List.map_append, List.append_assoc]
      rfl

end Sound

/-- The parsers call each other with less fuel. -/
theorem sound (fuel : Nat) : Sound fuel := by
  induction fuel with
  | zero => exact .zero
  | succ fuel ih =>
    exact ⟨ih.expr_succ, ih.binary_succ, ih.binaryRest_succ, ih.unary_succ, ih.operand_succ,
      ih.exprsRest_succ⟩

end GateSynth.Verilog
