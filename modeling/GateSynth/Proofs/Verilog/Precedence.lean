import GateSynth.Proofs.Verilog.Grammar

/-!
# Precedence and associativity

What the grammar of expressions derives from some tokens, the parser reads from them, if a token
follows that cannot continue an expression (`parses_of_derives`). The loop over operators comes to
the same as the levels: behind the operands that a level joins it has the tree of the level as its
left operand, and enough fuel to go on (`parses_join`). Together with `Sound` this makes the parser
and the grammar the same (`expression_parses`).
-/

namespace GateSynth.Verilog

open Cursor

/-! ## Tokens around expressions -/

/-- The token is the first one of an operand. -/
def Token.Opens : Token → Prop
  | .ident _ | .number _ | .sized .. => True
  | .mark m => m = .leftParen ∨ m = .leftBrace
  | .keyword _ => False

theorem Derives.opens {ts : List Token} {e : Expr} (h : Derives .operand ts e) :
    ∃ t us, ts = t :: us ∧ t.Opens := by
  cases h with
  | ident | range | bit | number | sized => exact ⟨_, _, rfl, trivial⟩
  | parens => exact ⟨_, _, rfl, .inl rfl⟩
  | concat => exact ⟨_, _, rfl, .inr rfl⟩

/-- The token is no operator behind an expression. -/
def Token.Stops (t : Token) : Prop :=
  Parser.bindingPower? t = none ∧ t ≠ .mark .leftBracket ∧ t ≠ .mark .question

instance (t : Token) : Decidable t.Stops := inferInstanceAs (Decidable (_ ∧ _ ∧ _))

namespace Cursor

variable {c : Cursor} {level level' : Nat} {t : Token}

/-- No token that reads on behind operands joined on a level is next. -/
structure Ends (c : Cursor) (level : Nat) : Prop where
  closes : c.Closes level
  bracket : c.peek? ≠ some (.mark .leftBracket)

theorem Ends.mono (h : c.Ends level) (hle : level ≤ level') : c.Ends level' :=
  ⟨h.closes.mono hle, h.bracket⟩

theorem ends_of_bindingPower? (h : ∀ t, c.peek? = some t → Parser.bindingPower? t = none)
    (hbracket : c.peek? ≠ some (.mark .leftBracket)) : c.Ends level := by
  refine ⟨fun level m op hpeek hop => ?_, hbracket⟩
  cases (isOperator_iff.1 hop).symm.trans (h _ hpeek)

/-- An operator ends the operands of its own level and of tighter ones. -/
theorem ends_of_operator {m : Mark} {op : BinaryOp} (hpeek : c.peek? = some (.mark m))
    (hop : IsOperator level m op) : c.Ends (level + 1) := by
  refine ⟨fun level' m' op' hpeek' hop' => ?_, fun hbracket => ?_⟩
  · cases hpeek.symm.trans hpeek'
    cases (isOperator_iff.1 hop).symm.trans (isOperator_iff.1 hop')
    exact le_rfl
  · cases hpeek.symm.trans hbracket
    cases isOperator_iff.1 hop

/-- No operator is next behind an expression. -/
def Stops (c : Cursor) : Prop := ∀ t, c.peek? = some t → t.Stops

theorem stops_of_peek (hpeek : c.peek? = some t) (ht : t.Stops) : c.Stops := by
  intro t' ht'
  cases hpeek.symm.trans ht'
  exact ht

theorem Stops.ends (h : c.Stops) : c.Ends level :=
  ends_of_bindingPower? (fun t ht => (h t ht).1) fun hbracket => (h _ hbracket).2.1 rfl

/-- Behind a part there is a comma or the brace. -/
theorem stops_of_parts {c' : Cursor} {parts : List (List Token × Expr)}
    (h : c.Reaches (parts.flatMap fun part => .mark .comma :: part.1) c')
    (hbrace : c'.peek? = some (.mark .rightBrace)) : c.Stops := by
  cases parts with
  | nil =>
    cases reaches_nil_iff.1 h
    exact stops_of_peek hbrace (by decide)
  | cons part parts => exact stops_of_peek (reaches_cons_iff.1 h).1 (by decide)

end Cursor

/-! ## Trees that are derived -/

/-- A parser reads a tree, up to positions, and stops at a cursor. -/
def Parser.Reads (p : Parser Expr) (c : Cursor) (e : Expr) (c' : Cursor) : Prop :=
  ∃ e', p.run c = .ok (e', c') ∧ e'.unplaced = e

/-- The parser for a symbol reads a tree from the tokens, if it has enough fuel and no token that
reads on is next. For a level the loop has the tree as its left operand then, also where it is
running for a looser level. -/
def Parses (ts : List Token) (e : Expr) : Symbol → Prop
  | .expr => ∀ (fuel : Nat) {c c' : Cursor}, 4 * ts.length + 4 ≤ fuel → c.Reaches ts c' →
      c'.Stops → (Parser.expr fuel).Reads c e c'
  | .joined level => ∀ (fuel : Nat) {power : Nat} {c c' : Cursor}, 4 * ts.length + 2 ≤ fuel →
      power ≤ level → c.Reaches ts c' → c'.Ends (level + 1) →
      ∃ fuel' left, fuel ≤ fuel' + ts.length ∧ left.unplaced = e ∧
        ∀ {e' : Expr} {d : Cursor}, (Parser.binaryRest fuel' power left).run c' = .ok (e', d) →
          (Parser.binary (fuel + 1) power).run c = .ok (e', d)
  | .signed => ∀ (fuel : Nat) {c c' : Cursor}, 4 * ts.length + 2 ≤ fuel → c.Reaches ts c' →
      c'.peek? ≠ some (.mark .leftBracket) → (Parser.unary fuel).Reads c e c'
  | .operand => ∀ (fuel : Nat) {c c' : Cursor}, 4 * ts.length + 1 ≤ fuel → c.Reaches ts c' →
      c'.peek? ≠ some (.mark .leftBracket) → (Parser.operand fuel).Reads c e c'

section
variable {ts ls rs : List Token} {e l r : Expr} {level : Nat} {c c' : Cursor}

/-- The loop for a level ends at a looser operator. -/
theorem reads_binary (h : Parses ts e (.joined level)) (fuel : Nat)
    (hfuel : 4 * ts.length + 3 ≤ fuel) (hts : c.Reaches ts c') (hends : c'.Ends level) :
    (Parser.binary fuel level).Reads c e c' := by
  obtain ⟨fuel, rfl⟩ := Nat.exists_eq_add_one_of_ne_zero (show fuel ≠ 0 by omega)
  obtain ⟨fuel', left, hle, rfl, hrest⟩ := h fuel (by omega) le_rfl hts (hends.mono (Nat.le_succ _))
  obtain ⟨fuel', rfl⟩ := Nat.exists_eq_add_one_of_ne_zero (show fuel' ≠ 0 by omega)
  exact ⟨left, hrest (Parser.run_binaryRest_iff.2 (.inl ⟨hends.closes, rfl, rfl⟩)), rfl⟩

theorem parses_plain (h : Parses ts e (.joined 0)) : Parses ts e .expr := by
  intro fuel c c' hfuel hts hstops
  obtain ⟨fuel, rfl⟩ := Nat.exists_eq_add_one_of_ne_zero (show fuel ≠ 0 by omega)
  obtain ⟨e', hrun, rfl⟩ := reads_binary h fuel (by omega) hts hstops.ends
  have hquestion : c'.peek? ≠ some (.mark .question) := fun hpeek => (hstops _ hpeek).2.2 rfl
  exact ⟨e', Parser.run_expr_iff.2 ⟨e', c', hrun, .inl ⟨hquestion, rfl, rfl⟩⟩, rfl⟩

theorem parses_choice {cs ys ns : List Token} {k y n : Expr} (hcondition : Parses cs k (.joined 0))
    (hyes : Parses ys y .expr) (hno : Parses ns n .expr) :
    Parses (cs ++ .mark .question :: (ys ++ .mark .colon :: ns)) (.ternary k y n) .expr := by
  intro fuel c c' hfuel hts hstops
  obtain ⟨fuel, rfl⟩ := Nat.exists_eq_add_one_of_ne_zero (show fuel ≠ 0 by omega)
  simp only [List.length_append, List.length_cons] at hfuel
  obtain ⟨d, hcs, hts⟩ := reaches_append_iff.1 hts
  obtain ⟨hquestion, hts⟩ := reaches_cons_iff.1 hts
  obtain ⟨d', hys, hts⟩ := reaches_append_iff.1 hts
  obtain ⟨hcolon, hns⟩ := reaches_cons_iff.1 hts
  have hends : d.Ends 0 := by
    refine ends_of_bindingPower? (fun t ht => ?_) ?_
    · cases hquestion.symm.trans ht
      rfl
    · rw [hquestion]
      decide
  obtain ⟨condition, hk, rfl⟩ := reads_binary hcondition fuel (by omega) hcs hends
  obtain ⟨yes, hy, rfl⟩ := hyes fuel (by omega) hys (stops_of_peek hcolon (by decide))
  obtain ⟨no, hn, rfl⟩ := hno fuel (by omega) hns hstops
  refine ⟨.ternary condition yes no, Parser.run_expr_iff.2 ⟨condition, d, hk, .inr ?_⟩, ?_⟩
  · exact ⟨yes, no, d', hquestion, hy, hcolon, hn, rfl⟩
  · rw [Expr.unplaced]

/-- The loop joins a right operand of the next level to the left operand in its hand. -/
theorem parses_join {m : Mark} {op : BinaryOp} (hop : IsOperator level m op)
    (hleft : Parses ls l (.joined level)) (hright : Parses rs r (.joined (level + 1))) :
    Parses (ls ++ .mark m :: rs) (.binary op l r) (.joined level) := by
  intro fuel power c c' hfuel hpower hts hends
  simp only [List.length_append, List.length_cons] at hfuel ⊢
  obtain ⟨d, hls, hts⟩ := reaches_append_iff.1 hts
  obtain ⟨hpeek, hrs⟩ := reaches_cons_iff.1 hts
  obtain ⟨fuel', left, hle, rfl, hrest⟩ :=
    hleft fuel (by omega) hpower hls (ends_of_operator hpeek hop)
  obtain ⟨fuel', rfl⟩ := Nat.exists_eq_add_one_of_ne_zero (show fuel' ≠ 0 by omega)
  obtain ⟨right, hrun, rfl⟩ := reads_binary hright fuel' (by omega) hrs hends
  refine ⟨fuel', .binary op left right, by omega, by rw [Expr.unplaced], fun hloop => hrest ?_⟩
  exact Parser.run_binaryRest_iff.2
    (.inr ⟨level, m, op, right, c', hpeek, hop, hpower, hrun, hloop⟩)

theorem parses_tighter (h : Parses ts e (.joined (level + 1))) : Parses ts e (.joined level) :=
  fun fuel _ _ _ hfuel hpower hts hends =>
    h fuel hfuel (hpower.trans (Nat.le_succ _)) hts (hends.mono (Nat.le_succ _))

theorem parses_single (h : Parses ts e .signed) :
    Parses ts e (.joined operatorLevels.length) := by
  intro fuel power c c' hfuel _ hts hends
  obtain ⟨left, hrun, rfl⟩ := h fuel hfuel hts hends.bracket
  exact ⟨fuel, left, by omega, rfl, fun hloop => Parser.run_binary_iff.2 ⟨left, c', hrun, hloop⟩⟩

theorem parses_sign {m : Mark} {f : Expr → Expr} (hsign : (m, f) ∈ signs)
    (h : Parses ts e .signed) : Parses (.mark m :: ts) (f e) .signed := by
  intro fuel c c' hfuel hts hbracket
  obtain ⟨fuel, rfl⟩ := Nat.exists_eq_add_one_of_ne_zero (show fuel ≠ 0 by omega)
  rw [List.length_cons] at hfuel
  obtain ⟨hpeek, hts⟩ := reaches_cons_iff.1 hts
  obtain ⟨inner, hrun, rfl⟩ := h fuel (by omega) hts hbracket
  exact ⟨f inner, Parser.run_unary_iff.2 (.inl ⟨m, f, inner, hsign, hpeek, hrun, rfl⟩),
    unplaced_sign hsign inner⟩

theorem parses_unsigned (hderives : Derives .operand ts e) (h : Parses ts e .operand) :
    Parses ts e .signed := by
  intro fuel c c' hfuel hts hbracket
  obtain ⟨fuel, rfl⟩ := Nat.exists_eq_add_one_of_ne_zero (show fuel ≠ 0 by omega)
  obtain ⟨e', hrun, rfl⟩ := h fuel (by omega) hts hbracket
  obtain ⟨t, us, rfl, ht⟩ := hderives.opens
  have hpeek := (reaches_cons_iff.1 hts).1
  refine ⟨e', Parser.run_unary_iff.2 (.inr ⟨fun m hm hmark => ?_, hrun⟩), rfl⟩
  cases hpeek.symm.trans hmark
  rcases ht with rfl | rfl <;> revert hm <;> decide

/-- A signal with or without bits in brackets. -/
theorem parses_signal {name : String} (h : ∀ {c c' : Cursor} (pos : Position), c.Reaches ts c' →
      c'.peek? ≠ some (.mark .leftBracket) → (Parser.signal name pos).Reads c e c') :
    Parses (.ident name :: ts) e .operand := by
  intro fuel c c' hfuel hts hbracket
  obtain ⟨fuel, rfl⟩ := Nat.exists_eq_add_one_of_ne_zero (show fuel ≠ 0 by omega)
  obtain ⟨hpeek, hts⟩ := reaches_cons_iff.1 hts
  obtain ⟨e', hrun, rfl⟩ := h c.pos hts hbracket
  exact ⟨e', Parser.run_operand_iff.2 (.inl ⟨name, hpeek, hrun⟩), rfl⟩

theorem parses_ident (name : String) : Parses [.ident name] (.ident name .nowhere) .operand := by
  refine parses_signal fun {c c'} pos hts hbracket => ⟨.ident name pos, ?_, by rw [Expr.unplaced]⟩
  cases reaches_nil_iff.1 hts
  exact Parser.run_signal_iff.2 (.inl ⟨hbracket, rfl, rfl⟩)

theorem parses_range (name : String) {m l : Word} (hm : m.toNat < UInt32.size)
    (hl : l.toNat ≤ m.toNat) : Parses [.ident name, .mark .leftBracket, .number m, .mark .colon,
      .number l, .mark .rightBracket] (.select name m.toNat l.toNat .nowhere) .operand := by
  refine parses_signal fun pos hts _ => ⟨.select name m.toNat l.toNat pos, ?_, ?_⟩
  · exact Parser.run_signal_iff.2 (.inr (.inl ⟨m, l, hm, hl, hts, rfl⟩))
  · rw [Expr.unplaced]

theorem parses_bit (name : String) {m : Word} (hm : m.toNat < UInt32.size) :
    Parses [.ident name, .mark .leftBracket, .number m, .mark .rightBracket]
      (.select name m.toNat m.toNat .nowhere) .operand := by
  refine parses_signal fun pos hts _ => ⟨.select name m.toNat m.toNat pos, ?_, ?_⟩
  · exact Parser.run_signal_iff.2 (.inr (.inr ⟨m, hm, hts, rfl⟩))
  · rw [Expr.unplaced]

/-- A literal is read as it stands. -/
theorem parses_literal {t : Token} (he : e.unplaced = e)
    (h : ∀ {fuel : Nat} {c : Cursor}, c.peek? = some t →
      (Parser.operand (fuel + 1)).run c = .ok (e, c.next)) : Parses [t] e .operand := by
  intro fuel c c' hfuel hts _
  obtain ⟨fuel, rfl⟩ := Nat.exists_eq_add_one_of_ne_zero (show fuel ≠ 0 by omega)
  obtain ⟨hpeek, rfl⟩ := reaches_singleton_iff.1 hts
  exact ⟨e, h hpeek, he⟩

theorem parses_number (value : Word) : Parses [.number value] (.number none value) .operand :=
  parses_literal (by rw [Expr.unplaced]) fun hpeek =>
    Parser.run_operand_iff.2 (.inr (.inl ⟨value, hpeek, rfl, rfl⟩))

theorem parses_sized (width : Nat) (value : Word) :
    Parses [.sized width value] (.number (some width) value) .operand :=
  parses_literal (by rw [Expr.unplaced]) fun hpeek =>
    Parser.run_operand_iff.2 (.inr (.inr (.inl ⟨width, value, hpeek, rfl, rfl⟩)))

theorem parses_parens (h : Parses ts e .expr) :
    Parses (.mark .leftParen :: (ts ++ [.mark .rightParen])) e .operand := by
  intro fuel c c' hfuel hts _
  obtain ⟨fuel, rfl⟩ := Nat.exists_eq_add_one_of_ne_zero (show fuel ≠ 0 by omega)
  simp only [List.length_append, List.length_cons, List.length_nil] at hfuel
  obtain ⟨hopen, hts⟩ := reaches_cons_iff.1 hts
  obtain ⟨d, hts, hlast⟩ := reaches_append_iff.1 hts
  obtain ⟨hclose, hnext⟩ := reaches_singleton_iff.1 hlast
  obtain ⟨e', hrun, rfl⟩ := h fuel (by omega) hts (stops_of_peek hclose (by decide))
  exact ⟨e', Parser.run_operand_iff.2
    (.inr (.inr (.inr (.inl ⟨d, hopen, hrun, hclose, hnext⟩)))), rfl⟩

/-- The parts behind commas, up to the brace. -/
theorem reads_parts {parts : List (List Token × Expr)}
    (h : ∀ part ∈ parts, Parses part.1 part.2 .expr)
    (hbrace : c'.peek? = some (.mark .rightBrace)) (fuel : Nat) (before : List Expr)
    (hfuel : 4 * (parts.flatMap fun part => Token.mark .comma :: part.1).length + 1 ≤ fuel)
    (hts : c.Reaches (parts.flatMap fun part => .mark .comma :: part.1) c') :
    ∃ es, (Parser.exprsRest fuel before).run c = .ok (es, c') ∧
      es.map Expr.unplaced = before.map Expr.unplaced ++ parts.map Prod.snd := by
  induction parts generalizing fuel c before with
  | nil =>
    obtain ⟨fuel, rfl⟩ := Nat.exists_eq_add_one_of_ne_zero (show fuel ≠ 0 by omega)
    cases reaches_nil_iff.1 hts
    have hcomma : c'.peek? ≠ some (.mark .comma) := by
      rw [hbrace]
      decide
    exact ⟨before, Parser.run_exprsRest_iff.2 (.inl ⟨hcomma, rfl, rfl⟩), (List.append_nil _).symm⟩
  | cons part parts ih =>
    obtain ⟨fuel, rfl⟩ := Nat.exists_eq_add_one_of_ne_zero (show fuel ≠ 0 by omega)
    rw [List.flatMap_cons, List.length_append, List.length_cons] at hfuel
    obtain ⟨d, hpart, hparts⟩ := reaches_append_iff.1 hts
    obtain ⟨hcomma, hpart⟩ := reaches_cons_iff.1 hpart
    obtain ⟨hfirst, hothers⟩ := List.forall_mem_cons.1 h
    obtain ⟨next, hrun, hnext⟩ := hfirst fuel (by omega) hpart (stops_of_parts hparts hbrace)
    obtain ⟨es, hrest, hmap⟩ := ih hothers fuel (before ++ [next]) (by omega) hparts
    refine ⟨es, Parser.run_exprsRest_iff.2 (.inr ⟨next, d, hcomma, hrun, hrest⟩), ?_⟩
    rw [hmap, List.map_append, List.append_assoc, List.map_singleton, hnext]
    rfl

theorem parses_concat {parts : List (List Token × Expr)} (hfirst : Parses ts e .expr)
    (hothers : ∀ part ∈ parts, Parses part.1 part.2 .expr) :
    Parses (.mark .leftBrace :: (ts ++
        (parts.flatMap (fun part => .mark .comma :: part.1) ++ [.mark .rightBrace])))
      (.concat (e :: parts.map Prod.snd)) .operand := by
  intro fuel c c' hfuel hts _
  obtain ⟨fuel, rfl⟩ := Nat.exists_eq_add_one_of_ne_zero (show fuel ≠ 0 by omega)
  simp only [List.length_append, List.length_cons, List.length_nil] at hfuel
  obtain ⟨hopen, hts⟩ := reaches_cons_iff.1 hts
  obtain ⟨d, hts, hrest⟩ := reaches_append_iff.1 hts
  obtain ⟨d', hparts, hlast⟩ := reaches_append_iff.1 hrest
  obtain ⟨hclose, hnext⟩ := reaches_singleton_iff.1 hlast
  obtain ⟨first, hrun, rfl⟩ := hfirst fuel (by omega) hts (stops_of_parts hparts hclose)
  obtain ⟨es, hes, hmap⟩ := reads_parts hothers hclose fuel [first] (by omega) hparts
  refine ⟨.concat es, Parser.run_operand_iff.2 (.inr (.inr (.inr (.inr ?_)))), ?_⟩
  · exact ⟨first, es, d, d', hopen, hrun, hes, hclose, rfl, hnext⟩
  · rw [Expr.unplaced, Expr.unplacedAll_eq_map, hmap]
    rfl

/-- One case for each rule of the grammar. -/
theorem parses_of_derives {symbol : Symbol} (h : Derives symbol ts e) : Parses ts e symbol := by
  induction h with
  | plain _ ih => exact parses_plain ih
  | choice _ _ _ hcondition hyes hno => exact parses_choice hcondition hyes hno
  | join hop _ _ hleft hright => exact parses_join hop hleft hright
  | tighter _ ih => exact parses_tighter ih
  | single _ ih => exact parses_single ih
  | sign hsign _ ih => exact parses_sign hsign ih
  | unsigned hderives ih => exact parses_unsigned hderives ih
  | ident name => exact parses_ident name
  | range name hm hl => exact parses_range name hm hl
  | bit name hm => exact parses_bit name hm
  | number value => exact parses_number value
  | sized width value => exact parses_sized width value
  | parens _ ih => exact parses_parens ih
  | concat _ _ hfirst hothers => exact parses_concat hfirst hothers

end

/-! ## Whole expressions -/

theorem run_expression (c : Cursor) :
    Parser.expression.run c = (Parser.expr (8 * (c.rest.length + 2))).run c := by
  -- the steps are left a variable, so that nothing unfolds them along the fuel
  have hfuel : ∀ step : Nat → Parser Expr,
      (Parser.exprFuel >>= step).run c = (step (8 * (c.rest.length + 2))).run c := fun _ => rfl
  rw [Parser.expression, hfuel]

/-- The fuel of an expression is enough for its tokens. -/
theorem reads_expression {ts rest : List Spanned} {last : Position} {e : Expr}
    (h : Derives .expr (ts.map Spanned.token) e) (hstops : ∀ s ∈ rest.head?, s.token.Stops) :
    Parser.expression.Reads ⟨ts ++ rest, last⟩ e ⟨rest, last⟩ := by
  have hstops' : Cursor.Stops ⟨rest, last⟩ := by
    intro t ht
    obtain ⟨s, hs, rfl⟩ := Option.map_eq_some_iff.1 ht
    exact hstops s hs
  have hfuel : 4 * (ts.map Spanned.token).length + 4 ≤ 8 * ((ts ++ rest).length + 2) := by
    rw [List.length_map, List.length_append]
    omega
  rw [Parser.Reads, run_expression]
  exact parses_of_derives h _ hfuel ⟨ts, rfl, rfl⟩ hstops'

/-- The token can stand behind a whole expression inside a longer one. -/
def Token.Continues (t : Token) : Prop :=
  ∃ ts us e e', Derives .expr ts e ∧ Derives .expr (ts ++ t :: us) e'

/-- A token without a place in a text. -/
def Token.unplaced (t : Token) : Spanned := ⟨t, 0, 0, .nowhere⟩

theorem map_token_unplaced (ts : List Token) :
    (ts.map Token.unplaced).map Spanned.token = ts := by
  rw [List.map_map]
  exact List.map_id _

/-- At a token where it may stop, the parser stops for good. -/
theorem not_continues_of_stops {t : Token} (h : t.Stops) : ¬ t.Continues := by
  rintro ⟨ts, us, e, e', hshort, hlong⟩
  have hshort' : Derives .expr ((ts.map Token.unplaced).map Spanned.token) e := by
    rwa [map_token_unplaced]
  have hlong' : Derives .expr (((ts ++ t :: us).map Token.unplaced).map Spanned.token) e' := by
    rwa [map_token_unplaced]
  have hstops : ∀ s ∈ ((t :: us).map Token.unplaced).head?, s.token.Stops := by
    rintro _ ⟨⟩
    exact h
  obtain ⟨_, hrun, -⟩ : Parser.expression.Reads ⟨ts.map Token.unplaced ++
      (t :: us).map Token.unplaced, .nowhere⟩ e ⟨(t :: us).map Token.unplaced, .nowhere⟩ :=
    reads_expression hshort' hstops
  obtain ⟨_, hrun', -⟩ : Parser.expression.Reads
      ⟨(ts ++ t :: us).map Token.unplaced ++ [], .nowhere⟩ e' ⟨[], .nowhere⟩ :=
    reads_expression hlong' nofun
  rw [List.append_nil, List.map_append] at hrun'
  cases hrun.symm.trans hrun'

theorem Derives.joined {ts : List Token} {e : Expr} {level : Nat} (h : Derives .operand ts e)
    (hlevel : level ≤ operatorLevels.length) : Derives (.joined level) ts e :=
  (Derives.single (.unsigned h)).loosen hlevel

/-- The tokens at which the parser goes on are those at which an expression can go on. -/
theorem continues_iff {t : Token} : t.Continues ↔ ¬ t.Stops := by
  refine ⟨fun h hstops => not_continues_of_stops hstops h, fun h => ?_⟩
  have hname : ∀ {level}, level ≤ operatorLevels.length →
      Derives (.joined level) [.ident "a"] (.ident "a" .nowhere) := (Derives.ident "a").joined
  have hexpr : Derives .expr [.ident "a"] (.ident "a" .nowhere) := .plain (hname (Nat.zero_le _))
  rw [Token.Stops, not_and_or, not_and_or, not_ne_iff, not_ne_iff] at h
  rcases h with hpower | rfl | rfl
  · obtain ⟨⟨tighter, op⟩, hpower⟩ := Option.ne_none_iff_exists'.1 hpower
    obtain ⟨level, m, hpeek, -, hop⟩ :=
      Parser.bindingPower?_peek (c := ⟨[t.unplaced], .nowhere⟩) hpower
    cases hpeek
    have hlt : level < operatorLevels.length := by
      obtain ⟨_, hlevel, -⟩ := hop
      exact (List.getElem?_eq_some_iff.1 hlevel).1
    have hboth := Derives.join hop (hname hlt.le) (hname hlt)
    exact ⟨_, _, _, _, hexpr, .plain (hboth.loosen (Nat.zero_le _))⟩
  · have hbit : Derives .operand [.ident "a", .mark .leftBracket, .number 0, .mark .rightBracket]
        (.select "a" 0 0 .nowhere) := .bit "a" (by decide)
    exact ⟨_, _, _, _, hexpr, .plain (hbit.joined (Nat.zero_le _))⟩
  · exact ⟨_, _, _, _, hexpr, .choice (hname (Nat.zero_le _)) hexpr hexpr⟩

/-- Where no token follows that can continue an expression, the parser takes some tokens for an
expression exactly if the grammar derives its tree from them. -/
theorem expression_parses {ts rest : List Spanned} {last : Position}
    (h : ∀ s ∈ rest.head?, ¬ s.token.Continues) (e : Expr) :
    (∃ e', Parser.expression.run ⟨ts ++ rest, last⟩ = .ok (e', ⟨rest, last⟩) ∧ e'.unplaced = e) ↔
      Derives .expr (ts.map Spanned.token) e := by
  constructor
  · rintro ⟨e', hrun, rfl⟩
    rw [run_expression] at hrun
    obtain ⟨us, ⟨spanned, rfl, heq⟩, hderives⟩ := (sound _).expr hrun
    rw [Cursor.mk.injEq, List.append_cancel_right_eq] at heq
    rw [heq.1]
    exact hderives
  · exact fun hderives => reads_expression hderives fun s hs =>
      of_not_not fun hstops => h s hs (continues_iff.2 hstops)

namespace Chain

/-- The tokens `a - b - c * d`. -/
def tokens : List Spanned :=
  [.ident "a", .mark .minus, .ident "b", .mark .minus, .ident "c", .mark .star,
    .ident "d"].map Token.unplaced

/-- A semicolon. -/
def rest : List Spanned := [Token.unplaced (.mark .semicolon)]

/-- The last operand, which both trees have. -/
def product : Expr := .binary .mul (.ident "c" .nowhere) (.ident "d" .nowhere)

/-- The differences joined from the left. -/
def fromLeft : Expr :=
  .binary .sub (.binary .sub (.ident "a" .nowhere) (.ident "b" .nowhere)) product

/-- The differences joined from the right. -/
def fromRight : Expr :=
  .binary .sub (.ident "a" .nowhere) (.binary .sub (.ident "b" .nowhere) product)

end Chain

/-- Before a semicolon, `a - b - c * d` is read as `(a - b) - (c * d)`, and only this is derived. -/
theorem expression_parses_chain : (∀ s ∈ Chain.rest.head?, ¬ s.token.Continues) ∧
    Parser.expression.run ⟨Chain.tokens ++ Chain.rest, .nowhere⟩ =
      .ok (Chain.fromLeft, ⟨Chain.rest, .nowhere⟩) ∧
    Derives .expr (Chain.tokens.map Spanned.token) Chain.fromLeft ∧
    ¬ Derives .expr (Chain.tokens.map Spanned.token) Chain.fromRight := by
  have hstops : ∀ s ∈ Chain.rest.head?, ¬ s.token.Continues := by
    rintro _ ⟨⟩
    exact not_continues_of_stops (by decide)
  have hrun : Parser.expression.run ⟨Chain.tokens ++ Chain.rest, .nowhere⟩ =
      .ok (Chain.fromLeft, ⟨Chain.rest, .nowhere⟩) := rfl
  have hunplaced : Chain.fromLeft.unplaced = Chain.fromLeft := by
    simp only [Chain.fromLeft, Chain.product, Expr.unplaced]
  refine ⟨hstops, hrun, (expression_parses hstops _).1 ⟨_, hrun, hunplaced⟩, fun hright => ?_⟩
  obtain ⟨e', hrun', he⟩ := (expression_parses hstops _).2 hright
  cases hrun.symm.trans hrun'
  cases hunplaced.symm.trans he

end GateSynth.Verilog
