import GateSynth.Proofs.Verilog.Grammar
import GateSynth.Proofs.Verilog.Outlines

/-!
# What a run of the parser depends on

A step of the parser that succeeds depends on the tokens that it goes behind, on the next token, and
on how many tokens are left, which bounds its steps: behind the same tokens it succeeds again
wherever it stands (`Steady`). Positions do not matter for that. No step inside a declaration, an
assignment or an instance goes behind a semicolon or behind the first or last word of a module.
-/

namespace GateSynth.Verilog

/-- The token is no border of an item of a module, nor of a module. -/
def Token.Inner (t : Token) : Prop :=
  t ≠ .mark .semicolon ∧ t ≠ .keyword .module ∧ t ≠ .keyword .endmodule

instance (t : Token) : Decidable t.Inner := inferInstanceAs (Decidable (_ ∧ _ ∧ _))

namespace Cursor

/-- The tokens that are left. -/
def tokens (c : Cursor) : List Token := c.rest.map Spanned.token

/-- The next tokens are the same, and as many are left. -/
structure Twin (c d : Cursor) : Prop where
  peek : c.peek? = d.peek?
  length : c.rest.length = d.rest.length

variable {c c' d d' : Cursor} {ts : List Token} {t : Token}

theorem peek?_eq : c.peek? = c.tokens.head? := List.head?_map.symm

theorem tokens_length : c.tokens.length = c.rest.length := List.length_map _

theorem rest_length_of_tokens (h : c.tokens.length = d.tokens.length) :
    c.rest.length = d.rest.length := by
  rwa [tokens_length, tokens_length] at h

theorem Reaches.length (h : c.Reaches ts c') : c.rest.length = ts.length + c'.rest.length := by
  obtain ⟨spanned, rfl, rfl⟩ := h
  rw [List.length_append, List.length_map]

/-- The tokens from one cursor to another are determined. -/
theorem Reaches.unique {us : List Token} (h : c.Reaches ts c') (h' : c.Reaches us c') :
    ts = us := by
  obtain ⟨spanned, rfl, rfl⟩ := h
  obtain ⟨spanned', rfl, heq⟩ := h'
  rw [List.append_cancel_right (congrArg Cursor.rest heq)]

/-- So is the cursor behind given tokens. -/
theorem Reaches.right_unique (h : c.Reaches ts c') (h' : c.Reaches ts d') : c' = d' := by
  induction ts generalizing c with
  | nil => exact (reaches_nil_iff.1 h).symm.trans (reaches_nil_iff.1 h')
  | cons t ts ih => exact ih (reaches_cons_iff.1 h).2 (reaches_cons_iff.1 h').2

theorem Reaches.tokens (h : c.Reaches ts c') : c.tokens = ts ++ c'.tokens := by
  obtain ⟨spanned, rfl, rfl⟩ := h
  exact List.map_append

theorem exists_reaches {us : List Token} (h : c.tokens = ts ++ us) :
    ∃ c', c.Reaches ts c' ∧ c'.tokens = us := by
  obtain ⟨first, second, heq, rfl, rfl⟩ := List.map_eq_append_iff.1 h
  exact ⟨⟨second, c.last⟩, ⟨first, rfl, by rw [← heq]⟩, rfl⟩

theorem Reaches.tail {us : List Token} (h : c.Reaches ts d) (h' : c.Reaches (ts ++ us) c') :
    d.Reaches us c' := by
  obtain ⟨e, hts, hus⟩ := reaches_append_iff.1 h'
  rwa [h.right_unique hts]

/-- Tokens of which only the last one is a given one are in front of any others in the same place
that end with it. -/
theorem Reaches.split {us ws : List Token} (h : c.Reaches (us ++ [t]) d) (ht : t ∉ us)
    (h' : c.Reaches (ws ++ [t]) c') :
    ∃ rest, ws ++ [t] = us ++ [t] ++ rest ∧ d.Reaches rest c' ∧
      (rest = [] ∨ ∃ vs, rest = vs ++ [t]) := by
  have hprefix : us ++ [t] <+: ws ++ [t] := by
    have hus : us ++ [t] <+: c.tokens := ⟨_, h.tokens.symm⟩
    rcases List.prefix_or_prefix_of_prefix hus ⟨_, h'.tokens.symm⟩ with hle | hle
    · exact hle
    · rcases List.prefix_concat_iff.1 hle with heq | hle
      · exact heq ▸ List.prefix_rfl
      · exact absurd (hle.subset (List.mem_append_right _ (.head _))) ht
  obtain ⟨rest, hrest⟩ := hprefix
  refine ⟨rest, hrest.symm, h.tail (hrest.symm ▸ h'), ?_⟩
  rcases List.eq_nil_or_concat rest with rfl | ⟨vs, last, rfl⟩
  · exact .inl rfl
  · refine .inr ⟨vs, ?_⟩
    rw [List.concat_eq_append, ← List.append_assoc] at hrest
    rw [List.concat_eq_append, (List.append_inj' hrest rfl).2]

theorem Twin.of_reaches (h : c.Reaches ts c') (h' : d.Reaches ts d') (htwin : c'.Twin d') :
    c.Twin d := by
  refine ⟨?_, by rw [h.length, h'.length, htwin.length]⟩
  cases ts with
  | nil =>
    rw [reaches_nil_iff.1 h, reaches_nil_iff.1 h']
    exact htwin.peek
  | cons t ts => rw [(reaches_cons_iff.1 h).1, (reaches_cons_iff.1 h').1]

end Cursor

namespace Parser

open Cursor

variable {α α' β β' : Type} {R : α → α' → Prop} {S : β → β' → Prop}

/-- Where the next token is as given and the first step succeeds, the second one succeeds behind the
same tokens, and their results correspond. -/
def SteadyAt (next : Option Token) (R : α → α' → Prop) (p : Parser α) (p' : Parser α') : Prop :=
  ∀ ⦃c c' : Cursor⦄ ⦃a : α⦄, c.peek? = next → p.run c = .ok (a, c') →
    ∃ ts, (∀ t ∈ ts, t.Inner) ∧ c.Reaches ts c' ∧
      ∀ ⦃d d' : Cursor⦄, d.Reaches ts d' → c'.Twin d' → ∃ a', p'.run d = .ok (a', d') ∧ R a a'

/-- Where the first step succeeds, the second one succeeds behind the same tokens, and their results
correspond. -/
def Steady (R : α → α' → Prop) (p : Parser α) (p' : Parser α') : Prop :=
  ∀ next, SteadyAt next R p p'

/-- Any results correspond. -/
def Whatever (_ : α) (_ : α') : Prop := True

namespace Steady

theorem steadyAt {p : Parser α} {p' : Parser α'} (h : Steady R p p') {next : Option Token} :
    SteadyAt next R p p' := h next

theorem pure {a : α} {a' : α'} (h : R a a') :
    Steady R (pure a : Parser α) (pure a' : Parser α') := by
  intro _ c c' b _ hrun
  cases run_pure_iff.1 hrun
  refine ⟨[], List.forall_mem_nil _, reaches_nil_iff.2 rfl, fun d d' hd _ => ⟨a', ?_, h⟩⟩
  rw [reaches_nil_iff.1 hd]
  rfl

theorem of_fails {p : Parser α} {p' : Parser α'} (h : ∀ c r, p.run c ≠ .ok r) : Steady R p p' :=
  fun _ c _ _ _ hrun => absurd hrun (h c _)

theorem fail {detail : String} {p' : Parser α'} : Steady R (fail detail : Parser α) p' :=
  of_fails nofun

theorem get_fail {message : Cursor → String} {p' : Parser α'} :
    Steady R (get >>= fun c => Parser.fail (message c) : Parser α) p' := of_fails nofun

theorem unsupported {construct : String} {p' : Parser α'} :
    Steady R (unsupported construct : Parser α) p' := of_fails nofun

theorem unsupported_bind {construct : String} {f : β → Parser α} {p' : Parser α'} :
    Steady R (Parser.unsupported construct >>= f) p' := of_fails nofun

theorem bind {p : Parser α} {p' : Parser α'} {f : α → Parser β} {f' : α' → Parser β'}
    (hp : Steady R p p') (hf : ∀ a a', R a a' → Steady S (f a) (f' a')) :
    Steady S (p >>= f) (p' >>= f') := by
  intro _ c c' b _ hrun
  obtain ⟨a, c₁, ha, hb⟩ := run_of_bind hrun
  obtain ⟨ts, hts, hreach, hp'⟩ := hp _ rfl ha
  obtain ⟨a₀, -, ha₀⟩ := hp' hreach ⟨rfl, rfl⟩
  obtain ⟨us, hus, hreach', -⟩ := hf a a₀ ha₀ _ rfl hb
  refine ⟨ts ++ us, List.forall_mem_append.2 ⟨hts, hus⟩, hreach.trans hreach',
    fun d d' hd htwin => ?_⟩
  obtain ⟨d₁, hd, hd'⟩ := reaches_append_iff.1 hd
  obtain ⟨a', ha', hR⟩ := hp' hd (.of_reaches hreach' hd' htwin)
  obtain ⟨vs, -, hreach'', hf'⟩ := hf a a' hR _ rfl hb
  cases hreach'.unique hreach''
  obtain ⟨b', hb', hS⟩ := hf' hd' htwin
  exact ⟨b', run_bind_iff.2 ⟨a', d₁, ha', hb'⟩, hS⟩

theorem peek_bind {f : Option Token → Parser α} {f' : Option Token → Parser α'}
    (h : ∀ next, SteadyAt next R (f next) (f' next)) : Steady R (peek >>= f) (peek >>= f') := by
  intro _ c c' a _ hrun
  obtain ⟨ts, hts, hreach, h'⟩ := h c.peek? rfl hrun
  refine ⟨ts, hts, hreach, fun d d' hd htwin => ?_⟩
  obtain ⟨a', ha', hR⟩ := h' hd htwin
  refine ⟨a', ?_, hR⟩
  rw [run_peek_bind, ← (Twin.of_reaches hreach hd htwin).peek]
  exact ha'

/-- The parser may go behind a token inside an item. -/
theorem skip_bind {t : Token} {f : Unit → Parser α} {f' : Unit → Parser α'} (ht : t.Inner)
    (h : Steady R (f ()) (f' ())) : SteadyAt (some t) R (skip >>= f) (skip >>= f') := by
  intro c c' a hpeek hrun
  obtain ⟨ts, hts, hreach, h'⟩ := h _ rfl hrun
  refine ⟨t :: ts, List.forall_mem_cons.2 ⟨ht, hts⟩, .cons hpeek hreach, fun d d' hd htwin => ?_⟩
  exact h' (reaches_cons_iff.1 hd).2 htwin

theorem position_bind {f : Position → Parser α} {f' : Position → Parser α'}
    (h : ∀ pos pos', Steady R (f pos) (f' pos')) :
    Steady R (position >>= f) (position >>= f') := by
  intro _ c c' a _ hrun
  obtain ⟨ts, hts, hreach, -⟩ := h c.pos c.pos _ rfl hrun
  refine ⟨ts, hts, hreach, fun d d' hd htwin => ?_⟩
  obtain ⟨us, -, hreach', h'⟩ := h c.pos d.pos _ rfl hrun
  cases hreach.unique hreach'
  exact h' hd htwin

theorem position : Steady Whatever position position := by
  intro _ c c' pos _ hrun
  cases hrun
  refine ⟨[], List.forall_mem_nil _, reaches_nil_iff.2 rfl, fun d d' hd _ => ?_⟩
  cases reaches_nil_iff.1 hd
  exact ⟨d.pos, rfl, trivial⟩

/-- The number of tokens that are left is the same behind the same tokens. -/
theorem length_bind {f : Nat → Parser α} {f' : Nat → Parser α'}
    (h : ∀ n, Steady R (f n) (f' n)) :
    Steady R (get >>= fun c : Cursor => f c.rest.length)
      (get >>= fun c : Cursor => f' c.rest.length) := by
  intro _ c c' a _ hrun
  obtain ⟨ts, hts, hreach, h'⟩ := h c.rest.length _ rfl hrun
  refine ⟨ts, hts, hreach, fun d d' hd htwin => ?_⟩
  obtain ⟨a', ha', hR⟩ := h' hd htwin
  refine ⟨a', ?_, hR⟩
  rw [(Twin.of_reaches hreach hd htwin).length] at ha'
  exact ha'

/-! ## Single tokens -/

theorem accept {t : Token} (ht : t.Inner) : Steady Eq (accept t) (accept t) := by
  refine peek_bind fun next => ?_
  split
  · next heq =>
    subst heq
    exact skip_bind ht (.pure rfl)
  · exact steadyAt (.pure rfl)

theorem expect {t : Token} (ht : t.Inner) : Steady Whatever (expect t) (expect t) := by
  refine (accept ht).bind fun b b' hb => ?_
  subst hb
  split
  · exact .pure trivial
  · exact get_fail

theorem ident : Steady Eq ident ident := by
  refine peek_bind fun next => ?_
  split
  · exact skip_bind ⟨nofun, nofun, nofun⟩ (.pure rfl)
  · exact get_fail.steadyAt

theorem index : Steady Eq index index := by
  refine peek_bind fun next => ?_
  split
  · refine skip_bind ⟨nofun, nofun, nofun⟩ ?_
    split
    · exact .pure rfl
    · exact .fail
  · exact steadyAt .fail

/-! ## Expressions -/

theorem signal (name : String) (pos pos' : Position) :
    Steady Whatever (signal name pos) (signal name pos') := by
  refine (accept (by decide)).bind fun b b' hb => ?_
  subst hb
  split
  · refine index.bind fun msb _ hmsb => (accept (by decide)).bind fun b b' hb => ?_
    subst hmsb hb
    have hrest : ∀ lsb, Steady Whatever
        (do
          if msb < lsb then
            Parser.unsupported s!"ascending part-select [{msb}:{lsb}]"
          expectMark .rightBracket
          return Expr.select name msb lsb pos)
        (do
          if msb < lsb then
            Parser.unsupported s!"ascending part-select [{msb}:{lsb}]"
          expectMark .rightBracket
          return Expr.select name msb lsb pos') := by
      intro lsb
      split
      · exact unsupported_bind
      · exact (expect (by decide)).bind fun _ _ _ => .pure trivial
    split
    · exact index.bind fun lsb _ hlsb => hlsb ▸ hrest lsb
    · exact hrest msb
  · exact .pure trivial

/-- The parsers of expressions, with some fuel. -/
structure Exprs (fuel : Nat) : Prop where
  expr : Steady Whatever (expr fuel) (expr fuel)
  binary : ∀ power, Steady Whatever (binary fuel power) (binary fuel power)
  binaryRest : ∀ power left left',
    Steady Whatever (binaryRest fuel power left) (binaryRest fuel power left')
  unary : Steady Whatever (unary fuel) (unary fuel)
  operand : Steady Whatever (operand fuel) (operand fuel)
  exprsRest : ∀ before before', Steady Whatever (exprsRest fuel before) (exprsRest fuel before')

theorem inner_of_bindingPower? {t : Token} {r : Nat × BinaryOp} (h : bindingPower? t = some r) :
    t.Inner := by
  refine ⟨?_, ?_, ?_⟩ <;> rintro rfl <;> cases h

/-- The parsers call each other with less fuel. -/
theorem exprs (fuel : Nat) : Exprs fuel := by
  induction fuel with
  | zero => exact ⟨.fail, fun _ => .fail, fun _ _ _ => .fail, .fail, .fail, fun _ _ => .fail⟩
  | succ fuel ih =>
    refine ⟨?_, fun power => ?_, fun power left left' => ?_, ?_, ?_, fun before before' => ?_⟩
    · refine (ih.binary 0).bind fun _ _ _ => (accept (by decide)).bind fun b b' hb => ?_
      subst hb
      split
      · exact ih.expr.bind fun _ _ _ => (expect (by decide)).bind fun _ _ _ =>
          ih.expr.bind fun _ _ _ => .pure trivial
      · exact .pure trivial
    · exact ih.unary.bind fun left left' _ => ih.binaryRest power left left'
    · refine peek_bind fun next => ?_
      split
      · next tighter op hpower =>
        obtain ⟨t, rfl, ht⟩ := Option.bind_eq_some_iff.1 hpower
        split
        · exact steadyAt (.pure trivial)
        · exact skip_bind (inner_of_bindingPower? ht)
            ((ih.binary _).bind fun _ _ _ => ih.binaryRest _ _ _)
      · exact steadyAt (.pure trivial)
    · refine peek_bind fun next => ?_
      split
      · exact skip_bind (by decide) (ih.unary.bind fun _ _ _ => .pure trivial)
      · exact skip_bind (by decide) (ih.unary.bind fun _ _ _ => .pure trivial)
      · exact skip_bind (by decide) (ih.unary.bind fun _ _ _ => .pure trivial)
      all_goals first | exact steadyAt .unsupported | exact ih.operand.steadyAt
    · refine position_bind fun pos pos' => peek_bind fun next => ?_
      split
      · exact skip_bind ⟨nofun, nofun, nofun⟩ (signal _ pos pos')
      · exact skip_bind ⟨nofun, nofun, nofun⟩ (.pure trivial)
      · exact skip_bind ⟨nofun, nofun, nofun⟩ (.pure trivial)
      · exact skip_bind (by decide) (ih.expr.bind fun _ _ _ =>
          (expect (by decide)).bind fun _ _ _ => .pure trivial)
      · exact skip_bind (by decide) (ih.expr.bind fun _ _ _ =>
          (ih.exprsRest _ _).bind fun _ _ _ => (expect (by decide)).bind fun _ _ _ => .pure trivial)
      all_goals exact get_fail.steadyAt
    · refine (accept (by decide)).bind fun b b' hb => ?_
      subst hb
      split
      · exact ih.expr.bind fun _ _ _ => ih.exprsRest _ _
      · exact .pure trivial

theorem exprFuel : Steady Eq exprFuel exprFuel :=
  length_bind (f := fun n => (Pure.pure (8 * (n + 2)) : Parser Nat)) fun _ => .pure rfl

theorem expression : Steady Whatever expression expression :=
  exprFuel.bind fun fuel _ h => h ▸ (exprs fuel).expr

theorem expressions : Steady Whatever expressions expressions :=
  expression.bind fun _ _ _ => exprFuel.bind fun fuel _ h => h ▸ (exprs fuel).exprsRest _ _

/-! ## Lists with commas -/

section
variable {σ σ' : Type} {R : σ → σ' → Prop} {item : σ → Parser σ} {item' : σ' → Parser σ'}

theorem separated (hitem : ∀ s s', R s s' → Steady R (item s) (item' s')) (fuel : Nat) {s : σ}
    {s' : σ'} (h : R s s') : Steady R (separated item fuel s) (separated item' fuel s') := by
  induction fuel generalizing s s' with
  | zero => exact .fail
  | succ fuel ih =>
    refine (hitem s s' h).bind fun t t' ht => (accept (by decide)).bind fun b b' hb => ?_
    subst hb
    split
    · exact ih ht
    · exact .pure ht

theorem commaList (hitem : ∀ s s', R s s' → Steady R (item s) (item' s')) {s : σ} {s' : σ'}
    (h : R s s') : Steady R (commaList item s) (commaList item' s') :=
  length_bind (f := fun n => Parser.separated item (n + 1) s) fun n => separated hitem (n + 1) h

end

/-! ## Headers -/

theorem range : Steady Eq range range := by
  refine (accept (by decide)).bind fun b b' hb => ?_
  subst hb
  split
  · refine index.bind fun msb _ hmsb => (expect (by decide)).bind fun _ _ _ =>
      index.bind fun lsb _ hlsb => ?_
    subst hmsb hlsb
    dsimp only
    split
    · exact unsupported_bind
    · split
      · exact (expect (by decide)).bind fun _ _ _ => .pure rfl
      · exact .unsupported
  · exact .pure rfl

theorem direction : Steady Eq direction direction := by
  refine peek_bind fun next => ?_
  split
  · exact skip_bind (by decide) (.pure rfl)
  · exact skip_bind (by decide) (.pure rfl)
  · exact steadyAt .unsupported
  · exact steadyAt (.pure rfl)

/-- The modules have one outline so far, in which every declared signal is a port. -/
structure SameHeader (s s' : Module × Option (Direction × Width)) : Prop where
  outline : s.1.outline = s'.1.outline
  directed : s.1.outline.Directed
  current : s.2 = s'.2

/-- Modules of one outline take a port alike. -/
theorem declare_bind {m m' : Module} {name : String} {direction : Direction} {width : Width}
    {pos pos' : Position} {f : Module → Parser α} {f' : Module → Parser α'}
    (hm : m.outline = m'.outline) (hlisted : name ∈ m.ports)
    (h : ∀ n n', m.outline.declare (.port name direction width) = some n.outline →
      n.outline = n'.outline → Steady R (f n) (f' n')) :
    Steady R ((liftM (Parser.declare m ⟨name, some direction, width, pos⟩) : Parser Module) >>= f)
      ((liftM (Parser.declare m' ⟨name, some direction, width, pos'⟩) : Parser Module) >>= f') := by
  have hports : m.ports = m'.ports := congrArg Outline.ports hm
  intro _ c c' a _ hrun
  obtain ⟨n, hn, hrun⟩ := run_of_lift_bind hrun
  have hdeclare := toOption_declare (d := ⟨name, some direction, width, pos⟩) fun _ => hlisted
  have hdeclare' := toOption_declare (m := m') (d := ⟨name, some direction, width, pos'⟩)
    fun _ => hports ▸ hlisted
  rw [hn] at hdeclare
  rw [← hm] at hdeclare'
  obtain ⟨n', hn', hsame⟩ := Option.map_eq_some_iff.1 (hdeclare'.trans hdeclare.symm)
  obtain ⟨ts, hts, hreach, h'⟩ := h n n' hdeclare.symm hsame.symm _ rfl hrun
  refine ⟨ts, hts, hreach, fun e e' he htwin => ?_⟩
  obtain ⟨a', ha', hR⟩ := h' he htwin
  refine ⟨a', ?_, hR⟩
  rw [ok_of_toOption hn']
  exact ha'

theorem headerName {m m' : Module} {current : Option (Direction × Width)}
    (hm : m.outline = m'.outline) (hdirected : m.outline.Directed) :
    Steady SameHeader (headerName m current) (headerName m' current) := by
  have hports : m.ports = m'.ports := congrArg Outline.ports hm
  refine position_bind fun pos pos' => ident.bind fun name _ h => ?_
  subst h
  dsimp only
  rw [← hports]
  split
  · exact of_fails nofun
  · have hadd : ({ m with ports := m.ports ++ [name] } : Module).outline =
        ({ m' with ports := m.ports ++ [name] } : Module).outline :=
      congrArg (fun o : Outline => { o with ports := m.ports ++ [name] }) hm
    cases current with
    | none => exact .pure ⟨hadd, hdirected, rfl⟩
    | some current =>
      refine declare_bind hadd (List.mem_append_right _ (.head _)) fun n n' hn hsame => .pure ?_
      refine ⟨hsame, fun x => ?_, rfl⟩
      exact Outline.declareAll_directed (Outline.declareAll_singleton.trans hn) (hdirected x)
        (List.forall_mem_singleton.2 fun _ => rfl)

theorem headerPort {s s' : Module × Option (Direction × Width)} (h : SameHeader s s') :
    Steady SameHeader (headerPort s) (headerPort s') := by
  obtain ⟨m, current⟩ := s
  obtain ⟨m', current'⟩ := s'
  obtain ⟨hm, hdirected, hcurrent⟩ := h
  cases hcurrent
  refine direction.bind fun d? _ hd => ?_
  subst hd
  dsimp only
  split
  · refine (accept (by decide)).bind fun _ _ _ => range.bind fun width _ hwidth => ?_
    subst hwidth
    exact (Steady.pure (R := Eq) rfl).bind fun _ _ h => h ▸ headerName hm hdirected
  · exact (Steady.pure (R := Eq) rfl).bind fun _ _ h => h ▸ headerName hm hdirected

theorem header {m m' : Module} (hm : m.outline = m'.outline) (hdirected : m.outline.Directed) :
    Steady (fun n n' => n.outline = n'.outline ∧ n.outline.Directed) (header m) (header m') := by
  refine (accept (by decide)).bind fun b b' hb => ?_
  subst hb
  split
  · exact .pure ⟨hm, hdirected⟩
  · have hlist : Steady SameHeader (Parser.commaList Parser.headerPort (m, none))
        (Parser.commaList Parser.headerPort (m', none)) :=
      commaList (fun _ _ => headerPort) ⟨hm, hdirected, rfl⟩
    refine hlist.bind fun s s' hs => ?_
    exact (expect (by decide)).bind fun _ _ _ => .pure ⟨hs.outline, hs.directed⟩

/-! ## Assignments and instances -/

/-- The modules have the outlines of two given ones. -/
def Keep (m m' : Module) (n n' : Module) : Prop := n.outline = m.outline ∧ n'.outline = m'.outline

variable {m m' n n' : Module}

theorem assignment (h : Keep m m' n n') : Steady (Keep m m') (assignment n) (assignment n') := by
  refine position_bind fun pos pos' => ident.bind fun target _ ht => peek_bind fun next => ?_
  subst ht
  split
  · exact unsupported_bind.steadyAt
  · refine steadyAt ?_
    exact (expect (by decide)).bind fun _ _ _ => expression.bind fun _ _ _ => .pure h

theorem namedConnection (before before' : List (String × Option Expr)) :
    Steady Whatever (namedConnection before) (namedConnection before') := by
  refine (expect (by decide)).bind fun _ _ _ => ident.bind fun port _ hport =>
    (expect (by decide)).bind fun _ _ _ => peek_bind fun next => ?_
  dsimp only
  split
  · refine steadyAt ?_
    exact (Steady.pure (R := Whatever) trivial).bind fun _ _ _ =>
      (expect (by decide)).bind fun _ _ _ => .pure trivial
  · refine steadyAt (expression.bind fun _ _ _ => ?_)
    exact (Steady.pure (R := Whatever) trivial).bind fun _ _ _ =>
      (expect (by decide)).bind fun _ _ _ => .pure trivial

theorem connections : Steady Whatever connections connections := by
  refine peek_bind fun next => ?_
  split
  · have hlist : Steady Whatever (Parser.commaList Parser.namedConnection [])
        (Parser.commaList Parser.namedConnection []) :=
      commaList (fun before before' _ => namedConnection before before') trivial
    exact steadyAt (hlist.bind fun _ _ _ => .pure trivial)
  · refine steadyAt (peek_bind fun next => ?_)
    split
    · exact steadyAt (.pure trivial)
    · exact steadyAt (expressions.bind fun _ _ _ => .pure trivial)

theorem oneInstance {target : String} {pos pos' : Position} (h : Keep m m' n n') :
    Steady (Keep m m') (oneInstance target pos n) (oneInstance target pos' n') := by
  have hrest : ∀ name : Option String, Steady (Keep m m')
      (do
        expectMark .leftParen
        let wiring ← Parser.connections
        expectMark .rightParen
        return { n with instances := n.instances ++ [⟨target, name, wiring, pos⟩] })
      (do
        expectMark .leftParen
        let wiring ← Parser.connections
        expectMark .rightParen
        return { n' with instances := n'.instances ++ [⟨target, name, wiring, pos'⟩] }) :=
    fun name => (expect (by decide)).bind fun _ _ _ => connections.bind fun _ _ _ =>
      (expect (by decide)).bind fun _ _ _ => .pure h
  refine peek_bind fun next => ?_
  dsimp only
  split
  · exact skip_bind ⟨nofun, nofun, nofun⟩ (hrest _)
  · exact (hrest none).steadyAt

end Steady

end Parser

end GateSynth.Verilog
