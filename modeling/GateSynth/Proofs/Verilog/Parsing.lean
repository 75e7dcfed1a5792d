import GateSynth.Proofs.Results
import GateSynth.Verilog.Parser

/-!
# What parsing promises

A parsed module declares every name once, lists every port once, and gives a direction to nothing
but its ports; no identifier has a slash in it (`parse_wellFormed`). The slash is left to the names
that instances get when they are inlined. Selections go from the higher bit to the lower one
(`parse_parsed`), and parsing itself never computes with a width out of range
(`parse_ne_beyondWord`). The proof follows the parser: `Keeps` says of a step that it leaves
identifiers without slashes ahead, and what it says of its result.
-/

namespace GateSynth.Verilog

/-- The name is not below an instance. -/
def Flat (name : String) : Prop := '/' ∉ name.toList

/-- What parsing promises of a module. -/
structure Module.WellFormed (m : Module) : Prop where
  decls_nodup : (m.decls.map Decl.name).Nodup
  ports_nodup : m.ports.Nodup
  directed : ∀ d ∈ m.decls, d.direction.isSome = true → d.name ∈ m.ports
  flat_decl : ∀ d ∈ m.decls, Flat d.name
  flat_instance : ∀ i ∈ m.instances, ∀ name, i.name = some name → Flat name

/-- What parsing promises of a source file. -/
def SourceFile.WellFormed (file : SourceFile) : Prop := ∀ m ∈ file.modules, m.WellFormed

instance (name : String) : Decidable (Flat name) :=
  inferInstanceAs (Decidable ('/' ∉ name.toList))

instance (m : Module) : Decidable m.WellFormed :=
  decidable_of_iff ((m.decls.map Decl.name).Nodup ∧ m.ports.Nodup ∧
      (∀ d ∈ m.decls, d.direction.isSome = true → d.name ∈ m.ports) ∧
      (∀ d ∈ m.decls, Flat d.name) ∧ ∀ i ∈ m.instances, ∀ name ∈ i.name, Flat name)
    ⟨fun h => ⟨h.1, h.2.1, h.2.2.1, h.2.2.2.1, h.2.2.2.2⟩,
    fun h => ⟨h.decls_nodup, h.ports_nodup, h.directed, h.flat_decl, h.flat_instance⟩⟩

instance (file : SourceFile) : Decidable file.WellFormed :=
  inferInstanceAs (Decidable (∀ m ∈ file.modules, m.WellFormed))

/-- Every selection goes from the higher bit to the lower one. -/
inductive Expr.Ordered : Expr → Prop
  | ident (name : String) (pos : Position) : Ordered (.ident name pos)
  | number (size : Option Nat) (value : Word) : Ordered (.number size value)
  | select {name : String} {msb lsb : Nat} {pos : Position} (h : lsb ≤ msb) :
    Ordered (.select name msb lsb pos)
  | concat {parts : List Expr} (h : ∀ part ∈ parts, Ordered part) : Ordered (.concat parts)
  | unary {op : UnaryOp} {inner : Expr} (h : Ordered inner) : Ordered (.unary op inner)
  | binary {op : BinaryOp} {left right : Expr} (hleft : Ordered left) (hright : Ordered right) :
    Ordered (.binary op left right)
  | ternary {condition yes no : Expr} (hcondition : Ordered condition) (hyes : Ordered yes)
    (hno : Ordered no) : Ordered (.ternary condition yes no)

/-- The expressions in the connections of an instance. -/
def Connections.exprs : Connections → List Expr
  | .positional exprs => exprs
  | .named ports => ports.filterMap Prod.snd

/-- What parsing promises of a module and of the expressions in it. -/
structure Module.Parsed (m : Module) : Prop extends m.WellFormed where
  ordered_assign : ∀ a ∈ m.assigns, a.expr.Ordered
  ordered_instance : ∀ i ∈ m.instances, ∀ e ∈ i.connections.exprs, e.Ordered

/-! ## Tokens -/

/-- A token that is an identifier has no slash in it. -/
def Token.Plain (t : Token) : Prop := ∀ name, t = .ident name → Flat name

theorem mem_takeWhile {p : Char → Bool} {c : Char} {cs : List Char} (h : c ∈ cs.takeWhile p) :
    p c = true :=
  List.all_eq_true.1 List.all_takeWhile c h

namespace Lexeme

theorem plain_word {cs : List Char} : (wordToken (cs.takeWhile continuesIdent)).Plain := by
  intro name h hslash
  rw [wordToken] at h
  split at h
  · cases h
  · cases h
    rw [String.toList_ofList] at hslash
    have := mem_takeWhile hslash
    revert this
    decide

theorem plain_number {digits : List Char} {t : Token} (h : numberVerdict digits = .token t) :
    t.Plain := by
  intro name ht
  rw [numberVerdict] at h
  split at h
  · cases h
    cases ht
  · cases h

theorem plain_sized {size digits : List Char} {radix : Nat} {t : Token}
    (h : sizedVerdict size radix digits = .token t) : t.Plain := by
  intro name ht
  rw [sizedVerdict] at h
  split at h
  · cases h
    cases ht
  · cases h

theorem plain_of_number {cs lexeme : List Char} {t : Token}
    (h : number cs = (lexeme, .token t)) : t.Plain := by
  unfold number at h
  dsimp only at h
  split at h
  · split at h
    · exact plain_sized (congrArg Prod.snd h)
    · exact plain_number (congrArg Prod.snd h)
  · exact plain_number (congrArg Prod.snd h)

/-- Of the lexemes, only words are identifiers. -/
theorem plain_front {c : Char} {rest lexeme : List Char} {t : Token}
    (h : front c rest = (lexeme, .token t)) : t.Plain := by
  unfold front at h
  dsimp only at h
  split at h
  · cases h
  split at h
  · cases h
    exact plain_word
  split at h
  · exact plain_of_number h
  split at h
  · cases h
  · split at h
    · cases h
    · cases h
  · split at h
    · cases h
      nofun
    · cases h
      nofun
    · cases h

end Lexeme

theorem plain_of_tokenizeFrom {index : LineIndex} {lexemes offset : Nat} {cs : List Char}
    {tokens : List Spanned} (h : tokenizeFrom index lexemes offset cs = .ok tokens) :
    ∀ t ∈ tokens, t.token.Plain := by
  induction lexemes generalizing offset cs tokens with
  | zero =>
    cases h
    exact List.forall_mem_nil _
  | succ lexemes ih =>
    cases cs with
    | nil =>
      cases h
      exact List.forall_mem_nil _
    | cons c rest =>
      rw [tokenizeFrom] at h
      cases hfront : Lexeme.front c rest with
      | mk lexeme verdict =>
        rw [hfront] at h
        cases verdict with
        | blank => exact ih h
        | bad => cases h
        | token token =>
          dsimp only at h
          split at h
          · next tokens htokens =>
            cases h
            exact List.forall_mem_cons.2 ⟨Lexeme.plain_front hfront, ih htokens⟩
          · cases h

theorem tokenizeFrom_ne_beyondWord (index : LineIndex) (lexemes offset : Nat) (cs : List Char) :
    tokenizeFrom index lexemes offset cs ≠ .error .beyondWord := by
  induction lexemes generalizing offset cs with
  | zero => nofun
  | succ lexemes ih =>
    cases cs with
    | nil => nofun
    | cons c rest =>
      rw [tokenizeFrom]
      dsimp only
      split
      · exact ih _ _
      · nofun
      · split
        · nofun
        · next e he =>
          rw [← he]
          exact ih _ _

/-! ## Steps of the parser -/

/-- The tokens that are left have no slash in their identifiers. -/
def Cursor.Plain (c : Cursor) : Prop := ∀ t ∈ c.rest, t.token.Plain

namespace Parser

variable {α β : Type} {P : α → Prop} {Q : β → Prop}

/-- The step leaves identifiers without slashes ahead, and its result has a property; if it fails,
then not over a width. -/
def Keeps (P : α → Prop) (step : Parser α) : Prop :=
  ∀ ⦃c⦄, c.Plain → match step.run c with
    | .ok (a, c') => c'.Plain ∧ P a
    | .error e => e ≠ .beyondWord

namespace Keeps

theorem pure {a : α} (h : P a) : Keeps P (pure a : Parser α) := fun _ hc => ⟨hc, h⟩

theorem throw {e : SourceError} (he : e ≠ .beyondWord) : Keeps P (throw e : Parser α) :=
  fun _ _ => he

theorem lift {x : Except SourceError α} (h : ∀ a, x = .ok a → P a)
    (he : x ≠ .error .beyondWord) : Keeps P (liftM x : Parser α) := by
  intro c hc
  cases x with
  | ok a => exact ⟨hc, h a rfl⟩
  | error e =>
    show e ≠ .beyondWord
    rintro rfl
    exact he rfl

theorem bind {step : Parser α} {next : α → Parser β} (h : Keeps P step)
    (hnext : ∀ a, P a → Keeps Q (next a)) : Keeps Q (step >>= next) := by
  intro c hc
  have hstep := h hc
  rw [StateT.run_bind]
  cases hrun : step.run c with
  | ok r =>
    rw [hrun] at hstep
    exact hnext r.1 hstep.2 hstep.1
  | error e =>
    rw [hrun] at hstep
    exact hstep

theorem get : Keeps (fun _ => True) (get : Parser Cursor) := fun _ hc => ⟨hc, trivial⟩

theorem position : Keeps (fun _ => True) position := get.bind fun _ _ => pure trivial

theorem fail (detail : String) : Keeps P (fail detail : Parser α) :=
  position.bind fun _ _ => throw nofun

theorem unsupported (construct : String) : Keeps P (unsupported construct : Parser α) :=
  position.bind fun _ _ => throw nofun

theorem throw_bind {e : SourceError} (he : e ≠ .beyondWord) (next : α → Parser β) :
    Keeps Q ((MonadExcept.throw e : Parser α) >>= next) :=
  bind (show Keeps (fun _ => False) _ from throw he) fun _ h => h.elim

theorem unsupported_bind (construct : String) (next : α → Parser β) :
    Keeps Q (Parser.unsupported construct >>= next) :=
  bind (show Keeps (fun _ => False) _ from unsupported construct) fun _ h => h.elim

theorem peek : Keeps (fun t? => ∀ t ∈ t?, t.Plain) peek := by
  intro c hc
  refine ⟨hc, fun t ht => ?_⟩
  obtain ⟨s, hs, rfl⟩ := Option.map_eq_some_iff.1 ht
  exact hc s (List.mem_of_mem_head? hs)

theorem skip : Keeps (fun _ => True) skip :=
  fun _ hc => ⟨fun t ht => hc t (List.mem_of_mem_tail ht), trivial⟩

theorem accept (token : Token) : Keeps (fun _ => True) (accept token) := by
  refine peek.bind fun _ _ => ?_
  split
  · exact skip.bind fun _ _ => pure trivial
  · exact pure trivial

theorem expect (token : Token) : Keeps (fun _ => True) (expect token) := by
  refine (accept token).bind fun _ _ => ?_
  split
  · exact pure trivial
  · exact get.bind fun _ _ => fail _

theorem ident : Keeps Flat ident := by
  refine peek.bind fun t? ht => ?_
  split
  · next name => exact skip.bind fun _ _ => pure (ht _ rfl name rfl)
  · exact get.bind fun _ _ => fail _

theorem index : Keeps (fun _ => True) index := by
  refine peek.bind fun _ _ => ?_
  split
  · refine skip.bind fun _ _ => ?_
    split
    · exact pure trivial
    · exact fail _
  · exact fail _

/-! ## Expressions -/

theorem signal (name : String) (pos : Position) : Keeps Expr.Ordered (signal name pos) := by
  refine (accept _).bind fun _ _ => ?_
  split
  · refine index.bind fun msb _ => (accept _).bind fun _ _ => ?_
    have hrest : ∀ lsb, Keeps Expr.Ordered (do
        if msb < lsb then
          Parser.unsupported s!"ascending part-select [{msb}:{lsb}]"
        expectMark .rightBracket
        return Expr.select name msb lsb pos) := by
      intro lsb
      split
      · exact unsupported_bind _ _
      · next hle => exact (expect _).bind fun _ _ => pure (.select (Nat.le_of_not_lt hle))
    split
    · exact index.bind fun lsb _ => hrest lsb
    · exact hrest msb
  · exact pure (.ident name pos)

/-- The parsers of expressions call each other with less fuel. -/
theorem exprs (fuel : Nat) :
    Keeps Expr.Ordered (expr fuel) ∧ (∀ power, Keeps Expr.Ordered (binary fuel power)) ∧
      (∀ power left, left.Ordered → Keeps Expr.Ordered (binaryRest fuel power left)) ∧
      Keeps Expr.Ordered (unary fuel) ∧ Keeps Expr.Ordered (operand fuel) ∧
      ∀ before, (∀ e ∈ before, e.Ordered) →
        Keeps (fun es => ∀ e ∈ es, e.Ordered) (exprsRest fuel before) := by
  induction fuel with
  | zero => exact ⟨fail _, fun _ => fail _, fun _ _ _ => fail _, fail _, fail _, fun _ _ => fail _⟩
  | succ fuel ih =>
    obtain ⟨hexpr, hbinary, hbinaryRest, hunary, hoperand, hexprsRest⟩ := ih
    refine ⟨?_, fun power => ?_, fun power left hleft => ?_, ?_, ?_, fun before hbefore => ?_⟩
    · refine (hbinary 0).bind fun _ hcondition => (accept _).bind fun _ _ => ?_
      split
      · exact hexpr.bind fun _ hyes => (expect _).bind fun _ _ => hexpr.bind fun _ hno =>
          pure (.ternary hcondition hyes hno)
      · exact pure hcondition
    · exact hunary.bind fun left hleft => hbinaryRest power left hleft
    · refine peek.bind fun _ _ => ?_
      split
      · split
        · exact pure hleft
        · exact skip.bind fun _ _ => (hbinary _).bind fun _ hright =>
            hbinaryRest _ _ (.binary hleft hright)
      · exact pure hleft
    · refine peek.bind fun _ _ => ?_
      split
      · exact skip.bind fun _ _ => hunary.bind fun _ hinner => pure (.unary hinner)
      · exact skip.bind fun _ _ => hunary.bind fun _ hinner => pure (.unary hinner)
      · exact skip.bind fun _ _ => hunary.bind fun _ hinner => pure (.binary (.number _ _) hinner)
      all_goals first | exact unsupported _ | exact hoperand
    · refine position.bind fun _ _ => peek.bind fun _ _ => ?_
      split
      · exact skip.bind fun _ _ => signal _ _
      · exact skip.bind fun _ _ => pure (.number _ _)
      · exact skip.bind fun _ _ => pure (.number _ _)
      · exact skip.bind fun _ _ => hexpr.bind fun _ hinner => (expect _).bind fun _ _ => pure hinner
      · exact skip.bind fun _ _ => hexpr.bind fun _ hfirst =>
          (hexprsRest _ (List.forall_mem_singleton.2 hfirst)).bind fun _ hparts =>
            (expect _).bind fun _ _ => pure (.concat hparts)
      all_goals exact get.bind fun _ _ => fail _
    · refine (accept _).bind fun _ _ => ?_
      split
      · refine hexpr.bind fun next hnext => hexprsRest _ fun e he => ?_
        rcases List.mem_append.1 he with he | he
        · exact hbefore e he
        · exact List.mem_singleton.1 he ▸ hnext
      · exact pure hbefore

theorem exprFuel : Keeps (fun _ => True) exprFuel := get.bind fun _ _ => pure trivial

theorem expression : Keeps Expr.Ordered expression :=
  exprFuel.bind fun fuel _ => (exprs fuel).1

theorem expressions : Keeps (fun es => ∀ e ∈ es, e.Ordered) expressions :=
  expression.bind fun _ hfirst => exprFuel.bind fun fuel _ =>
    (exprs fuel).2.2.2.2.2 _ (List.forall_mem_singleton.2 hfirst)

end Keeps

/-! ## Declarations -/

theorem map_name_replaceDecl (d : Decl) (decls : List Decl) :
    (replaceDecl d decls).map Decl.name = decls.map Decl.name := by
  induction decls with
  | nil => rfl
  | cons first rest ih =>
    rw [replaceDecl]
    split
    · next h => rw [List.map_cons, List.map_cons, h]
    · rw [List.map_cons, List.map_cons, ih]

theorem mem_replaceDecl {d e : Decl} {decls : List Decl} (h : e ∈ replaceDecl d decls) :
    e = d ∨ e ∈ decls := by
  induction decls with
  | nil => cases h
  | cons first rest ih =>
    rw [replaceDecl] at h
    split at h
    · exact (List.mem_cons.1 h).imp_right (.tail _)
    · rcases List.mem_cons.1 h with rfl | h
      · exact .inr (.head _)
      · exact (ih h).imp_right (.tail _)

theorem declare_wellFormed {m m' : Module} {d : Decl} (hm : m.WellFormed) (hflat : Flat d.name)
    (hdirected : d.direction.isSome = true → d.name ∈ m.ports) (h : declare m d = .ok m') :
    m'.WellFormed := by
  rw [declare] at h
  split at h
  · next hnone =>
    cases h
    refine ⟨?_, hm.ports_nodup, ?_, ?_, hm.flat_instance⟩
    · rw [List.map_append, List.nodup_append]
      refine ⟨hm.decls_nodup, List.pairwise_singleton _ _, fun a ha b hb => ?_⟩
      obtain ⟨e, he, rfl⟩ := List.mem_map.1 ha
      cases List.mem_singleton.1 hb
      simpa using List.find?_eq_none.1 hnone e he
    · intro e he
      rcases List.mem_append.1 he with he | he
      · exact hm.directed e he
      · cases List.mem_singleton.1 he
        exact hdirected
    · intro e he
      rcases List.mem_append.1 he with he | he
      · exact hm.flat_decl e he
      · cases List.mem_singleton.1 he
        exact hflat
  · split at h
    · cases h
      split
      · refine ⟨?_, hm.ports_nodup, ?_, ?_, hm.flat_instance⟩
        · rw [map_name_replaceDecl]
          exact hm.decls_nodup
        · intro e he
          rcases mem_replaceDecl he with rfl | he
          · exact hdirected
          · exact hm.directed e he
        · intro e he
          rcases mem_replaceDecl he with rfl | he
          · exact hflat
          · exact hm.flat_decl e he
      · exact hm
    · cases h

theorem declare_ne_beyondWord (m : Module) (d : Decl) : declare m d ≠ .error .beyondWord := by
  rw [declare]
  split
  · nofun
  · split <;> nofun

/-- A declaration adds no statements. -/
theorem statements_of_declare {m m' : Module} {d : Decl} (h : declare m d = .ok m') :
    m'.assigns = m.assigns ∧ m'.instances = m.instances := by
  rw [declare] at h
  split at h
  · cases h
    exact ⟨rfl, rfl⟩
  · split at h
    · cases h
      split <;> exact ⟨rfl, rfl⟩
    · cases h

theorem declare_parsed {m m' : Module} {d : Decl} (hm : m.Parsed) (hflat : Flat d.name)
    (hdirected : d.direction.isSome = true → d.name ∈ m.ports) (h : declare m d = .ok m') :
    m'.Parsed := by
  obtain ⟨hassigns, hinstances⟩ := statements_of_declare h
  exact ⟨declare_wellFormed hm.toWellFormed hflat hdirected h, hassigns ▸ hm.ordered_assign,
    hinstances ▸ hm.ordered_instance⟩

/-- A new port keeps what is promised of a module. -/
theorem Parsed.addPort {m : Module} (hm : m.Parsed) {name : String} (h : name ∉ m.ports) :
    ({ m with ports := m.ports ++ [name] } : Module).Parsed :=
  { hm with
    ports_nodup := List.nodup_append.2 ⟨hm.ports_nodup, List.pairwise_singleton _ _, by
      rintro a ha b hb rfl
      exact h (List.mem_singleton.1 hb ▸ ha)⟩
    directed := fun d hd hdir => List.mem_append_left _ (hm.directed d hd hdir) }

theorem Parsed.addAssign {m : Module} (hm : m.Parsed) {a : Assign} (h : a.expr.Ordered) :
    ({ m with assigns := m.assigns ++ [a] } : Module).Parsed :=
  { hm with
    ordered_assign := fun b hb => (List.mem_append.1 hb).elim (hm.ordered_assign b) fun hb =>
      List.mem_singleton.1 hb ▸ h }

theorem Parsed.addInstance {m : Module} (hm : m.Parsed) {i : Instance}
    (hname : ∀ name, i.name = some name → Flat name) (h : ∀ e ∈ i.connections.exprs, e.Ordered) :
    ({ m with instances := m.instances ++ [i] } : Module).Parsed :=
  { hm with
    flat_instance := fun j hj => (List.mem_append.1 hj).elim (hm.flat_instance j) fun hj =>
      List.mem_singleton.1 hj ▸ hname
    ordered_instance := fun j hj => (List.mem_append.1 hj).elim (hm.ordered_instance j) fun hj =>
      List.mem_singleton.1 hj ▸ h }

namespace Keeps

theorem separated {σ : Type} {P : σ → Prop} {item : σ → Parser σ}
    (hitem : ∀ s, P s → Keeps P (item s)) (fuel : Nat) {s : σ} (h : P s) :
    Keeps P (separated item fuel s) := by
  induction fuel generalizing s with
  | zero => exact fail _
  | succ fuel ih =>
    refine (hitem s h).bind fun s' hs' => (accept _).bind fun _ _ => ?_
    split
    · exact ih hs'
    · exact pure hs'

theorem commaList {σ : Type} {P : σ → Prop} {item : σ → Parser σ}
    (hitem : ∀ s, P s → Keeps P (item s)) {s : σ} (h : P s) : Keeps P (commaList item s) :=
  get.bind fun _ _ => separated hitem _ h

theorem range : Keeps (fun _ => True) range := by
  refine (accept _).bind fun _ _ => ?_
  split
  · refine index.bind fun msb _ => (expect _).bind fun _ _ => index.bind fun lsb _ => ?_
    dsimp only
    split
    · exact unsupported_bind _ _
    · split
      · exact (expect _).bind fun _ _ => pure trivial
      · exact unsupported _
  · exact pure trivial

theorem direction : Keeps (fun _ => True) direction := by
  refine peek.bind fun _ _ => ?_
  split
  · exact skip.bind fun _ _ => pure trivial
  · exact skip.bind fun _ _ => pure trivial
  · exact unsupported _
  · exact pure trivial

theorem headerName (m : Module) (current : Option (Direction × Width)) (hm : m.Parsed) :
    Keeps (fun s => s.1.Parsed) (headerName m current) := by
  refine position.bind fun pos _ => ident.bind fun name hname => ?_
  dsimp only
  split
  · exact throw_bind (by nofun) _
  · next hport =>
    have hm : ({ m with ports := m.ports ++ [name] } : Module).Parsed :=
      Parsed.addPort hm (by simpa using hport)
    split
    · refine (lift (fun m' hm' => ?_) (declare_ne_beyondWord _ _)).bind fun m' hm' => pure hm'
      exact declare_parsed hm hname (fun _ => List.mem_append_right _ (.head _)) hm'
    · exact pure hm

theorem headerPort (s : Module × Option (Direction × Width)) (hs : s.1.Parsed) :
    Keeps (fun s => s.1.Parsed) (headerPort s) := by
  obtain ⟨m, current⟩ := s
  refine direction.bind fun d? _ => ?_
  dsimp only
  split
  · exact (accept _).bind fun _ _ => range.bind fun _ _ =>
      (pure (P := fun _ => True) trivial).bind fun current _ => headerName m current hs
  · exact (pure (P := fun _ => True) trivial).bind fun current _ => headerName m current hs

theorem bodyPort (direction : Direction) (width : Width) (m : Module) (hm : m.Parsed) :
    Keeps Module.Parsed (bodyPort direction width m) := by
  refine position.bind fun pos _ => ident.bind fun name hname => ?_
  split
  · next hport =>
    exact lift (fun m' hm' => declare_parsed hm hname (fun _ => by simpa using hport) hm')
      (declare_ne_beyondWord _ _)
  · exact throw_bind (by nofun) _

theorem portDecl (m : Module) (hm : m.Parsed) : Keeps Module.Parsed (portDecl m) := by
  refine direction.bind fun _ _ => ?_
  split
  · exact fail _
  · exact (accept _).bind fun _ _ => range.bind fun _ _ =>
      (commaList (bodyPort _ _) hm).bind fun m' hm' => (expect _).bind fun _ _ => pure hm'

theorem bodyWire (width : Width) (m : Module) (hm : m.Parsed) :
    Keeps Module.Parsed (bodyWire width m) := by
  refine position.bind fun pos _ => ident.bind fun name hname => ?_
  have hwire : ((none : Option Direction).isSome = true → name ∈ m.ports) := fun h => by cases h
  refine (lift (fun m' hm' => declare_parsed hm hname hwire hm')
    (declare_ne_beyondWord _ _)).bind fun m' hm' => (accept _).bind fun _ _ => ?_
  split
  · exact expression.bind fun _ hvalue => pure (Parsed.addAssign hm' hvalue)
  · exact pure hm'

theorem wireDecl (m : Module) (hm : m.Parsed) : Keeps Module.Parsed (wireDecl m) :=
  (expect _).bind fun _ _ => range.bind fun _ _ =>
    (commaList (bodyWire _) hm).bind fun _ hm' => (expect _).bind fun _ _ => pure hm'

/-! ## Assignments, instances and modules -/

theorem assignment (m : Module) (hm : m.Parsed) : Keeps Module.Parsed (assignment m) := by
  refine position.bind fun pos _ => ident.bind fun target _ => peek.bind fun _ _ => ?_
  dsimp only
  split
  · exact unsupported_bind _ _
  · exact (expect _).bind fun _ _ => expression.bind fun _ hvalue =>
      pure (Parsed.addAssign hm hvalue)

theorem assignments (m : Module) (hm : m.Parsed) : Keeps Module.Parsed (assignments m) :=
  (expect _).bind fun _ _ => (commaList assignment hm).bind fun _ hm' =>
    (expect _).bind fun _ _ => pure hm'

theorem namedConnection (before : List (String × Option Expr))
    (hbefore : ∀ e ∈ before.filterMap Prod.snd, e.Ordered) :
    Keeps (fun ports => ∀ e ∈ ports.filterMap Prod.snd, e.Ordered) (namedConnection before) := by
  have hadd : ∀ port (value : Option Expr), (∀ e ∈ value, e.Ordered) →
      ∀ e ∈ (before ++ [(port, value)]).filterMap Prod.snd, e.Ordered := by
    intro port value hvalue e he
    rw [List.filterMap_append, List.mem_append] at he
    rcases he with he | he
    · exact hbefore e he
    · refine hvalue e ?_
      simpa [List.mem_filterMap] using he
  refine (expect _).bind fun _ _ => ident.bind fun port _ => (expect _).bind fun _ _ =>
    peek.bind fun _ _ => ?_
  dsimp only
  split
  · exact (pure (P := fun value : Option Expr => ∀ e ∈ value, e.Ordered) (by simp)).bind
      fun value hvalue => (expect _).bind fun _ _ => pure (hadd port value hvalue)
  · refine expression.bind fun expr hexpr =>
      (pure (P := fun value : Option Expr => ∀ e ∈ value, e.Ordered) fun e he => ?_).bind
        fun value hvalue => (expect _).bind fun _ _ => pure (hadd port value hvalue)
    exact Option.mem_some.1 he ▸ hexpr

theorem connections : Keeps (fun wiring => ∀ e ∈ wiring.exprs, e.Ordered) connections := by
  refine peek.bind fun _ _ => ?_
  split
  · exact (commaList namedConnection (List.forall_mem_nil _)).bind fun _ hports => pure hports
  · refine peek.bind fun _ _ => ?_
    split
    · exact pure (List.forall_mem_nil _)
    · exact expressions.bind fun _ hexprs => pure hexprs

theorem oneInstance (target : String) (pos : Position) (m : Module) (hm : m.Parsed) :
    Keeps Module.Parsed (oneInstance target pos m) := by
  have hrest : ∀ name : Option String, (∀ s, name = some s → Flat s) →
      Keeps Module.Parsed (do
        expectMark .leftParen
        let wiring ← Parser.connections
        expectMark .rightParen
        return { m with instances := m.instances ++ [⟨target, name, wiring, pos⟩] }) := by
    intro name hname
    exact (expect _).bind fun _ _ => connections.bind fun _ hwiring => (expect _).bind fun _ _ =>
      pure (Parsed.addInstance hm hname hwiring)
  refine peek.bind fun t? ht => ?_
  dsimp only
  split
  · next name =>
    refine skip.bind fun _ _ => (pure (P := fun name? => ∀ s, name? = some s → Flat s) ?_).bind hrest
    intro s hs
    cases hs
    exact ht _ rfl _ rfl
  · exact (pure (P := fun name? => ∀ s, name? = some s → Flat s) fun s hs => by
      cases hs).bind hrest

theorem instances (m : Module) (hm : m.Parsed) : Keeps Module.Parsed (instances m) :=
  position.bind fun _ _ => ident.bind fun _ _ =>
    (commaList (oneInstance _ _) hm).bind fun _ hm' => (expect _).bind fun _ _ => pure hm'

theorem body (items : Nat) {m : Module} (hm : m.Parsed) :
    Keeps Module.Parsed (body items m) := by
  induction items generalizing m with
  | zero => exact fail _
  | succ items ih =>
    refine peek.bind fun _ _ => ?_
    split
    · exact fail _
    · exact skip.bind fun _ _ => pure hm
    · exact (portDecl m hm).bind fun _ hm' => ih hm'
    · exact (portDecl m hm).bind fun _ hm' => ih hm'
    · exact (portDecl m hm).bind fun _ hm' => ih hm'
    · exact (wireDecl m hm).bind fun _ hm' => ih hm'
    · exact (assignments m hm).bind fun _ hm' => ih hm'
    · exact (instances m hm).bind fun _ hm' => ih hm'
    · exact fail _

theorem header (m : Module) (hm : m.Parsed) : Keeps Module.Parsed (header m) := by
  refine (accept _).bind fun _ _ => ?_
  split
  · exact pure hm
  · exact (commaList headerPort (s := (m, none)) hm).bind fun s hs => (expect _).bind fun _ _ =>
      pure hs

theorem moduleRest (name : String) (pos : Position) (m : Module) (hm : m.Parsed) :
    Keeps Module.Parsed (moduleRest name pos m) := by
  refine (expect _).bind fun _ _ => get.bind fun _ _ => (body _ hm).bind fun m' hm' => ?_
  split
  · exact throw nofun
  · exact pure hm'

theorem module : Keeps Module.Parsed module := by
  refine position.bind fun pos _ => (expect _).bind fun _ _ => ident.bind fun name _ => ?_
  have hm : (⟨name, [], [], [], [], pos⟩ : Module).Parsed :=
    ⟨⟨.nil, .nil, nofun, nofun, nofun⟩, nofun, nofun⟩
  refine (accept _).bind fun _ _ => ?_
  split
  · exact (header _ hm).bind (moduleRest name pos)
  · exact (pure hm).bind (moduleRest name pos)

theorem modules (count : Nat) {before : List Module} (hbefore : ∀ m ∈ before, m.Parsed) :
    Keeps (fun ms => ∀ m ∈ ms, m.Parsed) (modules count before) := by
  induction count generalizing before with
  | zero => exact pure hbefore
  | succ count ih =>
    refine peek.bind fun _ _ => ?_
    split
    · exact pure hbefore
    · refine module.bind fun m hm => ?_
      dsimp only
      split
      · exact throw_bind (by nofun) _
      · refine ih fun m' hm' => ?_
        rcases List.mem_append.1 hm' with hm' | hm'
        · exact hbefore m' hm'
        · cases List.mem_singleton.1 hm'
          exact hm

end Keeps

end Parser

/-- What parsing a text ends with. -/
theorem parse_cases (source : String) : match parse source with
    | .ok file => ∀ m ∈ file.modules, m.Parsed
    | .error e => e ≠ .beyondWord := by
  rw [parse]
  cases htokens : tokenize source with
  | error e =>
    show e ≠ .beyondWord
    rintro rfl
    exact tokenizeFrom_ne_beyondWord _ _ _ _ htokens
  | ok tokens =>
    have hplain : Cursor.Plain ⟨tokens, (tokens.getLast?.map Spanned.pos).getD .nowhere⟩ :=
      plain_of_tokenizeFrom htokens
    have hmodules := Parser.Keeps.modules tokens.length (List.forall_mem_nil _) hplain
    cases hrun : (Parser.modules tokens.length []).run
        ⟨tokens, (tokens.getLast?.map Spanned.pos).getD .nowhere⟩ with
    | error e =>
      rw [hrun] at hmodules
      simpa only [bind, Except.bind, hrun] using hmodules
    | ok r =>
      rw [hrun] at hmodules
      simp only [bind, Except.bind, hrun]
      exact hmodules.2

/-- Every module that is parsed is as promised. -/
theorem parse_parsed {source : String} {file : SourceFile} (h : parse source = .ok file) :
    ∀ m ∈ file.modules, m.Parsed := by
  have hcases := parse_cases source
  rwa [h] at hcases

/-- Every file that is parsed is well formed. -/
theorem parse_wellFormed {source : String} {file : SourceFile} (h : parse source = .ok file) :
    file.WellFormed :=
  fun m hm => (parse_parsed h m hm).toWellFormed

/-- Parsing computes with no width out of range. -/
theorem parse_ne_beyondWord (source : String) : parse source ≠ .error .beyondWord := by
  intro h
  have hcases := parse_cases source
  rw [h] at hcases
  exact hcases rfl

end GateSynth.Verilog
