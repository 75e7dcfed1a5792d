import GateSynth.Proofs.Verilog.Lookahead

/-!
# The items of a module

`Item` is the grammar of the items of a module, up to what assignments and instances are made of,
with the signals that an item declares, and `Items` is the grammar of lists of them. What the parser
does at the items of a module is to declare their signals one after the other: between the same
tokens the loop over items goes from any module to one that has these signals besides (`Passes`), or
fails if the outline does not take them.
-/

namespace GateSynth.Verilog

/-! ## The grammar -/

/-- The range of a declaration, or nothing, with the width. -/
inductive RangeText : List Token → Width → Prop
  | one : RangeText [] Width.one
  | bits {msb : Word} {width : Width} (width_eq : Width.ofNat? (msb.toNat + 1) = some width) :
    RangeText [.mark .leftBracket, .number msb, .mark .colon, .number 0, .mark .rightBracket] width

/-- What declarations start with, and the direction that they give. -/
def declarationStarts : List (List Token × Option Direction) :=
  [([.keyword .wire], none), ([.keyword .input], some .input),
    ([.keyword .input, .keyword .wire], some .input), ([.keyword .output], some .output),
    ([.keyword .output, .keyword .wire], some .output)]

/-- A signal in a declaration. A wire may have its value with it. -/
inductive SignalText (direction : Option Direction) : List Token → String → Prop
  | plain (x : String) : SignalText direction [.ident x] x
  | value {x : String} {ts : List Token} {e : Expr} (wire : direction = none)
    (derives : Derives .expr ts e) : SignalText direction (.ident x :: .mark .equals :: ts) x

/-- Signals with commas between them. -/
inductive SignalsText (direction : Option Direction) : List Token → List String → Prop
  | last {ts : List Token} {x : String} (signal : SignalText direction ts x) :
    SignalsText direction ts [x]
  | more {ts us : List Token} {x : String} {xs : List String} (signal : SignalText direction ts x)
    (rest : SignalsText direction us xs) :
    SignalsText direction (ts ++ .mark .comma :: us) (x :: xs)

/-- An item of a module, with the signals that it declares. -/
inductive Item : List Token → List Decl → Prop
  | declaration {ks rs ts : List Token} {direction : Option Direction} {width : Width}
    {xs : List String} (start : (ks, direction) ∈ declarationStarts) (range : RangeText rs width)
    (signals : SignalsText direction ts xs) :
    Item (ks ++ rs ++ ts ++ [.mark .semicolon])
      (xs.map fun x => ⟨x, direction, width, .nowhere⟩)
  | assignments {ts : List Token} (inner : ∀ t ∈ ts, t.Inner) :
    Item (.keyword .assign :: ts ++ [.mark .semicolon]) []
  | instances {target : String} {ts : List Token} (inner : ∀ t ∈ ts, t.Inner) :
    Item (.ident target :: ts ++ [.mark .semicolon]) []

/-- Items one after the other, with the signals that they declare. -/
inductive Items : List Token → List Decl → Prop
  | nil : Items [] []
  | cons {ts us : List Token} {ds es : List Decl} (item : Item ts ds) (rest : Items us es) :
    Items (ts ++ us) (ds ++ es)

/-- Tokens of a body that end where an item ends. -/
def WholeItems (ts : List Token) : Prop :=
  (ts = [] ∨ ∃ us, ts = us ++ [.mark .semicolon]) ∧ .keyword .endmodule ∉ ts

theorem Items.append {ts us : List Token} {ds es : List Decl} (h : Items ts ds)
    (h' : Items us es) : Items (ts ++ us) (ds ++ es) := by
  induction h with
  | nil => exact h'
  | cons item _ ih =>
    rw [List.append_assoc, List.append_assoc]
    exact .cons item ih

/-- Expressions have no borders of items in them. -/
theorem Derives.inner {s : Symbol} {ts : List Token} {e : Expr} (h : Derives s ts e) :
    ∀ t ∈ ts, t.Inner := by
  induction h with
  | plain _ ih | tighter _ ih | single _ ih | unsigned _ ih => exact ih
  | choice _ _ _ ihc ihy ihn =>
    simp only [List.forall_mem_append, List.forall_mem_cons]
    exact ⟨ihc, by decide, ihy, by decide, ihn⟩
  | join hop _ _ ihl ihr =>
    simp only [List.forall_mem_append, List.forall_mem_cons]
    exact ⟨ihl, Parser.Steady.inner_of_bindingPower? (isOperator_iff.1 hop), ihr⟩
  | sign hsign _ ih =>
    have hall : ∀ s ∈ signs, (Token.mark s.1).Inner := by simp [signs, Token.Inner]
    exact List.forall_mem_cons.2 ⟨hall _ hsign, ih⟩
  | ident | range | bit | number | sized => simp [Token.Inner]
  | parens _ ih =>
    simp only [List.forall_mem_append, List.forall_mem_cons]
    exact ⟨by decide, ih, by decide, List.forall_mem_nil _⟩
  | concat _ _ ih ihs =>
    simp only [List.forall_mem_append, List.forall_mem_cons, List.forall_mem_flatMap]
    exact ⟨by decide, ih, fun part hpart => ⟨by decide, ihs part hpart⟩, by decide,
      List.forall_mem_nil _⟩

theorem SignalText.inner {direction : Option Direction} {ts : List Token} {x : String}
    (h : SignalText direction ts x) : ∀ t ∈ ts, t.Inner := by
  cases h with
  | plain => simp [Token.Inner]
  | value _ derives =>
    simp only [List.forall_mem_cons]
    exact ⟨⟨nofun, nofun, nofun⟩, by decide, derives.inner⟩

theorem SignalsText.inner {direction : Option Direction} {ts : List Token} {xs : List String}
    (h : SignalsText direction ts xs) : ∀ t ∈ ts, t.Inner := by
  induction h with
  | last signal => exact signal.inner
  | more signal _ ih =>
    simp only [List.forall_mem_append, List.forall_mem_cons]
    exact ⟨signal.inner, by decide, ih⟩

/-- An item ends at its only semicolon, and has no first or last word of a module in it. -/
theorem Item.inner {ts : List Token} {ds : List Decl} (h : Item ts ds) :
    ∃ us, ts = us ++ [.mark .semicolon] ∧ ∀ t ∈ us, t.Inner := by
  cases h with
  | declaration start range signals =>
    refine ⟨_, rfl, ?_⟩
    have hall : ∀ s ∈ declarationStarts, ∀ t ∈ s.1, t.Inner := by decide
    simp only [List.forall_mem_append]
    refine ⟨⟨hall _ start, ?_⟩, signals.inner⟩
    cases range with
    | one => nofun
    | bits => simp [Token.Inner]
  | assignments inner => exact ⟨_, rfl, List.forall_mem_cons.2 ⟨by decide, inner⟩⟩
  | instances inner =>
    exact ⟨_, rfl, List.forall_mem_cons.2 ⟨⟨nofun, nofun, nofun⟩, inner⟩⟩

/-- There is no first word of a module in items. -/
theorem Items.not_module {ts : List Token} {ds : List Decl} (h : Items ts ds) :
    Token.keyword .module ∉ ts := by
  induction h with
  | nil => exact List.not_mem_nil
  | cons item _ ih =>
    obtain ⟨us, rfl, hinner⟩ := item.inner
    simp only [List.mem_append, List.mem_singleton, not_or]
    exact ⟨⟨fun hmem => (hinner _ hmem).2.1 rfl, nofun⟩, ih⟩

namespace Parser

open Cursor

/-! ## Reading signals -/

/-- The outline and the cursor of a step that succeeds. -/
def outcome (x : Except SourceError (Module × Cursor)) : Option (Outline × Cursor) :=
  x.toOption.map fun r => (r.1.outline, r.2)

theorem outcome_eq_some_iff {x : Except SourceError (Module × Cursor)} {o : Outline} {c : Cursor} :
    outcome x = some (o, c) ↔ ∃ m, x = .ok (m, c) ∧ m.outline = o := by
  cases x with
  | error => exact ⟨nofun, fun ⟨_, h, _⟩ => nomatch h⟩
  | ok r =>
    obtain ⟨m, d⟩ := r
    constructor
    · rintro ⟨⟩
      exact ⟨m, rfl, rfl⟩
    · rintro ⟨m', ⟨⟩, rfl⟩
      rfl

/-- Between the cursors, the step goes behind the tokens and declares the signals; so it does behind
the same tokens anywhere, if as many are left. What the next token is matters only if the step looks
at it. -/
structure Adds (looks : Bool) (p : Module → Parser Module) (c c' : Cursor) (ts : List Token)
    (ds : List Decl) : Prop where
  reaches : c.Reaches ts c'
  nonempty : looks = false → ts ≠ []
  run : ∀ d d' : Cursor, d.Reaches ts d' → c'.rest.length = d'.rest.length →
    (looks = true → c'.peek? = d'.peek?) → ∀ m : Module,
      outcome ((p m).run d) = (m.outline.declareAll ds).map (·, d')

namespace Adds

variable {α : Type} {looks : Bool} {c c₁ c' : Cursor} {ts us : List Token} {ds es : List Decl}
  {p : Module → Parser Module}

/-- The step does the same to every module that takes the signals. -/
theorem self (h : Adds looks p c c' ts ds) (m : Module) :
    outcome ((p m).run c) = (m.outline.declareAll ds).map (·, c') :=
  h.run c c' h.reaches rfl (fun _ => rfl) m

/-- A step that does not look behind what it reads does the same wherever that stands. -/
theorem anywhere {d d' : Cursor} (h : Adds false p c c' ts ds) (hd : d.Reaches ts d')
    (hlength : c'.rest.length = d'.rest.length) (m : Module) :
    outcome ((p m).run d) = (m.outline.declareAll ds).map (·, d') :=
  h.run d d' hd hlength (absurd · Bool.false_ne_true) m

theorem twin {d d' : Cursor} (h : Adds looks p c c' ts ds) (hd : d.Reaches ts d')
    (hlength : c'.rest.length = d'.rest.length) (hpeek : looks = true → c'.peek? = d'.peek?) :
    c.Twin d := by
  refine ⟨?_, by rw [h.reaches.length, hd.length, hlength]⟩
  cases looks with
  | true => exact (Twin.of_reaches h.reaches hd ⟨hpeek rfl, hlength⟩).peek
  | false =>
    obtain ⟨t, ts, rfl⟩ := List.exists_cons_of_ne_nil (h.nonempty rfl)
    rw [(reaches_cons_iff.1 h.reaches).1, (reaches_cons_iff.1 hd).1]

theorem pure {f : Module → Module} (hf : ∀ m, (f m).outline = m.outline) :
    Adds true (fun m => pure (f m)) c c [] [] := by
  refine ⟨reaches_nil_iff.2 rfl, nofun, fun d d' hd _ _ m => ?_⟩
  cases reaches_nil_iff.1 hd
  exact congrArg (fun o => some (o, d)) (hf m)

theorem bind {q : Module → Parser Module} (hp : Adds true p c c₁ ts ds)
    (hq : Adds looks q c₁ c' us es) :
    Adds looks (fun m => p m >>= q) c c' (ts ++ us) (ds ++ es) := by
  refine ⟨hp.reaches.trans hq.reaches, fun h => ?_, fun d d' hd hlength hpeek m => ?_⟩
  · exact List.append_ne_nil_of_right_ne_nil _ (hq.nonempty h)
  · obtain ⟨d₁, hd, hd'⟩ := reaches_append_iff.1 hd
    have htwin := hq.twin hd' hlength hpeek
    have hrun := hp.run d d₁ hd htwin.length (fun _ => htwin.peek) m
    rw [Outline.declareAll_append, StateT.run_bind]
    cases hds : m.outline.declareAll ds with
    | none =>
      rw [hds] at hrun
      cases hpm : (p m).run d with
      | error e => rfl
      | ok r =>
        rw [hpm] at hrun
        cases hrun
    | some o =>
      rw [hds] at hrun
      obtain ⟨n, hn, rfl⟩ := outcome_eq_some_iff.1 hrun
      rw [hn]
      exact hq.run d₁ d' hd' hlength hpeek n

/-- A step in front that declares nothing. -/
theorem after {p : Parser α} {R : α → α → Prop} {q : α → Module → Parser Module} {a : α}
    (hp : Steady R p p) (hrun : p.run c = .ok (a, c₁)) (hreach : c.Reaches us c₁)
    (hq : ∀ a', R a a' → Adds looks (q a') c₁ c' ts ds) :
    Adds looks (fun m => p >>= fun a => q a m) c c' (us ++ ts) ds := by
  obtain ⟨vs, -, hreach', htwin⟩ := hp _ rfl hrun
  cases hreach.unique hreach'
  obtain ⟨a₀, -, ha₀⟩ := htwin hreach ⟨rfl, rfl⟩
  refine ⟨hreach.trans (hq a₀ ha₀).reaches, fun h => ?_, fun d d' hd hlength hpeek m => ?_⟩
  · exact List.append_ne_nil_of_right_ne_nil _ ((hq a₀ ha₀).nonempty h)
  · obtain ⟨d₁, hd, hd'⟩ := reaches_append_iff.1 hd
    obtain ⟨a', ha', hR⟩ := htwin hd ((hq a₀ ha₀).twin hd' hlength hpeek)
    rw [StateT.run_bind, ha']
    exact (hq a' hR).run d₁ d' hd' hlength hpeek m

theorem outcome_declare {m : Module} {d : Decl} (c : Cursor)
    (h : d.direction.isSome = true → d.name ∈ m.ports) :
    outcome ((liftM (Parser.declare m d) : Parser Module).run c) =
      (m.outline.declareAll [d.unplaced]).map (·, c) := by
  rw [Outline.declareAll_singleton, ← toOption_declare h]
  cases Parser.declare m d <;> rfl

/-- A step in front that only looks. -/
theorem after_nothing {p : Parser α} {R : α → α → Prop} {q : α → Module → Parser Module} {a : α}
    (hp : Steady R p p) (hrun : p.run c = .ok (a, c))
    (hq : ∀ a', R a a' → Adds looks (q a') c c' ts ds) :
    Adds looks (fun m => p >>= fun a => q a m) c c' ts ds :=
  after hp hrun (reaches_nil_iff.2 rfl) hq

/-- A step in front that goes behind one token. -/
theorem after_token {p : Parser α} {R : α → α → Prop} {q : α → Module → Parser Module} {a : α}
    {t : Token} (hp : Steady R p p) (hrun : p.run c = .ok (a, c₁)) (hreach : c.Reaches [t] c₁)
    (hq : ∀ a', R a a' → Adds looks (q a') c₁ c' ts ds) :
    Adds looks (fun m => p >>= fun a => q a m) c c' (t :: ts) ds :=
  after hp hrun hreach hq

/-- The item ends with a semicolon, behind which it does not look. -/
theorem close (h : Adds true p c c₁ ts ds) (hpeek : c₁.peek? = some (.mark .semicolon)) :
    Adds false (fun m => p m >>= fun m => expectMark .semicolon >>= fun _ => Pure.pure m) c c₁.next
      (ts ++ [.mark .semicolon]) ds := by
  refine ⟨h.reaches.trans (reaches_next hpeek), fun _ => ?_, fun d d' hd hlength _ m => ?_⟩
  · exact List.append_ne_nil_of_right_ne_nil _ (List.cons_ne_nil _ _)
  obtain ⟨d₁, hts, hsemicolon⟩ := reaches_append_iff.1 hd
  obtain ⟨hpeek', rfl⟩ := reaches_singleton_iff.1 hsemicolon
  have hlength' : c₁.rest.length = d₁.rest.length := by
    rw [(reaches_next hpeek).length, (reaches_next hpeek').length, hlength]
  have hrun := h.run d d₁ hts hlength' (fun _ => hpeek.trans hpeek'.symm) m
  rw [StateT.run_bind]
  cases hpm : (p m).run d with
  | error e =>
    rw [hpm] at hrun
    cases hds : m.outline.declareAll ds with
    | none => rfl
    | some o =>
      rw [hds] at hrun
      cases hrun
  | ok r =>
    obtain ⟨n, e⟩ := r
    rw [hpm] at hrun
    obtain ⟨o, ho, heq⟩ := Option.map_eq_some_iff.1 hrun.symm
    cases heq
    rw [ho]
    have hclose : (expectMark .semicolon >>= fun _ => Pure.pure n : Parser Module).run e =
        .ok (n, e.next) := run_expectMark_iff.2 ⟨hpeek', rfl⟩
    exact outcome_eq_some_iff.2 ⟨n, hclose, rfl⟩

end Adds

theorem run_ident_iff {c c' : Cursor} {x : String} :
    ident.run c = .ok (x, c') ↔ c.Reaches [.ident x] c' := by
  rw [reaches_singleton_iff, ident, run_peek_bind]
  constructor
  · intro h
    split at h
    · next y hy =>
      cases h
      exact ⟨hy, rfl⟩
    · cases h
  · rintro ⟨h, rfl⟩
    rw [h]
    rfl

theorem run_accept_of_peek {c : Cursor} {t : Token} (h : c.peek? = some t) :
    (accept t).run c = .ok (true, c.next) := by
  rw [accept, run_peek_bind, if_pos h]
  rfl

theorem run_expect_of_peek {c : Cursor} {t : Token} (h : c.peek? = some t) :
    (expect t).run c = .ok ((), c.next) := by
  rw [expect, StateT.run_bind, run_accept_of_peek h]
  rfl

theorem run_accept_of_ne {c : Cursor} {t : Token} (h : c.peek? ≠ some t) :
    (accept t).run c = .ok (false, c) := by
  rw [accept, run_peek_bind, if_neg h]
  rfl

/-- A step that may begin with a token does nothing where another one is next. -/
theorem Adds.absent {c : Cursor} {t : Token} {q : Module → Parser Module} (ht : t.Inner)
    (hnone : c.peek? ≠ some t) :
    Adds true (fun m => accept t >>= fun b => if b then q m else Pure.pure m) c c [] [] := by
  refine Adds.after_nothing (.accept ht) (run_accept_of_ne hnone) fun b hb => ?_
  subst hb
  exact .pure fun _ => rfl

theorem derives_of_expression {c c' : Cursor} {e : Expr} (h : expression.run c = .ok (e, c')) :
    ∃ ts, c.Reaches ts c' ∧ Derives .expr ts e.unplaced := by
  obtain ⟨fuel, d, hfuel, hrun⟩ := run_of_bind h
  cases hfuel
  exact (sound _).expr hrun

section
variable {width : Width} {m m' : Module} {c c' : Cursor}

theorem adds_bodyPort {direction : Direction} {x : String} (hx : c.Reaches [.ident x] c') :
    Adds true (bodyPort direction width) c c' [.ident x] [.port x direction width] := by
  refine Adds.after_nothing .position rfl fun pos _ =>
    Adds.after_token .ident (run_ident_iff.2 hx) hx fun x' hx' => ?_
  subst hx'
  refine ⟨reaches_nil_iff.2 rfl, nofun, fun d d' hd _ _ m => ?_⟩
  cases reaches_nil_iff.1 hd
  split
  · next hport => exact Adds.outcome_declare d fun _ => List.contains_iff_mem.1 hport
  · next hport =>
    have hlisted : Decl.name (.port x direction width) ∉ m.outline.ports := fun hmem =>
      hport (List.contains_iff_mem.2 hmem)
    rw [Outline.declareAll_singleton, Outline.declare, if_pos ⟨rfl, hlisted⟩]
    rfl

theorem reaches_of_bodyPort {direction : Direction}
    (h : (bodyPort direction width m).run c = .ok (m', c')) : ∃ x, c.Reaches [.ident x] c' := by
  obtain ⟨pos, c₁, hpos, hident⟩ := run_of_bind h
  obtain ⟨x, c₂, hx, hrest⟩ := run_of_bind hident
  cases hpos
  refine ⟨x, run_ident_iff.1 ?_⟩
  split at hrest
  · exact (run_of_lift hrest).2 ▸ hx
  · cases hrest

/-- The value that a wire may have with it. -/
def wireValue (x : String) (pos : Position) (m : Module) : Parser Module := do
  if ← acceptMark .equals then
    let value ← expression
    return { m with assigns := m.assigns ++ [⟨x, value, pos⟩] }
  else return m

theorem adds_bodyWire {x : String} {c₁ : Cursor} {ts : List Token}
    (hx : c.Reaches [.ident x] c₁) (hvalue : ∀ pos, Adds true (wireValue x pos) c₁ c' ts []) :
    Adds true (bodyWire width) c c' (.ident x :: ts) [.wire x width] := by
  refine Adds.after_nothing .position rfl fun pos _ =>
    Adds.after_token .ident (run_ident_iff.2 hx) hx fun x' hx' => ?_
  subst hx'
  have hdeclare : Adds true
      (fun m => (liftM (Parser.declare m ⟨x, none, width, pos⟩) : Parser Module)) c₁ c₁ []
      [.wire x width] := by
    refine ⟨reaches_nil_iff.2 rfl, nofun, fun d d' hd _ _ m => ?_⟩
    cases reaches_nil_iff.1 hd
    exact Adds.outcome_declare d nofun
  exact hdeclare.bind (hvalue pos)

theorem adds_wireValue {x : String} {pos : Position}
    (h : (wireValue x pos m).run c = .ok (m', c')) :
    ∃ ts, SignalText none (.ident x :: ts) x ∧ ∀ pos, Adds true (wireValue x pos) c c' ts [] := by
  rcases run_acceptMark_iff.1 h with ⟨hequals, hrest⟩ | ⟨hnone, hrest⟩
  · obtain ⟨value, c₁, hvalue, hdone⟩ := run_of_bind hrest
    cases run_pure_iff.1 hdone
    obtain ⟨ts, hreach, hderives⟩ := derives_of_expression hvalue
    refine ⟨.mark .equals :: ts, .value rfl hderives, fun pos =>
      Adds.after_token (.accept (by decide)) (run_accept_of_peek hequals)
        (reaches_next hequals) fun b hb => ?_⟩
    subst hb
    have hvalue' : Adds true (fun m => expression >>= fun value =>
        Pure.pure { m with assigns := m.assigns ++ [⟨x, value, pos⟩] }) c.next c' (ts ++ []) [] :=
      Adds.after .expression hvalue hreach fun value _ => .pure fun _ => rfl
    rwa [List.append_nil] at hvalue'
  · cases run_pure_iff.1 hrest
    exact ⟨[], .plain x, fun pos => .absent (by decide) hnone⟩

theorem exists_adds_bodyWire (h : (bodyWire width m).run c = .ok (m', c')) :
    ∃ ts x, SignalText none ts x ∧ Adds true (bodyWire width) c c' ts [.wire x width] := by
  obtain ⟨pos, c₁, hpos, hident⟩ := run_of_bind h
  obtain ⟨x, c₂, hx, hdeclare⟩ := run_of_bind hident
  obtain ⟨n, hn, hrest⟩ := run_of_lift_bind hdeclare
  cases hpos
  obtain ⟨ts, hts, hvalue⟩ := adds_wireValue hrest
  exact ⟨_, x, hts, adds_bodyWire (run_ident_iff.1 hx) hvalue⟩

end

/-! ## Reading items -/

section
variable {direction : Option Direction} {width : Width} {m m' : Module} {c c' : Cursor}
  {item : Module → Parser Module}

/-- A list ends where no comma is next. -/
theorem Adds.last {ts : List Token} {ds : List Decl} {fuel : Nat} (h : Adds true item c c' ts ds)
    (hnone : c'.peek? ≠ some (.mark .comma)) :
    Adds true (separated item (fuel + 1)) c c' ts ds := by
  have hboth := h.bind (.absent (q := separated item fuel) (by decide) hnone)
  rwa [List.append_nil, List.append_nil] at hboth

theorem Adds.commaList {ts : List Token} {ds : List Decl}
    (h : Adds true (separated item (c.rest.length + 1)) c c' ts ds) :
    Adds true (commaList item) c c' ts ds := by
  refine ⟨h.reaches, h.nonempty, fun d d' hd hlength hpeek m => ?_⟩
  rw [← h.run d d' hd hlength hpeek m, (h.twin hd hlength hpeek).length]
  rfl

theorem adds_separated
    (hitem : ∀ {m m' : Module} {c c' : Cursor}, (item m).run c = .ok (m', c') →
      ∃ ts x, SignalText direction ts x ∧ Adds true item c c' ts [⟨x, direction, width, .nowhere⟩])
    (fuel : Nat) (h : (separated item fuel m).run c = .ok (m', c')) :
    ∃ ts xs, SignalsText direction ts xs ∧
      Adds true (separated item fuel) c c' ts
        (xs.map fun x => ⟨x, direction, width, .nowhere⟩) := by
  induction fuel generalizing m c with
  | zero => cases h
  | succ fuel ih =>
    obtain ⟨n, c₁, hn, hrest⟩ := run_of_bind h
    obtain ⟨ts, x, hsignal, hadds⟩ := hitem hn
    rcases run_acceptMark_iff.1 hrest with ⟨hcomma, hrest⟩ | ⟨hnone, hrest⟩
    · obtain ⟨us, xs, hsignals, hadds'⟩ := ih hrest
      refine ⟨_, x :: xs, .more hsignal hsignals, hadds.bind
        (Adds.after_token (.accept (by decide)) (run_accept_of_peek hcomma)
          (reaches_next hcomma) fun b hb => ?_)⟩
      subst hb
      exact hadds'
    · cases run_pure_iff.1 hrest
      exact ⟨ts, [x], .last hsignal, hadds.last hnone⟩

theorem adds_commaList
    (hitem : ∀ {m m' : Module} {c c' : Cursor}, (item m).run c = .ok (m', c') →
      ∃ ts x, SignalText direction ts x ∧ Adds true item c c' ts [⟨x, direction, width, .nowhere⟩])
    (h : (commaList item m).run c = .ok (m', c')) :
    ∃ ts xs, SignalsText direction ts xs ∧
      Adds true (commaList item) c c' ts (xs.map fun x => ⟨x, direction, width, .nowhere⟩) := by
  obtain ⟨ts, xs, hsignals, hadds⟩ := adds_separated hitem (c.rest.length + 1) h
  exact ⟨ts, xs, hsignals, hadds.commaList⟩

theorem rangeText_of_range (h : range.run c = .ok (width, c')) :
    ∃ ts, c.Reaches ts c' ∧ RangeText ts width := by
  rcases run_acceptMark_iff.1 h with ⟨hopen, hrest⟩ | ⟨-, hrest⟩
  · obtain ⟨msb, hmsb, -, hrest⟩ := run_index_iff.1 hrest
    obtain ⟨hcolon, hrest⟩ := run_expectMark_iff.1 hrest
    obtain ⟨lsb, hlsb, -, hrest⟩ := run_index_iff.1 hrest
    dsimp only at hrest
    split at hrest
    · cases hrest
    · next hrange =>
      split at hrest
      · next w hw =>
        obtain ⟨hclose, hrest⟩ := run_expectMark_iff.1 hrest
        cases run_pure_iff.1 hrest
        have hzero : lsb = 0 := UInt64.toNat_inj.1 (not_not.1 (not_or.1 hrange).1)
        subst hzero
        exact ⟨_, .cons hopen (.cons hmsb (.cons hcolon (.cons hlsb (reaches_next hclose)))),
          .bits hw⟩
      · cases hrest
  · cases run_pure_iff.1 hrest
    exact ⟨[], reaches_nil_iff.2 rfl, .one⟩

theorem exists_of_accept {t : Token} {b : Bool} (h : (accept t).run c = .ok (b, c')) :
    c.Reaches (if b then [t] else []) c' := by
  by_cases hpeek : c.peek? = some t
  · rw [run_accept_of_peek hpeek] at h
    cases h
    exact reaches_next hpeek
  · rw [run_accept_of_ne hpeek] at h
    cases h
    exact reaches_nil_iff.2 rfl

theorem reaches_of_expect {t : Token} (h : (expect t).run c = .ok ((), c')) : c.Reaches [t] c' := by
  rw [expect] at h
  obtain ⟨b, d, hb, hrest⟩ := run_of_bind h
  cases b with
  | true =>
    cases run_pure_iff.1 hrest
    exact exists_of_accept hb
  | false => cases hrest

theorem starts_of_direction {d : Direction} (h : Parser.direction.run c = .ok (some d, c')) :
    ∃ k, c.Reaches [.keyword k] c' ∧ ∀ b : Bool,
      (.keyword k :: (if b then [.keyword .wire] else []), some d) ∈ declarationStarts := by
  rw [Parser.direction, run_peek_bind] at h
  split at h
  · next hpeek =>
    cases h
    exact ⟨.input, reaches_next hpeek, by decide⟩
  · next hpeek =>
    cases h
    exact ⟨.output, reaches_next hpeek, by decide⟩
  · cases h
  · cases h

theorem adds_portDecl (h : (portDecl m).run c = .ok (m', c')) :
    ∃ ts ds, Item ts ds ∧ Adds false portDecl c c' ts ds := by
  obtain ⟨d?, c₁, hdirection, hrest⟩ := run_of_bind h
  cases d? with
  | none => cases hrest
  | some d =>
    obtain ⟨b, c₂, hwire, hrest⟩ := run_of_bind hrest
    obtain ⟨width, c₃, hrange, hrest⟩ := run_of_bind hrest
    obtain ⟨n, c₄, hports, hrest⟩ := run_of_bind hrest
    obtain ⟨hclose, hrest⟩ := run_expectMark_iff.1 hrest
    cases run_pure_iff.1 hrest
    obtain ⟨k, hk, hstarts⟩ := starts_of_direction hdirection
    obtain ⟨rs, hrs, hrangeText⟩ := rangeText_of_range hrange
    obtain ⟨ts, xs, hsignals, hadds⟩ := adds_commaList (fun h => by
      obtain ⟨x, hx⟩ := reaches_of_bodyPort h
      exact ⟨_, x, .plain x, adds_bodyPort hx⟩) hports
    refine ⟨_, _, .declaration (hstarts b) hrangeText hsignals, ?_⟩
    rw [List.append_assoc, List.append_assoc, List.cons_append]
    refine Adds.after_token .direction hdirection hk fun d? hd => ?_
    subst hd
    refine Adds.after (.accept (by decide)) hwire (exists_of_accept hwire) fun _ _ => ?_
    refine Adds.after .range hrange hrs fun _ hwidth => ?_
    subst hwidth
    exact hadds.close hclose

theorem adds_wireDecl (h : (wireDecl m).run c = .ok (m', c')) :
    ∃ ts ds, Item ts ds ∧ Adds false wireDecl c c' ts ds := by
  obtain ⟨⟨⟩, c₁, hwire, hrest⟩ := run_of_bind h
  obtain ⟨width, c₂, hrange, hrest⟩ := run_of_bind hrest
  obtain ⟨n, c₃, hwires, hrest⟩ := run_of_bind hrest
  obtain ⟨hclose, hrest⟩ := run_expectMark_iff.1 hrest
  cases run_pure_iff.1 hrest
  obtain ⟨rs, hrs, hrangeText⟩ := rangeText_of_range hrange
  obtain ⟨ts, xs, hsignals, hadds⟩ := adds_commaList exists_adds_bodyWire hwires
  have hstart : ([.keyword .wire], none) ∈ declarationStarts := by decide
  refine ⟨_, _, .declaration hstart hrangeText hsignals, ?_⟩
  rw [List.append_assoc, List.append_assoc]
  refine Adds.after (.expect (by decide)) hwire (reaches_of_expect hwire) fun _ _ => ?_
  refine Adds.after .range hrange hrs fun _ hwidth => ?_
  subst hwidth
  exact hadds.close hclose

/-- A step that leaves outlines alone declares nothing. -/
theorem Adds.of_keep {p : Module → Parser Module} (h : (p m).run c = .ok (m', c'))
    (hp : ∀ n, Steady (Steady.Keep m n) (p m) (p n)) :
    ∃ ts, (∀ t ∈ ts, t.Inner) ∧ c.Reaches ts c' ∧ ∀ p' : Module → Parser Module,
      (∀ n, Steady (Steady.Keep m n) (p m) (p' n)) → Adds true p' c c' ts [] := by
  obtain ⟨ts, hts, hreach, -⟩ := hp m _ rfl h
  refine ⟨ts, hts, hreach, fun p' hp' => ⟨hreach, nofun, fun d d' hd hlength hpeek n => ?_⟩⟩
  obtain ⟨us, -, hreach', htwin⟩ := hp' n _ rfl h
  cases hreach.unique hreach'
  obtain ⟨n', hn', -, hkeep⟩ := htwin hd ⟨hpeek rfl, hlength⟩
  exact outcome_eq_some_iff.2 ⟨n', hn', hkeep⟩

theorem adds_assignments (h : (assignments m).run c = .ok (m', c')) :
    ∃ ts ds, Item ts ds ∧ Adds false assignments c c' ts ds := by
  obtain ⟨⟨⟩, c₁, hassign, hrest⟩ := run_of_bind h
  obtain ⟨n, c₂, hlist, hrest⟩ := run_of_bind hrest
  obtain ⟨hclose, hrest⟩ := run_expectMark_iff.1 hrest
  cases run_pure_iff.1 hrest
  have hsteady : ∀ n, Steady (Steady.Keep m n) (commaList assignment m) (commaList assignment n) :=
    fun n => .commaList (fun _ _ => .assignment) ⟨rfl, rfl⟩
  obtain ⟨ts, hts, -, hadds⟩ := Adds.of_keep hlist hsteady
  refine ⟨_, _, .assignments hts, ?_⟩
  refine Adds.after_token (.expect (by decide)) hassign
    (reaches_of_expect hassign) fun _ _ => ?_
  exact (hadds _ hsteady).close hclose

theorem adds_instances (h : (instances m).run c = .ok (m', c')) :
    ∃ ts ds, Item ts ds ∧ Adds false instances c c' ts ds := by
  obtain ⟨pos, c₁, hpos, hrest⟩ := run_of_bind h
  obtain ⟨target, c₂, htarget, hrest⟩ := run_of_bind hrest
  obtain ⟨n, c₃, hlist, hrest⟩ := run_of_bind hrest
  obtain ⟨hclose, hrest⟩ := run_expectMark_iff.1 hrest
  cases run_pure_iff.1 hrest
  cases hpos
  have hsteady : ∀ pos' n, Steady (Steady.Keep m n) (commaList (oneInstance target c.pos) m)
      (commaList (oneInstance target pos') n) :=
    fun pos' n => .commaList (fun _ _ => .oneInstance) ⟨rfl, rfl⟩
  obtain ⟨ts, hts, -, hadds⟩ := Adds.of_keep hlist (hsteady c.pos)
  refine ⟨_, _, .instances hts, Adds.after_nothing .position rfl
    fun pos' _ => Adds.after_token .ident htarget (run_ident_iff.1 htarget)
      fun _ ht => ?_⟩
  subst ht
  exact (hadds _ (hsteady pos')).close hclose

/-- An item of a body is read by one of four parsers, whatever the module is. -/
theorem adds_item {n : Nat} {r : Module × Cursor} (h : (body (n + 1) m).run c = .ok r)
    (hend : c.peek? ≠ some (.keyword .endmodule)) :
    ∃ p ts ds c₁, Item ts ds ∧ Adds false p c c₁ ts ds ∧
      ∀ d : Cursor, c.peek? = d.peek? → ∀ m : Module,
        (body (n + 1) m).run d = (p m >>= body n).run d := by
  have hfirst : ∀ {p : Module → Parser Module},
      (∀ {m'} {c'}, (p m).run c = .ok (m', c') → ∃ ts ds, Item ts ds ∧ Adds false p c c' ts ds) →
      (∀ d : Cursor, c.peek? = d.peek? → ∀ m : Module,
        (body (n + 1) m).run d = (p m >>= body n).run d) →
      ∃ p ts ds c₁, Item ts ds ∧ Adds false p c c₁ ts ds ∧
        ∀ d : Cursor, c.peek? = d.peek? → ∀ m : Module,
          (body (n + 1) m).run d = (p m >>= body n).run d := by
    intro p hp hbody
    rw [hbody c rfl m] at h
    obtain ⟨m', c', hrun, -⟩ := run_of_bind h
    obtain ⟨ts, ds, hitem, hadds⟩ := hp hrun
    exact ⟨p, ts, ds, c', hitem, hadds, hbody⟩
  have hdirected : ∀ k ∈ [Keyword.input, .output, .inout], c.peek? = some (.keyword k) →
      ∀ d : Cursor, c.peek? = d.peek? → ∀ m : Module,
        (body (n + 1) m).run d = (portDecl m >>= body n).run d := by
    intro k hk hpeek d hd m
    rw [body, run_peek_bind, ← hd, hpeek]
    simp only [List.mem_cons, List.not_mem_nil, or_false] at hk
    rcases hk with rfl | rfl | rfl <;> rfl
  have hrun := h
  rw [body, run_peek_bind] at hrun
  split at hrun
  · cases hrun
  · next hpeek => exact absurd hpeek hend
  · next hpeek => exact hfirst adds_portDecl (hdirected .input (by decide) hpeek)
  · next hpeek => exact hfirst adds_portDecl (hdirected .output (by decide) hpeek)
  · next hpeek => exact hfirst adds_portDecl (hdirected .inout (by decide) hpeek)
  · next hpeek =>
    refine hfirst adds_wireDecl fun d hd m => ?_
    rw [body, run_peek_bind, ← hd, hpeek]
  · next hpeek =>
    refine hfirst adds_assignments fun d hd m => ?_
    rw [body, run_peek_bind, ← hd, hpeek]
  · next target hpeek =>
    refine hfirst adds_instances fun d hd m => ?_
    rw [body, run_peek_bind, ← hd, hpeek]
  · cases hrun

/-- A step that does not look behind what it reads reads it anywhere. -/
theorem Adds.looking {p : Module → Parser Module} {ts : List Token} {ds : List Decl}
    (h : Adds false p c c' ts ds) : Adds true p c c' ts ds :=
  ⟨h.reaches, nofun, fun _ _ hd hlength _ => h.anywhere hd hlength⟩

theorem Adds.ok {p : Module → Parser Module} {ts : List Token} {ds : List Decl} {looks : Bool}
    {c₁ : Cursor} (h : Adds looks p c c' ts ds) (hrun : (p m).run c = .ok (m', c₁)) :
    m.outline.declareAll ds = some m'.outline ∧ c₁ = c' := by
  have hself := h.self m
  rw [hrun] at hself
  obtain ⟨o, ho, heq⟩ := Option.map_eq_some_iff.1 hself.symm
  cases heq
  exact ⟨ho, rfl⟩

/-- A body is items and the last word of the module. -/
theorem adds_body {n : Nat} (h : (body n m).run c = .ok (m', c')) :
    ∃ ts ds, Items ts ds ∧ Adds false (body n) c c' (ts ++ [.keyword .endmodule]) ds := by
  induction n generalizing m c with
  | zero => cases h
  | succ n ih =>
    by_cases hend : c.peek? = some (.keyword .endmodule)
    · have hbody : ∀ d : Cursor, d.peek? = some (.keyword .endmodule) → ∀ m : Module,
          (body (n + 1) m).run d = .ok (m, d.next) := fun d hd m => by
        rw [body, run_peek_bind, hd]
        rfl
      rw [hbody c hend m] at h
      cases h
      refine ⟨[], [], .nil, reaches_next hend, fun _ => List.cons_ne_nil _ _,
        fun d d' hd _ _ m => ?_⟩
      obtain ⟨hpeek, rfl⟩ := reaches_singleton_iff.1 hd
      rw [hbody d hpeek m]
      rfl
    · obtain ⟨p, ts, ds, c₁, hitem, hadds, hbody⟩ := adds_item h hend
      rw [hbody c rfl m] at h
      obtain ⟨m₁, c₂, hm₁, hrest⟩ := run_of_bind h
      obtain ⟨-, rfl⟩ := hadds.ok hm₁
      obtain ⟨us, es, hitems, hadds'⟩ := ih hrest
      have hboth := hadds.looking.bind hadds'
      rw [← List.append_assoc] at hboth
      refine ⟨ts ++ us, ds ++ es, .cons hitem hitems, hboth.reaches, hboth.nonempty,
        fun d d' hd hlength hpeek m => ?_⟩
      rw [hbody d (hboth.twin hd hlength hpeek).peek m]
      exact hboth.run d d' hd hlength hpeek m

end

/-! ## Passing items -/

/-- From one cursor to the other, the loop over items does nothing but declare the signals. -/
structure Passes (n n' : Nat) (d d' : Cursor) (ds : List Decl) : Prop where
  takes : ∀ {m : Module} {o : Outline}, m.outline.declareAll ds = some o →
    ∃ m', m'.outline = o ∧ (body n m).run d = (body n' m').run d'
  fails : ∀ {m : Module}, m.outline.declareAll ds = none → ∀ r, (body n m).run d ≠ .ok r

namespace Passes

variable {n n₁ n' : Nat} {c c₁ c' d d₁ d' : Cursor} {ts : List Token} {ds es : List Decl}
  {m : Module}

theorem refl : Passes n n d d [] :=
  ⟨fun h => ⟨_, Option.some.inj h, rfl⟩, nofun⟩

theorem trans (h : Passes n n₁ d d₁ ds) (h' : Passes n₁ n' d₁ d' es) :
    Passes n n' d d' (ds ++ es) := by
  refine ⟨fun {m} {o} ho => ?_, fun {m} ho r => ?_⟩
  · obtain ⟨o₁, hds, hes⟩ := Outline.declareAll_append_eq_some.1 ho
    obtain ⟨m₁, rfl, hrun⟩ := h.takes hds
    obtain ⟨m', hm', hrun'⟩ := h'.takes hes
    exact ⟨m', hm', hrun.trans hrun'⟩
  · rw [Outline.declareAll_append] at ho
    cases hds : m.outline.declareAll ds with
    | none => exact h.fails hds r
    | some o₁ =>
      rw [hds] at ho
      obtain ⟨m₁, rfl, hrun⟩ := h.takes hds
      rw [hrun]
      exact h'.fails ho r

/-- A run that succeeds behind the signals has taken them. -/
theorem ok {r : Module × Cursor} (hpasses : Passes n n' d d' ds) (h : (body n m).run d = .ok r) :
    ∃ m', m.outline.declareAll ds = some m'.outline ∧ (body n' m').run d' = .ok r := by
  cases hds : m.outline.declareAll ds with
  | none => exact absurd h (hpasses.fails hds r)
  | some o =>
    obtain ⟨m', rfl, hrun⟩ := hpasses.takes hds
    exact ⟨m', rfl, hrun ▸ h⟩

/-- What goes before an item may lead to where the item is read. -/
theorem of_adds {p : Module → Parser Module} (h : Adds false p c c' ts ds)
    (hd : d₁.Reaches ts d') (hlength : c'.rest.length = d'.rest.length)
    (hbody : ∀ m : Module, (body (n + 1) m).run d = (p m >>= body n).run d₁) :
    Passes (n + 1) n d d' ds := by
  refine ⟨fun {m} {o} ho => ?_, fun {m} ho r hr => ?_⟩
  · have hrun := h.anywhere hd hlength m
    rw [ho] at hrun
    obtain ⟨m', hm', rfl⟩ := outcome_eq_some_iff.1 hrun
    refine ⟨m', rfl, ?_⟩
    rw [hbody m, StateT.run_bind, hm']
    rfl
  · have hrun := h.anywhere hd hlength m
    rw [hbody m] at hr
    obtain ⟨m', e, hm', -⟩ := run_of_bind hr
    rw [ho, hm'] at hrun
    cases hrun

end Passes

/-- The loop over the items of a module that parses has passed items wherever one ends. -/
theorem passes_items {n : Nat} {m : Module} {c c' : Cursor} {ts : List Token}
    {r : Module × Cursor} (h : (body n m).run c = .ok r) (hts : c.Reaches ts c')
    (hwhole : WholeItems ts) :
    ∃ n' ds, Items ts ds ∧ ∀ d d' : Cursor, d.Reaches ts d' → c'.rest.length = d'.rest.length →
      Passes n n' d d' ds := by
  induction n generalizing m c ts with
  | zero => cases h
  | succ n ih =>
    obtain ⟨hclosed, hend⟩ := hwhole
    cases ts with
    | nil =>
      refine ⟨n + 1, [], .nil, fun d d' hd _ => ?_⟩
      cases reaches_nil_iff.1 hd
      exact .refl
    | cons t ts =>
      have hnotEnd : c.peek? ≠ some (.keyword .endmodule) := by
        rw [(reaches_cons_iff.1 hts).1]
        rintro ⟨⟩
        exact hend (.head _)
      obtain ⟨p, us, ds, c₁, hitem, hadds, hbody⟩ := adds_item h hnotEnd
      obtain ⟨vs, rfl, hinner⟩ := hitem.inner
      obtain ⟨ws, hws⟩ := hclosed.resolve_left (List.cons_ne_nil t ts)
      rw [hws] at hts hend
      have hvs : Token.mark .semicolon ∉ vs := fun hmem => (hinner _ hmem).1 rfl
      obtain ⟨rest, hrest, hreach, hclosed'⟩ := hadds.reaches.split hvs hts
      have hend' : Token.keyword .endmodule ∉ rest := fun hmem =>
        hend (hrest ▸ List.mem_append_right _ hmem)
      rw [hbody c rfl m] at h
      obtain ⟨m₁, c₂, hm₁, hrun⟩ := run_of_bind h
      obtain ⟨-, rfl⟩ := hadds.ok hm₁
      obtain ⟨n', es, hitems, hpasses⟩ := ih hrun hreach ⟨hclosed', hend'⟩
      rw [hws, hrest]
      refine ⟨n', ds ++ es, .cons hitem hitems, fun d d' hd hlength => ?_⟩
      obtain ⟨d₁, hd₁, hd'⟩ := reaches_append_iff.1 hd
      have hlength₁ : c₂.rest.length = d₁.rest.length := by
        rw [hreach.length, hd'.length, hlength]
      have hfirst := Passes.of_adds hadds hd₁ hlength₁
        (hbody d (hadds.twin hd₁ hlength₁ (absurd · Bool.false_ne_true)).peek)
      exact hfirst.trans (hpasses d₁ d' hd' hlength)

end Parser

end GateSynth.Verilog
