import GateSynth.Proofs.Verilog.LineIndex
import GateSynth.Proofs.Verilog.ModuleTexts

/-!
# A wire and a port of one name

Two declarations of one signal each, somewhere in the body of a module, are exchanged. The rest of
the source is read as before, so what the exchange changes is what the outline of the module says of
it (`parse_exchanged`).

For a wire and a port of one name, both orders that parse give the same outlines of modules, and in
them the name has the direction and the width of the port. But the orders are not taken alike
(`parse_redeclared`): a port joins a wire of any width, a wire joins a port of its width or as one
bit only; and a wire that has been declared before is forgotten when the port takes its place.
-/

namespace GateSynth.Verilog

/-- The first word of a declaration. -/
def declarationWord : Option Direction → Keyword
  | none => .wire
  | some .input => .input
  | some .output => .output

/-- The text of a range. -/
def rangeText (msb : Word) : List Token :=
  [.mark .leftBracket, .number msb, .mark .colon, .number 0, .mark .rightBracket]

/-- The text of a declaration of a signal with a range. -/
def declarationText (direction : Option Direction) (msb : Word) (x : String) : List Token :=
  .keyword (declarationWord direction) :: (rangeText msb ++ [.ident x, .mark .semicolon])

/-- A source around two declarations in the body of a module. -/
structure BodyFrame where
  /-- The tokens in front of the module. -/
  front : List Token
  /-- The header behind the first word of the module, up to its semicolon. -/
  head : List Token
  /-- The items in front of both declarations. -/
  before : List Token
  /-- The items between them. -/
  between : List Token
  /-- What is left of the source. -/
  after : List Token
  /-- The semicolon is the first one. -/
  head_open : .mark .semicolon ∉ head
  /-- The first declaration is an item. -/
  before_whole : WholeItems before
  /-- So is the second one. -/
  between_whole : WholeItems between

namespace BodyFrame

variable (s : BodyFrame)

/-- The source from the body on. -/
def body (first second : List Token) : List Token :=
  s.before ++ (first ++ (s.between ++ (second ++ s.after)))

/-- The source from the module on. -/
def module (first second : List Token) : List Token :=
  .keyword .module :: (s.head ++ .mark .semicolon :: s.body first second)

/-- The source. -/
def source (first second : List Token) : List Token := s.front ++ s.module first second

/-- The place of the module among those of the source. -/
def place : Nat := s.front.count (.keyword .module)

/-- The items around two signals declare further ones, and lead from the outline of the header
through one behind the signals to the outline of the module. -/
structure Declares (d e : Decl) (ds es : List Decl) (opened passed closed : Outline) : Prop where
  directed : opened.Directed
  before : Items s.before ds
  between : Items s.between es
  passes : opened.declareAll (ds ++ d :: (es ++ [e])) = some passed
  after : ∃ fs, passed.declareAll fs = some closed

end BodyFrame

theorem Width.bits_of_ofNat? {bits : Nat} {w : Width} (h : Width.ofNat? bits = some w) :
    w.bits = bits := by
  rw [Width.ofNat?] at h
  split at h
  · cases h
    rfl
  · cases h

/-- Widths of ranges are equal just if the ranges are. -/
theorem Width.ofNat?_inj {a b : Word} {v w : Width} (hv : Width.ofNat? (a.toNat + 1) = some v)
    (hw : Width.ofNat? (b.toNat + 1) = some w) : v = w ↔ a = b := by
  rw [Width.ext_iff, Width.bits_of_ofNat? hv, Width.bits_of_ofNat? hw, Nat.add_right_cancel_iff,
    UInt64.toNat_inj]

namespace Parser

open Cursor

variable {n : Nat} {m m' : Module} {c c' d d' : Cursor} {direction : Option Direction}
  {a b msb : Word} {x y : String} {w : Width}

/-! ## Reading a declaration -/

theorem run_range_iff {r : Width × Cursor} (h : c.Reaches (rangeText msb) c') :
    range.run c = .ok r ↔ ∃ w, Width.ofNat? (msb.toNat + 1) = some w ∧ r = (w, c') := by
  obtain ⟨hopen, h⟩ := reaches_cons_iff.1 h
  obtain ⟨hmsb, h⟩ := reaches_cons_iff.1 h
  obtain ⟨hcolon, h⟩ := reaches_cons_iff.1 h
  obtain ⟨hlsb, h⟩ := reaches_cons_iff.1 h
  obtain ⟨hclose, rfl⟩ := reaches_singleton_iff.1 h
  constructor
  · intro hrun
    rcases run_acceptMark_iff.1 hrun with ⟨-, hrun⟩ | ⟨hne, -⟩
    · obtain ⟨value, hvalue, -, hrun⟩ := run_index_iff.1 hrun
      cases hmsb.symm.trans hvalue
      obtain ⟨-, hrun⟩ := run_expectMark_iff.1 hrun
      obtain ⟨value, hvalue, -, hrun⟩ := run_index_iff.1 hrun
      cases hlsb.symm.trans hvalue
      dsimp only at hrun
      split at hrun
      · cases hrun
      · split at hrun
        · next w hw =>
          obtain ⟨-, hrun⟩ := run_expectMark_iff.1 hrun
          exact ⟨w, hw, (run_pure_iff.1 hrun).symm⟩
        · cases hrun
    · exact absurd hopen hne
  · rintro ⟨w, hw, rfl⟩
    have hle : msb.toNat + 1 ≤ 64 := (Width.ofNat?_isSome_iff.1 (by rw [hw]; rfl)).2
    have hlt : msb.toNat < UInt32.size := by
      simp only [UInt32.size]
      omega
    refine run_acceptMark_iff.2 (.inl ⟨hopen, run_index_iff.2 ⟨msb, hmsb, hlt,
      run_expectMark_iff.2 ⟨hcolon, run_index_iff.2 ⟨0, hlsb, by decide, ?_⟩⟩⟩⟩)
    dsimp only
    rw [if_neg (by simp), hw]
    exact run_expectMark_iff.2 ⟨hclose, rfl⟩

/-- The step for one signal of a declaration. -/
def declared (direction : Option Direction) (w : Width) : Module → Parser Module :=
  match direction with
  | none => bodyWire w
  | some direction => bodyPort direction w

theorem run_body_declaration (h : c.Reaches (declarationText direction msb x) c') :
    (body (n + 1) m).run c = (do
      let w ← range
      let m ← commaList (declared direction w) m
      expectMark .semicolon
      body n m : Parser Module).run c.next := by
  obtain ⟨hword, hrest⟩ := reaches_cons_iff.1 h
  have hopen : c.next.peek? ≠ some (.keyword .wire) := by
    rw [(reaches_cons_iff.1 hrest).1]
    nofun
  cases direction with
  | none =>
    have hbody : (body (n + 1) m).run c = (wireDecl m >>= body n).run c := by
      rw [body, run_peek_bind, hword]
      rfl
    have hwire : (expect (.keyword .wire)).run c = .ok ((), c.next) := run_expect_of_peek hword
    rw [hbody, wireDecl, bind_assoc, StateT.run_bind, hwire]
    simp only [bind_assoc, pure_bind]
    rfl
  | some direction =>
    have hdirection : Parser.direction.run c = .ok (some direction, c.next) := by
      rw [Parser.direction, run_peek_bind, hword]
      cases direction <;> rfl
    have hbody : (body (n + 1) m).run c = (portDecl m >>= body n).run c := by
      rw [body, run_peek_bind, hword]
      cases direction <;> rfl
    rw [hbody, portDecl, bind_assoc, StateT.run_bind, hdirection]
    change ((accept (.keyword .wire) >>= _) >>= body n).run c.next = _
    rw [bind_assoc, StateT.run_bind, run_accept_of_ne hopen]
    simp only [bind_assoc, pure_bind]
    rfl

theorem adds_declared (hx : c.Reaches [.ident x] c') (hnext : c'.peek? = some (.mark .semicolon)) :
    Adds true (declared direction w) c c' [.ident x] [⟨x, direction, w, .nowhere⟩] := by
  cases direction with
  | none =>
    refine adds_bodyWire hx fun pos => .absent (by decide) ?_
    rw [hnext]
    nofun
  | some direction => exact adds_bodyPort hx

/-- A declaration is passed wherever it stands, if its width is in range. -/
theorem passes_declaration (h : c.Reaches (declarationText direction msb x) c')
    (hw : Width.ofNat? (msb.toNat + 1) = some w) :
    Passes (n + 1) n c c' [⟨x, direction, w, .nowhere⟩] := by
  obtain ⟨-, hrest⟩ := reaches_cons_iff.1 h
  obtain ⟨c₁, hrange, hsignal⟩ := reaches_append_iff.1 hrest
  obtain ⟨hx, hclose⟩ := reaches_cons_iff.1 hsignal
  obtain ⟨hsemicolon, rfl⟩ := reaches_singleton_iff.1 hclose
  have hlist : Adds true (commaList (declared direction w)) c₁ c₁.next [.ident x]
      [⟨x, direction, w, .nowhere⟩] :=
    .commaList (.last (adds_declared (reaches_next hx) hsemicolon) (by rw [hsemicolon]; nofun))
  refine Passes.of_adds (hlist.close hsemicolon) hsignal rfl fun m => ?_
  rw [run_body_declaration h, StateT.run_bind, (run_range_iff hrange).2 ⟨w, hw, rfl⟩]
  simp only [bind_assoc, pure_bind]
  rfl

theorem exists_width_of_body {r : Module × Cursor} (h : (body (n + 1) m).run c = .ok r)
    (hc : c.Reaches (declarationText direction msb x) c') :
    ∃ w, Width.ofNat? (msb.toNat + 1) = some w := by
  rw [run_body_declaration hc] at h
  obtain ⟨w, d, hrun, -⟩ := run_of_bind h
  obtain ⟨-, hrest⟩ := reaches_cons_iff.1 hc
  obtain ⟨c₁, hrange, -⟩ := reaches_append_iff.1 hrest
  obtain ⟨w, hw, -⟩ := (run_range_iff hrange).1 hrun
  exact ⟨w, hw⟩

/-! ## Exchanging two declarations -/

section
variable {direction direction' : Option Direction} {s : BodyFrame}

/-- A body that passes two declarations passes them exchanged, with the same items around them. -/
theorem passes_exchanged {r : Module × Cursor} (h : (body n m).run c = .ok r)
    (hc : c.tokens = s.body (declarationText direction a x) (declarationText direction' b y))
    (hd : d.tokens = s.body (declarationText direction' b y) (declarationText direction a x)) :
    ∃ n' c' d' v w ds es, Width.ofNat? (a.toNat + 1) = some v ∧
      Width.ofNat? (b.toNat + 1) = some w ∧ Items s.before ds ∧ Items s.between es ∧
      c'.tokens = s.after ∧ d'.tokens = s.after ∧
      Passes n n' c c' (ds ++ ⟨x, direction, v, .nowhere⟩ ::
        (es ++ [⟨y, direction', w, .nowhere⟩])) ∧
      Passes n n' d d' (ds ++ ⟨y, direction', w, .nowhere⟩ ::
        (es ++ [⟨x, direction, v, .nowhere⟩])) := by
  -- the cursors of both sources behind the parts of the body
  obtain ⟨c₁, hc₁, hctokens₁⟩ := exists_reaches hc
  obtain ⟨c₂, hc₂, hctokens₂⟩ := exists_reaches hctokens₁
  obtain ⟨c₃, hc₃, hctokens₃⟩ := exists_reaches hctokens₂
  obtain ⟨c₄, hc₄, hctokens₄⟩ := exists_reaches hctokens₃
  obtain ⟨d₁, hd₁, hdtokens₁⟩ := exists_reaches hd
  obtain ⟨d₂, hd₂, hdtokens₂⟩ := exists_reaches hdtokens₁
  obtain ⟨d₃, hd₃, hdtokens₃⟩ := exists_reaches hdtokens₂
  obtain ⟨d₄, hd₄, hdtokens₄⟩ := exists_reaches hdtokens₃
  -- in front of the declarations and behind the items between as many tokens are left in both
  have hlength₁ : c₁.rest.length = d₁.rest.length :=
    rest_length_of_tokens (by simp [hctokens₁, hdtokens₁, declarationText, rangeText])
  have hlength₃ : c₃.rest.length = d₃.rest.length :=
    rest_length_of_tokens (by simp [hctokens₃, hdtokens₃, declarationText, rangeText])
  obtain ⟨n₁, ds, hds, hbefore⟩ := passes_items h hc₁ s.before_whole
  obtain ⟨m₁, -, h₁⟩ := (hbefore c c₁ hc₁ rfl).ok h
  obtain _ | n₂ := n₁
  · cases h₁
  obtain ⟨v, hv⟩ := exists_width_of_body h₁ hc₂
  obtain ⟨m₂, -, h₂⟩ := (passes_declaration hc₂ hv).ok h₁
  obtain ⟨n₃, es, hes, hbetween⟩ := passes_items h₂ hc₃ s.between_whole
  obtain ⟨m₃, -, h₃⟩ := (hbetween c₂ c₃ hc₃ rfl).ok h₂
  obtain _ | n₄ := n₃
  · cases h₃
  obtain ⟨w, hw⟩ := exists_width_of_body h₃ hc₄
  refine ⟨n₄, c₄, d₄, v, w, ds, es, hv, hw, hds, hes, hctokens₄, hdtokens₄, ?_, ?_⟩
  · exact (hbefore c c₁ hc₁ rfl).trans ((passes_declaration hc₂ hv).trans
      ((hbetween c₂ c₃ hc₃ rfl).trans (passes_declaration hc₄ hw)))
  · exact (hbefore d d₁ hd₁ hlength₁).trans ((passes_declaration hd₂ hw).trans
      ((hbetween d₂ d₃ hd₃ hlength₃).trans (passes_declaration hd₄ hv)))

/-- A header has one end. -/
theorem header_unique {hs head ts us : List Token} (hinner : ∀ t ∈ hs, t.Inner)
    (hhead : .mark .semicolon ∉ head)
    (h : hs ++ .mark .semicolon :: ts = head ++ .mark .semicolon :: us) : hs = head ∧ ts = us := by
  obtain ⟨vs, rfl, heq⟩ := append_of_not_mem (fun hmem => (hinner _ hmem).1 rfl) h
  cases vs with
  | nil => exact ⟨by simp, (List.cons.inj heq).2⟩
  | cons t vs =>
    obtain ⟨rfl, -⟩ := List.cons.inj heq
    exact absurd (List.mem_append_right _ (.head _)) hhead

/-- What becomes of a module when two declarations in its body are exchanged. -/
theorem module_exchanged (h : module.run c = .ok (m, c'))
    (hc : c.tokens = s.module (declarationText direction a x) (declarationText direction' b y))
    (hd : d.tokens = s.module (declarationText direction' b y) (declarationText direction a x)) :
    ∃ v w ds es opened passed, Width.ofNat? (a.toNat + 1) = some v ∧
      Width.ofNat? (b.toNat + 1) = some w ∧
      s.Declares ⟨x, direction, v, .nowhere⟩ ⟨y, direction', w, .nowhere⟩ ds es opened passed
        m.outline ∧
      (opened.declareAll (ds ++ ⟨y, direction', w, .nowhere⟩ ::
        (es ++ [⟨x, direction, v, .nowhere⟩])) = some passed →
          ∃ n d', module.run d = .ok (n, d') ∧ n.outline = m.outline ∧ c'.tokens = d'.tokens) ∧
      (opened.declareAll (ds ++ ⟨y, direction', w, .nowhere⟩ ::
        (es ++ [⟨x, direction, v, .nowhere⟩])) = none → ∀ r, module.run d ≠ .ok r) := by
  obtain ⟨hs, m₁, c₁, hinner, hreach, hdirected, hbody, hcomplete, hagain⟩ := module_opens h
  have hsplit : hs ++ .mark .semicolon :: c₁.tokens = s.head ++ .mark .semicolon ::
      s.body (declarationText direction a x) (declarationText direction' b y) := by
    have heq := hreach.tokens.symm.trans hc
    simpa [BodyFrame.module] using heq
  obtain ⟨heq, hctokens⟩ := header_unique hinner s.head_open hsplit
  have hd₀ : d.tokens = .keyword .module :: (hs ++ [.mark .semicolon]) ++
      s.body (declarationText direction' b y) (declarationText direction a x) := by
    rw [hd, heq]
    simp [BodyFrame.module]
  obtain ⟨d₁, hreach', hdtokens⟩ := exists_reaches hd₀
  have hlength : c₁.rest.length = d₁.rest.length :=
    rest_length_of_tokens
      (by simp [hctokens, hdtokens, BodyFrame.body, declarationText, rangeText])
  obtain ⟨n₁, hn₁, hrun⟩ := hagain d d₁ hreach' hlength
  rw [← hlength] at hrun
  obtain ⟨k, c₂, d₂, v, w, ds, es, hv, hw, hds, hes, hc₂, hd₂, hpasses, hpasses'⟩ :=
    passes_exchanged hbody hctokens hdtokens
  obtain ⟨m₂, hm₂, hrest⟩ := hpasses.ok hbody
  obtain ⟨ts, fs, -, hadds⟩ := adds_body hrest
  have hfs := (hadds.ok hrest).1
  refine ⟨v, w, ds, es, m₁.outline, m₂.outline, hv, hw, ⟨hdirected, hds, hes, hm₂, fs, hfs⟩,
    fun hsome => ?_, fun hnone r hr => ?_⟩
  · obtain ⟨d', hd', htokens⟩ := exists_reaches (hd₂.trans (hc₂.symm.trans hadds.reaches.tokens))
    rw [← hn₁] at hsome
    obtain ⟨n₂, hn₂, hagain'⟩ := hpasses'.takes hsome
    have hlength' : c'.rest.length = d'.rest.length :=
      rest_length_of_tokens (congrArg List.length htokens.symm)
    have hmoved := hadds.anywhere hd' hlength' n₂
    rw [hn₂, hfs] at hmoved
    obtain ⟨n, hn, houtline⟩ := outcome_eq_some_iff.1 hmoved
    exact ⟨n, d', (hrun n d').2 ⟨hagain'.trans hn, houtline ▸ hcomplete⟩, houtline, htokens.symm⟩
  · rw [← hn₁] at hnone
    exact hpasses'.fails hnone r ((hrun r.1 r.2).1 hr).1

end

end Parser

/-! ## A wire and a port of one name -/

/-- The files have the same outlines of modules. -/
def SourceFile.Alike (file file' : SourceFile) : Prop :=
  file.modules.map Module.outline = file'.modules.map Module.outline

/-- The module in a place has a port of a name, a direction and a number of bits. -/
def SourceFile.HasPort (file : SourceFile) (place : Nat) (x : String) (direction : Direction)
    (bits : Nat) : Prop :=
  ∃ m d, file.modules[place]? = some m ∧ m.decl? x = some d ∧ d.direction = some direction ∧
    d.width.bits = bits

section
variable {s : BodyFrame} {x y : String} {a b : Word} {direction direction' : Option Direction}
  {first second : String} {file : SourceFile}

/-- What becomes of a source when two declarations in the body of a module are exchanged. -/
theorem parse_exchanged (h : parse first = .ok file)
    (hfirst : HasTokens first
      (s.source (declarationText direction a x) (declarationText direction' b y)))
    (hsecond : HasTokens second
      (s.source (declarationText direction' b y) (declarationText direction a x))) :
    ∃ v w ds es opened passed closed, Width.ofNat? (a.toNat + 1) = some v ∧
      Width.ofNat? (b.toNat + 1) = some w ∧
      s.Declares ⟨x, direction, v, .nowhere⟩ ⟨y, direction', w, .nowhere⟩ ds es opened passed
        closed ∧
      (file.modules.map Module.outline)[s.place]? = some closed ∧
      (opened.declareAll (ds ++ ⟨y, direction', w, .nowhere⟩ ::
        (es ++ [⟨x, direction, v, .nowhere⟩])) = some passed →
          ∃ file', parse second = .ok file' ∧ file.Alike file') ∧
      (opened.declareAll (ds ++ ⟨y, direction', w, .nowhere⟩ ::
        (es ++ [⟨x, direction, v, .nowhere⟩])) = none → ∀ file', parse second ≠ .ok file') := by
  obtain ⟨c, d, m, c', hc, hd, hm, hplace, hforth, hfails⟩ :=
    parse_upto hfirst hsecond (by simp [BodyFrame.body, declarationText, rangeText]) h
  obtain ⟨v, w, ds, es, opened, passed, hv, hw, hdeclares, hsome, hnone⟩ :=
    Parser.module_exchanged hm hc hd
  refine ⟨v, w, ds, es, opened, passed, m.outline, hv, hw, hdeclares, hplace, fun heq => ?_,
    fun heq => hfails (hnone heq)⟩
  obtain ⟨n, d', hn, houtline, htokens⟩ := hsome heq
  obtain ⟨file', hfile', halike⟩ := hforth n d' hn houtline htokens
  exact ⟨file', hfile', halike.symm⟩

theorem SourceFile.hasPort_of_outline {place : Nat} {direction : Direction} {w : Width}
    {o : Outline} (hplace : (file.modules.map Module.outline)[place]? = some o)
    (hx : o.decl? x = some (.port x direction w)) : file.HasPort place x direction w.bits := by
  rw [List.getElem?_map] at hplace
  obtain ⟨m, hm, rfl⟩ := Option.map_eq_some_iff.1 hplace
  obtain ⟨d, hd, heq⟩ := Option.map_eq_some_iff.1 hx
  exact ⟨m, d, hm, hd, congrArg Decl.direction heq, congrArg (fun d : Decl => d.width.bits) heq⟩

/-- A port that the declarations have left is there in the end. -/
theorem BodyFrame.Declares.port {d e : Decl} {ds es : List Decl} {opened passed closed : Outline}
    {direction : Direction} {w : Width} (h : s.Declares d e ds es opened passed closed)
    (hx : passed.decl? x = some (.port x direction w)) :
    closed.decl? x = some (.port x direction w) := by
  obtain ⟨fs, hfs⟩ := h.after
  exact (Outline.declareAll_port hfs hx rfl).1

theorem joins_iff {v w : Width} (hv : Width.ofNat? (a.toNat + 1) = some v)
    (hw : Width.ofNat? (b.toNat + 1) = some w) : v = w ∨ v = Width.one ↔ a = b ∨ a = 0 :=
  or_congr (Width.ofNat?_inj hv hw) (Width.ofNat?_inj hv rfl)

variable {direction : Direction} {wireFirst portFirst : String}

/-- Where the wire may come first, the port may just if the wire has its width or one bit. -/
theorem parse_of_wire_first
    (hwire : HasTokens wireFirst
      (s.source (declarationText none a x) (declarationText (some direction) b x)))
    (hport : HasTokens portFirst
      (s.source (declarationText (some direction) b x) (declarationText none a x)))
    (h : parse wireFirst = .ok file) :
    file.HasPort s.place x direction (b.toNat + 1) ∧
      (a = b ∨ a = 0 → ∃ file', parse portFirst = .ok file' ∧ file.Alike file') ∧
      (¬ (a = b ∨ a = 0) → ∀ file', parse portFirst ≠ .ok file') := by
  obtain ⟨v, w, ds, es, opened, passed, closed, hv, hw, hdeclares, hplace, hsome, hnone⟩ :=
    parse_exchanged h hwire hport
  obtain ⟨-, hx, hexchanged⟩ := Outline.declareAll_of_wire_first hdeclares.passes
  have hjoins := joins_iff hv hw
  refine ⟨Width.bits_of_ofNat? hw ▸ SourceFile.hasPort_of_outline hplace (hdeclares.port hx),
    fun hab => hsome ?_, fun hab => hnone ?_⟩
  · exact hexchanged.trans (if_pos (hjoins.2 hab))
  · exact hexchanged.trans (if_neg (mt hjoins.1 hab))

/-- Where the port may come first, the wire has its width or one bit; then the wire may come first
just if the items around declare no further wire of the name. -/
theorem parse_of_port_first
    (hport : HasTokens portFirst
      (s.source (declarationText (some direction) b x) (declarationText none a x)))
    (hwire : HasTokens wireFirst
      (s.source (declarationText none a x) (declarationText (some direction) b x)))
    (h : parse portFirst = .ok file) :
    file.HasPort s.place x direction (b.toNat + 1) ∧ (a = b ∨ a = 0) ∧
      ∃ ds, Items (s.before ++ s.between) ds ∧
        ((∀ d ∈ ds, d.name = x → d.direction.isSome = true) →
          ∃ file', parse wireFirst = .ok file' ∧ file.Alike file') ∧
        (¬ (∀ d ∈ ds, d.name = x → d.direction.isSome = true) →
          ∀ file', parse wireFirst ≠ .ok file') := by
  obtain ⟨w, v, ds, es, opened, passed, closed, hw, hv, hdeclares, hplace, hsome, hnone⟩ :=
    parse_exchanged h hport hwire
  obtain ⟨hwidth, hx, hexchanged⟩ :=
    Outline.declareAll_of_port_first hdeclares.directed hdeclares.passes
  refine ⟨Width.bits_of_ofNat? hw ▸ SourceFile.hasPort_of_outline hplace (hdeclares.port hx),
    (joins_iff hv hw).1 hwidth, ds ++ es, hdeclares.before.append hdeclares.between,
    fun hsingle => hsome (hexchanged hsingle), fun hmore => hnone ?_⟩
  refine Option.eq_none_iff_forall_ne_some.2 fun o ho => hmore fun d hd hname => ?_
  exact absurd hname ((Outline.declareAll_of_wire_first ho).1 d hd)

/-- Exchanging a wire and a port of one name: both orders that parse give the name the direction and
the width of the port, and the modules the same outlines. If the source parses with the wire first,
then it parses with the port first just if the wire has the width of the port or one bit. If it
parses with the port first, then the wire has such a width, and the source parses with the wire
first just if the items around declare no further wire of the name. -/
theorem parse_redeclared
    (hwire : HasTokens wireFirst
      (s.source (declarationText none a x) (declarationText (some direction) b x)))
    (hport : HasTokens portFirst
      (s.source (declarationText (some direction) b x) (declarationText none a x))) :
    (∀ file, parse wireFirst = .ok file → file.HasPort s.place x direction (b.toNat + 1) ∧
      ((∃ file', parse portFirst = .ok file') ↔ a = b ∨ a = 0)) ∧
    (∀ file, parse portFirst = .ok file → file.HasPort s.place x direction (b.toNat + 1) ∧
      (a = b ∨ a = 0) ∧ ∃ ds, Items (s.before ++ s.between) ds ∧
        ((∃ file', parse wireFirst = .ok file') ↔
          ∀ d ∈ ds, d.name = x → d.direction.isSome = true)) ∧
    ∀ file file', parse wireFirst = .ok file → parse portFirst = .ok file' →
      file.Alike file' := by
  refine ⟨fun file h => ?_, fun file h => ?_, fun file file' h h' => ?_⟩
  · obtain ⟨hx, hforth, hfails⟩ := parse_of_wire_first hwire hport h
    refine ⟨hx, fun ⟨file', hfile'⟩ => ?_, fun hab => ?_⟩
    · by_contra hab
      exact hfails hab file' hfile'
    · obtain ⟨file', hfile', -⟩ := hforth hab
      exact ⟨file', hfile'⟩
  · obtain ⟨hx, hwidth, ds, hds, hforth, hfails⟩ := parse_of_port_first hport hwire h
    refine ⟨hx, hwidth, ds, hds, fun ⟨file', hfile'⟩ => ?_, fun hsingle => ?_⟩
    · by_contra hsingle
      exact hfails hsingle file' hfile'
    · obtain ⟨file', hfile', -⟩ := hforth hsingle
      exact ⟨file', hfile'⟩
  · obtain ⟨-, hforth, hfails⟩ := parse_of_wire_first hwire hport h
    by_cases hab : a = b ∨ a = 0
    · obtain ⟨file₁, hfile₁, halike⟩ := hforth hab
      cases hfile₁.symm.trans h'
      exact halike
    · exact absurd h' (hfails hab file')

end

namespace Redeclared

/-- A module behind another one, with a port in front of two declarations and an assignment between
them. -/
def frame : BodyFrame where
  front := [.keyword .module, .ident "k", .mark .semicolon, .keyword .endmodule]
  head := [.ident "m", .mark .leftParen, .ident "x", .mark .comma, .ident "y", .mark .rightParen]
  before := [.keyword .output, .ident "y", .mark .semicolon]
  between := [.keyword .assign, .ident "y", .mark .equals, .ident "x", .mark .semicolon]
  after := [.keyword .endmodule]
  head_open := by decide
  before_whole := ⟨.inr ⟨[.keyword .output, .ident "y"], rfl⟩, by decide⟩
  between_whole :=
    ⟨.inr ⟨[.keyword .assign, .ident "y", .mark .equals, .ident "x"], rfl⟩, by decide⟩

/-- The source with the wire first. -/
def wireFirst : String :=
  "module k; endmodule module m(x, y); output y; wire [1:0] x; assign y = x; input [1:0] x; " ++
    "endmodule"

/-- The source with the port first. -/
def portFirst : String :=
  "module k; endmodule module m(x, y); output y; input [1:0] x; assign y = x; wire [1:0] x; " ++
    "endmodule"

end Redeclared

open Redeclared in
/-- Equal widths with an assignment between the declarations. -/
theorem parse_redeclared_equal :
    HasTokens wireFirst
        (frame.source (declarationText none 1 "x") (declarationText (some .input) 1 "x")) ∧
      HasTokens portFirst
        (frame.source (declarationText (some .input) 1 "x") (declarationText none 1 "x")) ∧
      ∃ file file', parse wireFirst = .ok file ∧ parse portFirst = .ok file' ∧ file.Alike file' ∧
        file.HasPort 1 "x" .input 2 ∧ file'.HasPort 1 "x" .input 2 := by
  have hwire : HasTokens wireFirst
      (frame.source (declarationText none 1 "x") (declarationText (some .input) 1 "x")) := by
    unfold wireFirst
    rw [HasTokens, ← String.ofList_append, tokenize_ofList]
    decide
  have hport : HasTokens portFirst
      (frame.source (declarationText (some .input) 1 "x") (declarationText none 1 "x")) := by
    unfold portFirst
    rw [HasTokens, ← String.ofList_append, tokenize_ofList]
    decide
  have hok : (parse wireFirst).isOk = true := by
    unfold wireFirst
    rw [parse, ← String.ofList_append, tokenize_ofList]
    decide +kernel
  obtain ⟨file, hfile⟩ := exists_ok_of_isOk hok
  obtain ⟨hforth, hback, halike⟩ := parse_redeclared hwire hport
  obtain ⟨hx, hparses⟩ := hforth file hfile
  obtain ⟨file', hfile'⟩ := hparses.2 (.inl rfl)
  exact ⟨hwire, hport, file, file', hfile, hfile', halike file file' hfile hfile', hx,
    (hback file' hfile').1⟩

/-- A wire may be wider than the port of its name if it comes first, and not if it comes second. -/
theorem parse_wire_wider :
    (parse "module m(x); wire [3:0] x; input [1:0] x; endmodule").toOption.map
        (fun file => (file.modules.head?.bind (Module.decl? · "x")).map
          fun d => (d.direction, d.width.bits)) = some (some (some .input, 2)) ∧
      parse "module m(x); input [1:0] x; wire [3:0] x; endmodule" =
        .error (.duplicateDeclaration "m" "x" 1) := by
  constructor
  · rw [parse, tokenize_ofList]
    decide
  · rw [parse, tokenize_ofList]
    decide

end GateSynth.Verilog
