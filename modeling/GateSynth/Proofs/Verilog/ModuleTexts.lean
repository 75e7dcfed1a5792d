import GateSynth.Proofs.Verilog.BodyItems

/-!
# The texts of modules

The text of a module is its first word, a header up to the first semicolon, and a body. The parser
makes the same outline of the same text wherever the text stands (`module_again`), and of a header
the same outline whatever the body is (`module_opens`). So two runs over sources that are the same
but for one module come to that module alike, and go on behind it alike (`modules_upto`).
-/

namespace GateSynth.Verilog

/-- Every port has a direction. -/
def Outline.Complete (o : Outline) : Prop :=
  ∀ p ∈ o.ports, ((o.decl? p).bind Decl.direction).isSome = true

namespace Parser

open Cursor

variable {m m' : Module} {c c' : Cursor}

/-! ## Headers -/

/-- The name and the header of a module at a position, behind its first word. -/
def opening (pos : Position) : Parser (String × Module) := do
  let name ← ident
  if ← acceptMark .leftParen then
    let m ← header ⟨name, [], [], [], [], pos⟩
    return (name, m)
  else return (name, ⟨name, [], [], [], [], pos⟩)

theorem module_eq : module = (do
    let pos ← position
    expect (.keyword .module)
    let (name, m) ← opening pos
    moduleRest name pos m) := by
  rw [module]
  refine bind_congr fun pos => bind_congr fun _ => ?_
  rw [opening, bind_assoc]
  refine bind_congr fun name => ?_
  rw [bind_assoc]
  refine bind_congr fun b => ?_
  cases b <;> simp

/-- What a header makes of an empty module. -/
structure SameOpening (s s' : String × Module) : Prop where
  outline : s.2.outline = s'.2.outline
  directed : s.2.outline.Directed

theorem Steady.opening (pos pos' : Position) :
    Steady SameOpening (opening pos) (opening pos') := by
  refine ident.bind fun name _ h => (accept (by decide)).bind fun b _ hb => ?_
  subst h hb
  have hsame : (⟨name, [], [], [], [], pos⟩ : Module).outline =
      (⟨name, [], [], [], [], pos'⟩ : Module).outline := rfl
  have hempty : (⟨name, [], [], [], [], pos⟩ : Module).outline.Directed := fun _ _ => nofun
  split
  · exact (header hsame hempty).bind fun m m' h => .pure ⟨h.1, h.2⟩
  · exact .pure ⟨hsame, hempty⟩

theorem run_expect_bind_iff {α : Type} {t : Token} {f : Unit → Parser α} {r : α × Cursor} :
    (expect t >>= f).run c = .ok r ↔ c.peek? = some t ∧ (f ()).run c.next = .ok r := by
  rw [run_bind_iff]
  constructor
  · rintro ⟨⟨⟩, d, hexpect, hrest⟩
    obtain ⟨hpeek, rfl⟩ := reaches_singleton_iff.1 (reaches_of_expect hexpect)
    exact ⟨hpeek, hrest⟩
  · rintro ⟨hpeek, hrest⟩
    exact ⟨(), c.next, run_expect_of_peek hpeek, hrest⟩

theorem find?_eq_none_iff_complete :
    (m.ports.find? fun p => ((m.decl? p).bind Decl.direction).isNone) = none ↔
      m.outline.Complete := by
  rw [List.find?_eq_none]
  refine forall₂_congr fun p _ => ?_
  have hdirection : (m.outline.decl? p).bind Decl.direction = (m.decl? p).bind Decl.direction :=
    Option.bind_map
  rw [hdirection, Bool.not_eq_true, Option.isNone_eq_false_iff]

theorem run_moduleRest_iff {name : String} {pos : Position} :
    (moduleRest name pos m).run c = .ok (m', c') ↔ c.peek? = some (.mark .semicolon) ∧
      (body (c.next.rest.length + 1) m).run c.next = .ok (m', c') ∧ m'.outline.Complete := by
  rw [moduleRest, run_expectMark_iff]
  refine and_congr_right fun _ => ?_
  have hget : ∀ d : Cursor, ∀ f : Cursor → Parser Module, (get >>= f).run d = (f d).run d :=
    fun _ _ => rfl
  rw [hget, run_bind_iff]
  constructor
  · rintro ⟨n, d, hbody, hrest⟩
    split at hrest
    · cases hrest
    · next hnone =>
      cases run_pure_iff.1 hrest
      exact ⟨hbody, find?_eq_none_iff_complete.1 hnone⟩
  · rintro ⟨hbody, hcomplete⟩
    refine ⟨m', c', hbody, ?_⟩
    rw [find?_eq_none_iff_complete.2 hcomplete]
    rfl

theorem run_module_iff : module.run c = .ok (m, c') ↔ c.peek? = some (.keyword .module) ∧
    ∃ s d, (opening c.pos).run c.next = .ok (s, d) ∧
      (moduleRest s.1 c.pos s.2).run d = .ok (m, c') := by
  have hposition : ∀ f : Position → Parser Module, (position >>= f).run c = (f c.pos).run c :=
    fun _ => rfl
  rw [module_eq, hposition, run_expect_bind_iff, run_bind_iff]

/-- Up to its first semicolon, a module is the same step wherever it stands. -/
theorem module_opens (h : module.run c = .ok (m, c')) :
    ∃ hs m₁ c₁, (∀ t ∈ hs, t.Inner) ∧
      c.Reaches (.keyword .module :: (hs ++ [.mark .semicolon])) c₁ ∧ m₁.outline.Directed ∧
      (body (c₁.rest.length + 1) m₁).run c₁ = .ok (m, c') ∧ m.outline.Complete ∧
      ∀ d d₁ : Cursor, d.Reaches (.keyword .module :: (hs ++ [.mark .semicolon])) d₁ →
        c₁.rest.length = d₁.rest.length → ∃ n₁ : Module, n₁.outline = m₁.outline ∧
          ∀ n e, module.run d = .ok (n, e) ↔
            (body (d₁.rest.length + 1) n₁).run d₁ = .ok (n, e) ∧ n.outline.Complete := by
  obtain ⟨hpeek, ⟨name, m₁⟩, c₀, hopening, hrest⟩ := run_module_iff.1 h
  obtain ⟨hsemicolon, hbody, hcomplete⟩ := run_moduleRest_iff.1 hrest
  obtain ⟨hs, hinner, hreach, hself⟩ := Steady.opening c.pos c.pos _ rfl hopening
  obtain ⟨_, hagain, hsame⟩ := hself hreach ⟨rfl, rfl⟩
  refine ⟨hs, m₁, c₀.next, hinner, .cons hpeek (hreach.trans (reaches_next hsemicolon)),
    hsame.directed, hbody, hcomplete, fun d d₁ hd hlength => ?_⟩
  obtain ⟨hpeek', hd⟩ := reaches_cons_iff.1 hd
  obtain ⟨d₀, hd₀, hd₁⟩ := reaches_append_iff.1 hd
  obtain ⟨hsemicolon', rfl⟩ := reaches_singleton_iff.1 hd₁
  obtain ⟨us, -, hreach', hmoved⟩ := Steady.opening c.pos d.pos _ rfl hopening
  cases hreach.unique hreach'
  have htwin : c₀.Twin d₀ := by
    refine ⟨hsemicolon.trans hsemicolon'.symm, ?_⟩
    rw [(reaches_next hsemicolon).length, (reaches_next hsemicolon').length, hlength]
  obtain ⟨⟨name', n₁⟩, hn₁, houtline⟩ := hmoved hd₀ htwin
  refine ⟨n₁, houtline.outline.symm, fun n e => ?_⟩
  rw [run_module_iff]
  constructor
  · rintro ⟨-, s, e₀, hs, hrest⟩
    cases hn₁.symm.trans hs
    exact (run_moduleRest_iff.1 hrest).2
  · rintro ⟨hbody, hcomplete⟩
    exact ⟨hpeek', _, _, hn₁, run_moduleRest_iff.2 ⟨hsemicolon', hbody, hcomplete⟩⟩

/-! ## Modules -/

/-- The text of a module gives the same outline wherever it stands. -/
theorem module_again (h : module.run c = .ok (m, c')) :
    ∃ us, .keyword .module ∉ us ∧ c.Reaches (.keyword .module :: us) c' ∧
      ∀ d d' : Cursor, d.Reaches (.keyword .module :: us) d' → c'.rest.length = d'.rest.length →
        ∃ n : Module, module.run d = .ok (n, d') ∧ n.outline = m.outline := by
  obtain ⟨hs, m₁, c₁, hinner, hreach, -, hbody, hcomplete, hagain⟩ := module_opens h
  obtain ⟨ts, ds, hitems, hadds⟩ := adds_body hbody
  refine ⟨hs ++ [.mark .semicolon] ++ (ts ++ [.keyword .endmodule]), ?_,
    by simpa using hreach.trans hadds.reaches, fun d d' hd hlength => ?_⟩
  · simp only [List.mem_append, List.mem_singleton, not_or]
    exact ⟨⟨fun hmem => (hinner _ hmem).2.1 rfl, nofun⟩, hitems.not_module, nofun⟩
  · rw [← List.cons_append] at hd
    obtain ⟨d₁, hd₁, hd'⟩ := reaches_append_iff.1 hd
    have hlength₁ : c₁.rest.length = d₁.rest.length := by
      rw [hadds.reaches.length, hd'.length, hlength]
    obtain ⟨n₁, houtline, hrun⟩ := hagain d d₁ hd₁ hlength₁
    have hmoved := hadds.anywhere hd' hlength n₁
    rw [houtline, (hadds.ok hbody).1, hlength₁] at hmoved
    obtain ⟨n, hn, heq⟩ := outcome_eq_some_iff.1 hmoved
    exact ⟨n, (hrun n d').2 ⟨hn, heq ▸ hcomplete⟩, heq⟩

theorem run_modules_succ_iff {count : Nat} {before : List Module} {t : Token}
    {r : List Module × Cursor} (ht : c.peek? = some t) :
    (modules (count + 1) before).run c = .ok r ↔
      ∃ m d, module.run c = .ok (m, d) ∧ m.name ∉ before.map Module.name ∧
        (modules count (before ++ [m])).run d = .ok r := by
  rw [modules, run_peek_bind, ht]
  dsimp only
  rw [run_bind_iff]
  refine exists_congr fun m => exists_congr fun d => and_congr_right fun _ => ?_
  have hany : (before.any fun other => other.name = m.name) = true ↔
      m.name ∈ before.map Module.name := by
    simp
  split
  · next hdup => exact ⟨nofun, fun h => absurd (hany.1 hdup) h.1⟩
  · next hfresh => exact (and_iff_right fun hmem => hfresh (hany.2 hmem)).symm

/-- The modules so far stay in front. -/
theorem modules_prefix {count : Nat} {before ms : List Module}
    (h : (modules count before).run c = .ok (ms, c')) : before <+: ms := by
  induction count generalizing before c with
  | zero =>
    cases run_pure_iff.1 h
    exact List.prefix_rfl
  | succ count ih =>
    cases hpeek : c.peek? with
    | none =>
      rw [modules, run_peek_bind, hpeek] at h
      cases run_pure_iff.1 h
      exact List.prefix_rfl
    | some t =>
      obtain ⟨m, d, -, -, hrest⟩ := (run_modules_succ_iff hpeek).1 h
      exact (List.prefix_append _ _).trans (ih hrest)

theorem map_name_of_outline {ms ns : List Module}
    (h : ms.map Module.outline = ns.map Module.outline) :
    ms.map Module.name = ns.map Module.name := by
  have hname := congrArg (List.map Outline.name) h
  rwa [List.map_map, List.map_map] at hname

section
variable {count : Nat} {before before' ms : List Module} {d : Cursor} {front us vs : List Token}

theorem map_outline_append {n : Module} (h : before.map Module.outline = before'.map Module.outline)
    (hn : n.outline = m.outline) :
    (before ++ [m]).map Module.outline = (before' ++ [n]).map Module.outline := by
  rw [List.map_append, List.map_append, h, List.map_singleton, List.map_singleton, hn]

theorem fresh_of_outline {n : Module} (h : before.map Module.outline = before'.map Module.outline)
    (hn : n.outline = m.outline) (hfresh : m.name ∉ before.map Module.name) :
    n.name ∉ before'.map Module.name := by
  rwa [← map_name_of_outline h, show n.name = m.name from congrArg Outline.name hn]

/-- The same tokens give the same outlines. -/
theorem modules_again (h : (modules count before).run c = .ok (ms, c'))
    (htokens : c.tokens = d.tokens)
    (hbefore : before.map Module.outline = before'.map Module.outline) :
    ∃ ns e, (modules count before').run d = .ok (ns, e) ∧
      ns.map Module.outline = ms.map Module.outline := by
  induction count generalizing before before' c d with
  | zero =>
    cases run_pure_iff.1 h
    exact ⟨before', d, rfl, hbefore.symm⟩
  | succ count ih =>
    have hnext : c.peek? = d.peek? := by rw [peek?_eq, peek?_eq, htokens]
    cases hpeek : c.peek? with
    | none =>
      rw [modules, run_peek_bind, hpeek] at h
      cases run_pure_iff.1 h
      refine ⟨before', d, ?_, hbefore.symm⟩
      rw [modules, run_peek_bind, ← hnext, hpeek]
      rfl
    | some t =>
      obtain ⟨m, c₁, hm, hfresh, hrest⟩ := (run_modules_succ_iff hpeek).1 h
      obtain ⟨us, -, hreach, hagain⟩ := module_again hm
      obtain ⟨d₁, hd, htokens'⟩ := exists_reaches (htokens.symm.trans hreach.tokens)
      have hlength : c₁.rest.length = d₁.rest.length :=
        rest_length_of_tokens (congrArg List.length htokens'.symm)
      obtain ⟨n, hn, houtline⟩ := hagain d d₁ hd hlength
      obtain ⟨ns, e, hns, heq⟩ := ih hrest htokens'.symm (map_outline_append hbefore houtline)
      have hfresh' := fresh_of_outline hbefore houtline hfresh
      exact ⟨ns, e, (run_modules_succ_iff (hnext ▸ hpeek)).2 ⟨n, d₁, hn, hfresh', hns⟩, heq⟩

/-- The text of a module ends in front of the next first word of one. -/
theorem append_of_not_mem {t : Token} {ws rest front us : List Token} (hws : t ∉ ws)
    (h : ws ++ rest = front ++ t :: us) : ∃ vs, front = ws ++ vs ∧ rest = vs ++ t :: us := by
  rcases List.append_eq_append_iff.1 h with ⟨vs, hfront, hrest⟩ | ⟨vs, rfl, hus⟩
  · exact ⟨vs, hfront, hrest⟩
  · cases vs with
    | nil => exact ⟨[], by simp, by simpa using hus.symm⟩
    | cons s vs =>
      obtain ⟨rfl, -⟩ := List.cons.inj hus
      exact absurd (List.mem_append_right _ (.head _)) hws

/-- A run that succeeds comes to every first word of a module, and so does a run over tokens that
are the same up to it. -/
theorem modules_upto (h : (modules count before).run c = .ok (ms, c'))
    (hcount : c.tokens.length ≤ count) (hc : c.tokens = front ++ .keyword .module :: us)
    (hd : d.tokens = front ++ .keyword .module :: vs) (hlength : us.length = vs.length)
    (hbefore : before.map Module.outline = before'.map Module.outline) :
    ∃ count₁ before₁ before₁' c₁ d₁, c₁.tokens = .keyword .module :: us ∧
      d₁.tokens = .keyword .module :: vs ∧ c₁.tokens.length ≤ count₁ ∧
      before₁.map Module.outline = before₁'.map Module.outline ∧
      before₁.length = before.length + front.count (.keyword .module) ∧
      (modules count₁ before₁).run c₁ = .ok (ms, c') ∧
      ∀ r, (modules count before').run d = .ok r ↔ (modules count₁ before₁').run d₁ = .ok r := by
  induction count generalizing before before' front c d with
  | zero => simp [hc] at hcount
  | succ count ih =>
    cases front with
    | nil =>
      exact ⟨count + 1, before, before', c, d, hc, hd, hcount, hbefore, rfl, h, fun _ => .rfl⟩
    | cons first front =>
      have ht : c.peek? = some first := by rw [peek?_eq, hc]; rfl
      have ht' : d.peek? = some first := by rw [peek?_eq, hd]; rfl
      obtain ⟨m, c₁, hm, hfresh, hrest⟩ := (run_modules_succ_iff ht).1 h
      obtain ⟨ws, hws, hreach, hagain⟩ := module_again hm
      obtain ⟨rfl, heq⟩ := List.cons.inj (hreach.tokens.symm.trans hc)
      obtain ⟨rest, rfl, hc₁⟩ := append_of_not_mem hws heq
      have hd' : d.tokens = .keyword .module :: ws ++ (rest ++ .keyword .module :: vs) := by
        simpa using hd
      obtain ⟨d₁, hreach', hd₁⟩ := exists_reaches hd'
      have hsame : c₁.rest.length = d₁.rest.length :=
        rest_length_of_tokens (by simp [hc₁, hd₁, hlength])
      obtain ⟨n, hn, houtline⟩ := hagain d d₁ hreach' hsame
      have hcount' : c₁.tokens.length ≤ count := by
        rw [hreach.tokens] at hcount
        simp only [List.length_append, List.length_cons] at hcount
        omega
      obtain ⟨count₂, before₂, before₂', c₂, d₂, hc₂, hd₂, hcount₂, hbefore₂, hplace, hrun₂,
          hrun₂'⟩ :=
        ih hrest hcount' hc₁ hd₁ (map_outline_append hbefore houtline)
      refine ⟨count₂, before₂, before₂', c₂, d₂, hc₂, hd₂, hcount₂, hbefore₂, ?_, hrun₂,
        fun r => Iff.trans ?_ (hrun₂' r)⟩
      · rw [hplace, List.count_cons_self, List.count_append, List.count_eq_zero_of_not_mem hws,
          List.length_append, List.length_singleton]
        omega
      · rw [run_modules_succ_iff ht']
        constructor
        · rintro ⟨n', d', hn', -, hr⟩
          cases hn.symm.trans hn'
          exact hr
        · exact fun hr => ⟨n, d₁, hn, fresh_of_outline hbefore houtline hfresh, hr⟩

/-- Behind modules with one outline, runs go on alike; without the second one there is none. -/
theorem modules_at {t : Token} (h : (modules count before).run c = .ok (ms, c'))
    (hcount : c.tokens.length ≤ count) (hc : c.tokens = t :: us) (hd : d.tokens = t :: vs)
    (hbefore : before.map Module.outline = before'.map Module.outline) :
    ∃ m c₁, module.run c = .ok (m, c₁) ∧
      (ms.map Module.outline)[before.length]? = some m.outline ∧
      (∀ n d₁, module.run d = .ok (n, d₁) → n.outline = m.outline → c₁.tokens = d₁.tokens →
        ∃ ns e, (modules count before').run d = .ok (ns, e) ∧
          ns.map Module.outline = ms.map Module.outline) ∧
      ((∀ r, module.run d ≠ .ok r) → ∀ r, (modules count before').run d ≠ .ok r) := by
  cases count with
  | zero => simp [hc] at hcount
  | succ count =>
    have hnext : c.peek? = some t := by rw [peek?_eq, hc]; rfl
    have hnext' : d.peek? = some t := by rw [peek?_eq, hd]; rfl
    obtain ⟨m, c₁, hm, hfresh, hrest⟩ := (run_modules_succ_iff hnext).1 h
    refine ⟨m, c₁, hm, ?_, fun n d₁ hn houtline htokens => ?_, fun hfails r hr => ?_⟩
    · obtain ⟨after, rfl⟩ := modules_prefix hrest
      simp
    · obtain ⟨ns, e, hns, heq⟩ := modules_again hrest htokens (map_outline_append hbefore houtline)
      have hfresh' := fresh_of_outline hbefore houtline hfresh
      exact ⟨ns, e, (run_modules_succ_iff hnext').2 ⟨n, d₁, hn, hfresh', hns⟩, heq⟩
    · obtain ⟨n, d₁, hn, -⟩ := (run_modules_succ_iff hnext').1 hr
      exact hfails _ hn

end

end Parser

/-! ## Sources -/

/-- The tokens of a source text, without their places. -/
def HasTokens (source : String) (ts : List Token) : Prop :=
  (tokenize source).toOption.map (List.map Spanned.token) = some ts

theorem parse_eq_ok_iff {source : String} {ts : List Token} (h : HasTokens source ts) :
    ∃ c : Cursor, c.tokens = ts ∧ ∀ ms, parse source = .ok ⟨ms⟩ ↔
      ∃ c', (Parser.modules ts.length []).run c = .ok (ms, c') := by
  obtain ⟨spanned, hspanned, rfl⟩ := Option.map_eq_some_iff.1 h
  refine ⟨⟨spanned, (spanned.getLast?.map Spanned.pos).getD .nowhere⟩, rfl, fun ms => ?_⟩
  rw [parse, ok_of_toOption hspanned, List.length_map]
  change (_ >>= fun r : List Module × Cursor => Except.ok (SourceFile.mk r.1)) = _ ↔ _
  refine bind_eq_ok.trans ⟨?_, ?_⟩
  · rintro ⟨⟨ms, c'⟩, hrun, ⟨⟩⟩
    exact ⟨c', hrun⟩
  · rintro ⟨c', hrun⟩
    exact ⟨(ms, c'), hrun, rfl⟩

/-- Sources that are the same up to the first word of a module parse alike, if this module has the
same outline in both and the same text is behind it; if it is none in the second source, then that
source does not parse. -/
theorem parse_upto {first second : String} {front us vs : List Token} {file : SourceFile}
    (hfirst : HasTokens first (front ++ .keyword .module :: us))
    (hsecond : HasTokens second (front ++ .keyword .module :: vs)) (hlength : us.length = vs.length)
    (h : parse first = .ok file) :
    ∃ c d : Cursor, ∃ m c', c.tokens = .keyword .module :: us ∧ d.tokens = .keyword .module :: vs ∧
      Parser.module.run c = .ok (m, c') ∧
      (file.modules.map Module.outline)[front.count (.keyword .module)]? = some m.outline ∧
      (∀ n d', Parser.module.run d = .ok (n, d') → n.outline = m.outline → c'.tokens = d'.tokens →
        ∃ file', parse second = .ok file' ∧
          file'.modules.map Module.outline = file.modules.map Module.outline) ∧
      ((∀ r, Parser.module.run d ≠ .ok r) → ∀ file', parse second ≠ .ok file') := by
  obtain ⟨c, hc, hparse⟩ := parse_eq_ok_iff hfirst
  obtain ⟨d, hd, hparse'⟩ := parse_eq_ok_iff hsecond
  obtain ⟨c', hrun⟩ := (hparse file.modules).1 h
  obtain ⟨count, before, before', c₁, d₁, hc₁, hd₁, hcount, hbefore, hplace, hrun₁, hrun₁'⟩ :=
    Parser.modules_upto hrun (by rw [hc]) hc hd hlength rfl
  obtain ⟨m, c₂, hm, hplace', hforth, hfails⟩ := Parser.modules_at hrun₁ hcount hc₁ hd₁ hbefore
  have hcounts : (front ++ .keyword .module :: us).length =
      (front ++ .keyword .module :: vs).length := by
    simp [hlength]
  rw [hcounts] at hrun₁'
  rw [hplace, List.length_nil, Nat.zero_add] at hplace'
  refine ⟨c₁, d₁, m, c₂, hc₁, hd₁, hm, hplace', fun n d' hn houtline htokens => ?_,
    fun hno file' hfile' => ?_⟩
  · obtain ⟨ns, e, hns, heq⟩ := hforth n d' hn houtline htokens
    exact ⟨⟨ns⟩, (hparse' ns).2 ⟨e, (hrun₁' _).2 hns⟩, heq⟩
  · obtain ⟨e, hrun'⟩ := (hparse' file'.modules).1 hfile'
    exact hfails hno _ ((hrun₁' _).1 hrun')

end GateSynth.Verilog
