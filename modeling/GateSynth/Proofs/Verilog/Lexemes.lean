import GateSynth.Proofs.Verilog.Parsing
import Mathlib.Data.List.Infix
import Mathlib.Data.List.TakeWhile
import Mathlib.Data.Nat.Digits.Defs

/-!
# Rules for lexemes

The rules of the language, as they are written down: blanks and comments (`Skipped`), and the shapes
of tokens (`Shape`) with what they stand for (`Denotes`). A `Cut` says how far each rule goes in
front of a text. The lexer makes exactly these cuts (`cut_of_front`, `front_of_cut`). No rule covers
more than the one that cuts (`Cut.length_le`), what follows a cut does not matter for it
(`Cut.alone`), and the token of a cut is the one that its characters denote (`Cut.denotes`).
-/

namespace GateSynth.Verilog

/-- A spelling of a mark. Exclusive nor has two. -/
def Mark.Spelled (m : Mark) (cs : List Char) : Prop :=
  cs = m.text.toList ∨ (m = .xnor ∧ cs = ['^', '~'])

namespace Lexeme

/-! ## The rules -/

/-- Blanks, and comments from their first character to their last one. -/
inductive Skipped : List Char → Prop
  | blanks {cs : List Char} (nonempty : cs ≠ []) (blank : ∀ c ∈ cs, isBlank c = true) : Skipped cs
  | line {body : List Char} (line : '\n' ∉ body) : Skipped ('/' :: '/' :: body)
  /-- The comment ends where it is first closed. -/
  | block {body : List Char} (first : ¬ ['*', '/'] <:+: body ++ ['*']) :
    Skipped ('/' :: '*' :: (body ++ ['*', '/']))

/-- The characters of a word: a reserved word or an identifier. -/
structure IsWord (cs : List Char) : Prop where
  nonempty : cs ≠ []
  starts : ∀ c ∈ cs.head?, startsIdent c = true
  continues : ∀ c ∈ cs, continuesIdent c = true

/-- The characters of a number without a size. -/
structure IsNumber (cs : List Char) : Prop where
  nonempty : cs ≠ []
  starts : ∀ c ∈ cs.head?, isDigit c = true
  continues : ∀ c ∈ cs, continuesNumber c = true

/-- The base letters with their radices. -/
def bases : List (Char × Nat) :=
  [('b', 2), ('B', 2), ('o', 8), ('O', 8), ('d', 10), ('D', 10), ('h', 16), ('H', 16)]

/-- The parts of a literal with a size. The digits need not be digits of the radix. -/
structure IsSized (size : List Char) (base : Char) (radix : Nat) (digits : List Char) : Prop where
  size_nonempty : size ≠ []
  size : ∀ c ∈ size, isDigit c = true
  base : (base, radix) ∈ bases
  nonempty : digits ≠ []
  digits : ∀ c ∈ digits, isSizedDigit c = true

/-- The shapes of tokens. -/
inductive Shape : List Char → Prop
  | word {cs : List Char} (word : IsWord cs) : Shape cs
  | number {cs : List Char} (number : IsNumber cs) : Shape cs
  | sized {size digits : List Char} {base : Char} {radix : Nat}
    (sized : IsSized size base radix digits) : Shape (size ++ '\x27' :: base :: digits)
  | mark {m : Mark} {cs : List Char} (spelled : m.Spelled cs) : Shape cs

/-- The digits, without underscores, write the number in the radix. -/
def WritesNat (radix : Nat) (digits : List Char) (value : Nat) : Prop :=
  ∃ ds : List Nat, ds ≠ [] ∧
    List.Forall₂ (fun c d => d < radix ∧ c.toLower = Nat.digitChar d)
      (digits.filter (· ≠ '_')) ds ∧
    value = Nat.ofDigits radix ds.reverse

/-- What a token stands for. -/
inductive Denotes : List Char → Token → Prop
  | keyword (word : Keyword) : Denotes word.text.toList (.keyword word)
  | ident {name : String} (word : IsWord name.toList) (free : ∀ k : Keyword, k.text ≠ name) :
    Denotes name.toList (.ident name)
  | number {digits : List Char} {value : Word} (number : IsNumber digits)
    (writes : WritesNat 10 digits value.toNat) : Denotes digits (.number value)
  | sized {size digits : List Char} {base : Char} {radix width : Nat} {value : Word}
    (sized : IsSized size base radix digits) (writes_size : WritesNat 10 size width)
    (writes : WritesNat radix digits value.toNat) :
    Denotes (size ++ '\x27' :: base :: digits) (.sized width value)
  | mark {m : Mark} {cs : List Char} (spelled : m.Spelled cs) : Denotes cs (.mark m)

/-- A text that some rule covers. -/
def Covered (cs : List Char) : Prop := Skipped cs ∨ Shape cs

/-- The longest text in front of another one that some rule covers. -/
structure Longest (lexeme text : List Char) : Prop where
  covered : Covered lexeme
  front : lexeme <+: text
  longest : ∀ cs, cs <+: text → Covered cs → cs.length ≤ lexeme.length

/-! ## Numerals -/

theorem digitChar_of_digit? {radix : Nat} (hradix : radix ≤ 16) {c : Char} {d : Nat}
    (h : Numeral.digit? radix c = some d) : d < radix ∧ c.toLower = Nat.digitChar d := by
  have hall : ∀ d < 16, (d < 10 → (Char.ofNat (48 + d)).toLower = Nat.digitChar d) ∧
      (10 ≤ d → (Char.ofNat (87 + d)).toLower = Nat.digitChar d ∧
        (Char.ofNat (55 + d)).toLower = Nat.digitChar d) := by decide
  have hle : ∀ a b : Char, a ≤ b ↔ a.toNat ≤ b.toNat := fun _ _ => Iff.rfl
  have hchar : ∀ n, n = c.toNat → c = Char.ofNat n := fun n hn => by
    rw [hn, Char.ofNat_toNat]
  simp only [Numeral.digit?, hle, Option.ite_none_right_eq_some, Option.some.injEq,
    show '0'.toNat = 48 from rfl, show '9'.toNat = 57 from rfl, show 'a'.toNat = 97 from rfl,
    show 'z'.toNat = 122 from rfl, show 'A'.toNat = 65 from rfl,
    show 'Z'.toNat = 90 from rfl] at h
  obtain ⟨hlt, rfl⟩ := h
  refine ⟨hlt, ?_⟩
  have hcase := hall _ (Nat.lt_of_lt_of_le hlt hradix)
  split at hlt
  · next hdigit =>
    rw [if_pos hdigit] at hcase ⊢
    rw [← hcase.1 (by omega)]
    exact congrArg Char.toLower (hchar _ (by omega))
  split at hlt
  · next hdigit hlower =>
    rw [if_neg hdigit, if_pos hlower] at hcase ⊢
    rw [← (hcase.2 (by omega)).1]
    exact congrArg Char.toLower (hchar _ (by omega))
  split at hlt
  · next hdigit hlower hupper =>
    rw [if_neg hdigit, if_neg hlower, if_pos hupper] at hcase ⊢
    rw [← (hcase.2 (by omega)).2]
    exact congrArg Char.toLower (hchar _ (by omega))
  · exact (Nat.lt_irrefl _ hlt).elim

/-- Reading on from a value puts the digits behind those of the value. -/
theorem digits_of_continue? {radix : Nat} (hradix : radix ≤ 16) {cs : List Char}
    {before value : Nat} (h : Numeral.continue? radix before cs = some value) :
    ∃ ds : List Nat,
      List.Forall₂ (fun c d => d < radix ∧ c.toLower = Nat.digitChar d) cs ds ∧
      value = before * radix ^ ds.length + Nat.ofDigits radix ds.reverse := by
  induction cs generalizing before with
  | nil =>
    cases h
    exact ⟨[], .nil, by simp⟩
  | cons c rest ih =>
    rw [Numeral.continue?] at h
    split at h
    · next d hd =>
      obtain ⟨ds, hds, rfl⟩ := ih h
      refine ⟨d :: ds, .cons (digitChar_of_digit? hradix hd) hds, ?_⟩
      rw [List.reverse_cons, Nat.ofDigits_append, Nat.ofDigits_singleton, List.length_reverse,
        List.length_cons]
      ring
    · cases h

theorem writesNat_of_digitsBelow? {bound radix : Nat} (hradix : radix ≤ 16) {digits : List Char}
    {value : Nat} (h : digitsBelow? bound radix digits = some value) :
    value < bound ∧ WritesNat radix digits value := by
  rw [digitsBelow?] at h
  split at h
  · next value' hvalue' =>
    obtain ⟨hlt, hvalue⟩ := Option.ite_none_right_eq_some.1 h
    cases hvalue
    refine ⟨hlt, ?_⟩
    cases hcs : digits.filter (· ≠ '_') with
    | nil =>
      rw [hcs] at hvalue'
      cases hvalue'
    | cons c rest =>
      rw [hcs] at hvalue'
      obtain ⟨ds, hds, hvalue⟩ := digits_of_continue? hradix hvalue'
      refine ⟨ds, ?_, hcs ▸ hds, ?_⟩
      · rintro rfl
        cases hds
      · rw [hvalue, Nat.zero_mul, Nat.zero_add]
  · cases h

/-! ## Characters -/

theorem radix?_eq_some_iff {c : Char} {radix : Nat} :
    radix? c = some radix ↔ (c, radix) ∈ bases := by
  constructor
  · intro h
    unfold radix? at h
    split at h <;> cases h <;> decide
  · intro h
    simp only [bases, List.mem_cons, Prod.mk.injEq, List.not_mem_nil, or_false] at h
    rcases h with ⟨rfl, rfl⟩ | ⟨rfl, rfl⟩ | ⟨rfl, rfl⟩ | ⟨rfl, rfl⟩ | ⟨rfl, rfl⟩ | ⟨rfl, rfl⟩ |
      ⟨rfl, rfl⟩ | ⟨rfl, rfl⟩ <;> rfl

theorem not_mark_of_isBlank {c : Char} (h : isBlank c = true) :
    startsIdent c = false ∧ isDigit c = false ∧ Mark.ofChar? c = none := by
  simp only [isBlank, Bool.or_eq_true, beq_iff_eq] at h
  obtain (((rfl | rfl) | rfl) | rfl) | rfl := h <;> decide

theorem not_isDigit_of_startsIdent {c : Char} (h : startsIdent c = true) : isDigit c = false := by
  rw [Bool.eq_false_iff]
  intro hdigit
  have hle : ∀ a b : Char, a ≤ b ↔ a.toNat ≤ b.toNat := fun _ _ => Iff.rfl
  simp only [startsIdent, isLetter, isDigit, Bool.or_eq_true, Bool.and_eq_true, decide_eq_true_eq,
    beq_iff_eq, hle, show '0'.toNat = 48 from rfl, show '9'.toNat = 57 from rfl,
    show 'a'.toNat = 97 from rfl, show 'z'.toNat = 122 from rfl, show 'A'.toNat = 65 from rfl,
    show 'Z'.toNat = 90 from rfl] at h hdigit
  obtain h | rfl := h
  · omega
  · exact absurd hdigit (by decide)

theorem not_word_of_ofChar? {c : Char} {m : Mark} (h : Mark.ofChar? c = some m) :
    isBlank c = false ∧ startsIdent c = false ∧ isDigit c = false := by
  unfold Mark.ofChar? at h
  split at h <;> first | decide | cases h

theorem ofChar?_of_ofPair? {c d : Char} {m : Mark} (h : Mark.ofPair? c d = some m) :
    (Mark.ofChar? c).isSome = true ∧ c ≠ '/' := by
  unfold Mark.ofPair? at h
  split at h <;> first | decide | cases h

theorem spelled_iff {m : Mark} {cs : List Char} :
    m.Spelled cs ↔ (∃ c, cs = [c] ∧ Mark.ofChar? c = some m) ∨
      ∃ c d, cs = [c, d] ∧ Mark.ofPair? c d = some m := by
  constructor
  · rintro (rfl | ⟨rfl, rfl⟩)
    · cases m <;>
        first
        | exact .inl ⟨_, rfl, rfl⟩
        | exact .inr ⟨_, _, rfl, rfl⟩
    · exact .inr ⟨_, _, rfl, rfl⟩
  · rintro (⟨c, rfl, h⟩ | ⟨c, d, rfl, h⟩)
    · unfold Mark.ofChar? at h
      split at h <;> cases h <;> exact .inl rfl
    · unfold Mark.ofPair? at h
      split at h <;> cases h <;> first | exact .inl rfl | exact .inr ⟨rfl, rfl⟩

/-! ## What a rule cuts off -/

section
variable {p : Char → Bool} {cs ds after : List Char}

theorem takeWhile_append_of_stops (h : ∀ c ∈ cs, p c = true)
    (hstops : ∀ c ∈ after.head?, p c = false) : (cs ++ after).takeWhile p = cs := by
  rw [List.takeWhile_append_of_pos h]
  cases after with
  | nil => simp
  | cons c after => rw [List.takeWhile_cons_of_neg (by simp [hstops c rfl]), List.append_nil]

theorem dropWhile_append_of_stops (h : ∀ c ∈ cs, p c = true)
    (hstops : ∀ c ∈ after.head?, p c = false) : (cs ++ after).dropWhile p = after := by
  rw [List.dropWhile_append_of_pos h]
  cases after with
  | nil => rfl
  | cons c after => rw [List.dropWhile_cons_of_neg (by simp [hstops c rfl])]

theorem stops_dropWhile : ∀ c ∈ (cs.dropWhile p).head?, p c = false := by
  have hhead := List.head?_dropWhile_not p cs
  cases hdrop : (cs.dropWhile p).head? with
  | none => nofun
  | some c =>
    rw [hdrop] at hhead
    rintro _ ⟨⟩
    exact hhead

/-- Characters of a class in front of a text end where the text leaves the class. -/
theorem length_le_of_stops (hstops : ∀ c ∈ after.head?, p c = false) (h : ∀ c ∈ ds, p c = true)
    (hfront : ds <+: cs ++ after) : ds.length ≤ cs.length := by
  rcases List.prefix_or_prefix_of_prefix hfront (List.prefix_append cs after) with hle | ⟨more, rfl⟩
  · exact hle.length_le
  · cases more with
    | nil => simp
    | cons c more =>
      obtain ⟨after', rfl⟩ := (List.prefix_append_right_inj cs).1 hfront
      exact absurd (hstops c rfl) (by simp [h c])

end

/-- A lexeme, what it is, and the text behind it. Every rule takes all that it can. -/
inductive Cut : List Char → Verdict → List Char → Prop
  | blanks {cs after : List Char} (nonempty : cs ≠ []) (blank : ∀ c ∈ cs, isBlank c = true)
    (stops : ∀ c ∈ after.head?, isBlank c = false) : Cut cs .blank after
  | line {body after : List Char} (line : '\n' ∉ body) (stops : ∀ c ∈ after.head?, c = '\n') :
    Cut ('/' :: '/' :: body) .blank after
  | block {body after : List Char} (first : ¬ ['*', '/'] <:+: body ++ ['*']) :
    Cut ('/' :: '*' :: (body ++ ['*', '/'])) .blank after
  | word {cs after : List Char} (word : IsWord cs)
    (stops : ∀ c ∈ after.head?, continuesIdent c = false) : Cut cs (.token (wordToken cs)) after
  /-- No size is in front of a base here. -/
  | number {cs after : List Char} (number : IsNumber cs)
    (stops : ∀ c ∈ after.head?, continuesNumber c = false)
    (unsized : ∀ size base radix digits, IsSized size base radix digits →
      ¬ size ++ '\x27' :: base :: digits <+: cs ++ after) : Cut cs (numberVerdict cs) after
  | sized {size digits after : List Char} {base : Char} {radix : Nat}
    (sized : IsSized size base radix digits)
    (stops : ∀ c ∈ after.head?, isSizedDigit c = false) :
    Cut (size ++ '\x27' :: base :: digits) (sizedVerdict size radix digits) after
  | pair {c d : Char} {after : List Char} {m : Mark} (spelled : Mark.ofPair? c d = some m) :
    Cut [c, d] (.token (.mark m)) after
  /-- The character opens no comment and starts no longer mark here. -/
  | single {c : Char} {after : List Char} {m : Mark} (spelled : Mark.ofChar? c = some m)
    (unpaired : after.head?.bind (Mark.ofPair? c) = none)
    (unopened : c = '/' → ∀ d ∈ after.head?, d ≠ '/' ∧ d ≠ '*') : Cut [c] (.token (.mark m)) after

/-- What follows does not matter for what a rule takes. -/
theorem Cut.alone {lexeme after : List Char} {v : Verdict} (h : Cut lexeme v after) :
    Cut lexeme v [] := by
  cases h with
  | blanks nonempty blank stops => exact .blanks nonempty blank nofun
  | line line stops => exact .line line nofun
  | block first => exact .block first
  | word word stops => exact .word word nofun
  | number number stops unsized =>
    refine .number number nofun fun size base radix digits hsized hfront => ?_
    rw [List.append_nil] at hfront
    exact unsized size base radix digits hsized (hfront.trans (List.prefix_append _ _))
  | sized sized stops => exact .sized sized nofun
  | pair spelled => exact .pair spelled
  | single spelled unpaired unopened => exact .single spelled rfl nofun

/-! ### Comments -/

theorem commentBody?_eq_some_iff {rest closed : List Char} :
    commentBody? rest = some closed ↔ ∃ body after, closed = body ++ ['*', '/'] ∧
      rest = body ++ '*' :: '/' :: after ∧ ¬ ['*', '/'] <:+: body ++ ['*'] := by
  constructor
  · intro h
    induction rest using commentBody?.induct generalizing closed with
    | case1 => cases h
    | case2 after =>
      cases h
      exact ⟨[], after, rfl, rfl, by decide⟩
    | case3 c rest hopen ih =>
      rw [commentBody?.eq_3 _ _ hopen] at h
      obtain ⟨closed', hclosed', rfl⟩ := Option.map_eq_some_iff.1 h
      obtain ⟨body, after, rfl, rfl, hfirst⟩ := ih hclosed'
      refine ⟨c :: body, after, rfl, rfl, ?_⟩
      rw [List.cons_append, List.infix_cons_iff, List.cons_prefix_cons]
      rintro (⟨rfl, hslash⟩ | hinfix)
      · cases body with
        | nil => simp at hslash
        | cons d body =>
          obtain ⟨rfl, -⟩ := List.cons_prefix_cons.1 hslash
          exact hopen _ rfl rfl
      · exact hfirst hinfix
  · rintro ⟨body, after, rfl, rfl, hfirst⟩
    induction body with
    | nil => rfl
    | cons c body ih =>
      rw [List.cons_append, List.infix_cons_iff, List.cons_prefix_cons, not_or] at hfirst
      rw [List.cons_append, commentBody?.eq_3, ih hfirst.2]
      · rfl
      · rintro more rfl hmore
        refine hfirst.1 ⟨rfl, ?_⟩
        cases body with
        | nil => cases hmore
        | cons d body =>
          cases hmore
          simp

/-- A comment is closed once. -/
theorem eq_of_closed {body body' after : List Char} (h : ¬ ['*', '/'] <:+: body ++ ['*'])
    (h' : ¬ ['*', '/'] <:+: body' ++ ['*'])
    (hfront : body' ++ ['*', '/'] <+: body ++ ['*', '/'] ++ after) : body' = body := by
  obtain ⟨after', heq⟩ := hfront
  have hbody : commentBody? (body ++ ['*', '/'] ++ after) = some (body ++ ['*', '/']) :=
    commentBody?_eq_some_iff.2 ⟨body, after, rfl, by simp, h⟩
  have hbody' : commentBody? (body ++ ['*', '/'] ++ after) = some (body' ++ ['*', '/']) :=
    commentBody?_eq_some_iff.2 ⟨body', after', rfl, by simp [← heq], h'⟩
  exact List.append_cancel_right (Option.some.inj (hbody'.symm.trans hbody))

/-! ### Numbers -/

section
variable {size digits cs after : List Char} {base : Char} {radix : Nat}

theorem number_of_sized (h : IsSized size base radix digits)
    (hstops : ∀ c ∈ after.head?, isSizedDigit c = false) :
    number (size ++ '\x27' :: base :: (digits ++ after)) =
      (size ++ '\x27' :: base :: digits, sizedVerdict size radix digits) := by
  have hquote : ∀ c ∈ ('\x27' :: base :: (digits ++ after)).head?, isDigit c = false := by
    rintro _ ⟨⟩
    decide
  unfold number
  rw [takeWhile_append_of_stops h.size hquote, dropWhile_append_of_stops h.size hquote]
  simp only [takeWhile_append_of_stops h.digits hstops, radix?_eq_some_iff.2 h.base]
  cases digits with
  | nil => exact absurd rfl h.nonempty
  | cons d digits => rfl

theorem number_of_unsized (hcs : ∀ c ∈ cs.head?, isDigit c = true)
    (h : ∀ size base radix digits, IsSized size base radix digits →
      ¬ size ++ '\x27' :: base :: digits <+: cs) :
    number cs = (cs.takeWhile continuesNumber, numberVerdict (cs.takeWhile continuesNumber)) := by
  unfold number
  dsimp only
  split
  · next base rest hdrop =>
    split
    · next radix d ds hradix hds =>
      have hsplit : cs.takeWhile isDigit ++ '\x27' :: base :: rest = cs := by
        rw [← hdrop, List.takeWhile_append_dropWhile]
      refine absurd ⟨rest.dropWhile isSizedDigit, ?_⟩
        (h (cs.takeWhile isDigit) base radix (rest.takeWhile isSizedDigit)
          ⟨?_, fun c hc => mem_takeWhile hc, radix?_eq_some_iff.1 hradix, by simp [hds],
            fun c hc => mem_takeWhile hc⟩)
      · intro hnil
        rw [hnil] at hsplit
        exact absurd (hcs '\x27' (hsplit ▸ rfl)) (by decide)
      · rw [List.append_assoc, List.cons_append, List.cons_append,
          List.takeWhile_append_dropWhile, hsplit]
    · rfl
  · rfl

end

/-! ### The front of a text -/

theorem cut_of_number {cs lexeme : List Char} {v : Verdict} (hcs : ∀ c ∈ cs.head?, isDigit c = true)
    (hne : cs ≠ []) (h : number cs = (lexeme, v)) :
    ∃ after, cs = lexeme ++ after ∧ Cut lexeme v after := by
  by_cases hsized : ∃ size base radix digits, IsSized size base radix digits ∧
      size ++ '\x27' :: base :: digits <+: cs
  · obtain ⟨size, base, radix, digits, hsized, more, rfl⟩ := hsized
    -- the literal takes the digits behind the prefix, too
    have hall : IsSized size base radix (digits ++ more.takeWhile isSizedDigit) :=
      { hsized with
        nonempty := List.append_ne_nil_of_left_ne_nil hsized.nonempty _
        digits := List.forall_mem_append.2 ⟨hsized.digits, fun _ hc => mem_takeWhile hc⟩ }
    have hsplit : size ++ '\x27' :: base :: digits ++ more =
        size ++ '\x27' :: base ::
          (digits ++ more.takeWhile isSizedDigit ++ more.dropWhile isSizedDigit) := by
      rw [List.append_assoc digits, List.takeWhile_append_dropWhile, List.append_assoc,
        List.cons_append, List.cons_append]
    rw [hsplit, number_of_sized hall stops_dropWhile] at h
    cases h
    refine ⟨more.dropWhile isSizedDigit, ?_, .sized hall stops_dropWhile⟩
    rw [hsplit, List.append_assoc size, List.cons_append, List.cons_append]
  · have hunsized : ∀ size base radix digits, IsSized size base radix digits →
        ¬ size ++ '\x27' :: base :: digits <+: cs := fun size base radix digits hs hfront =>
      hsized ⟨size, base, radix, digits, hs, hfront⟩
    rw [number_of_unsized hcs hunsized] at h
    cases h
    refine ⟨cs.dropWhile continuesNumber, List.takeWhile_append_dropWhile.symm, .number ?_
      stops_dropWhile fun size base radix digits hs hfront => ?_⟩
    · obtain ⟨c, cs, rfl⟩ := List.exists_cons_of_ne_nil hne
      have hc : continuesNumber c = true := by rw [continuesNumber, hcs c rfl, Bool.true_or]
      refine ⟨?_, ?_, fun _ hc => mem_takeWhile hc⟩
      · rw [List.takeWhile_cons_of_pos hc]
        exact List.cons_ne_nil _ _
      · rw [List.takeWhile_cons_of_pos hc]
        exact hcs
    · rw [List.takeWhile_append_dropWhile] at hfront
      exact hunsized size base radix digits hs hfront

/-- What the lexer takes for something is cut off by a rule. -/
theorem cut_of_front {c : Char} {rest lexeme : List Char} {v : Verdict}
    (h : front c rest = (lexeme, v)) (hv : v ≠ .bad) :
    ∃ after, c :: rest = lexeme ++ after ∧ Cut lexeme v after := by
  unfold front at h
  dsimp only at h
  split at h
  · next hblank =>
    cases h
    refine ⟨_, List.takeWhile_append_dropWhile.symm, .blanks ?_ (fun _ hc => mem_takeWhile hc)
      stops_dropWhile⟩
    rw [List.takeWhile_cons_of_pos hblank]
    exact List.cons_ne_nil _ _
  split at h
  · next hstart =>
    cases h
    have hc : continuesIdent c = true := by
      simp only [startsIdent, Bool.or_eq_true] at hstart
      rcases hstart with hstart | hstart <;> simp [continuesIdent, hstart]
    refine ⟨_, List.takeWhile_append_dropWhile.symm, .word ⟨?_, ?_, fun _ hc => mem_takeWhile hc⟩
      stops_dropWhile⟩
    · rw [List.takeWhile_cons_of_pos hc]
      exact List.cons_ne_nil _ _
    · rw [List.takeWhile_cons_of_pos hc]
      rintro _ ⟨⟩
      exact hstart
  split at h
  · next hdigit =>
    refine cut_of_number ?_ (List.cons_ne_nil _ _) h
    rintro _ ⟨⟩
    exact hdigit
  split at h
  · next rest _ _ _ =>
    cases h
    refine ⟨rest.dropWhile (· ≠ '\n'), ?_, .line (fun hc => ?_) fun c hc => ?_⟩
    · rw [List.cons_append, List.cons_append, List.takeWhile_append_dropWhile]
    · simpa using mem_takeWhile hc
    · simpa using stops_dropWhile c hc
  · next rest _ _ _ =>
    split at h
    · next closed hclosed =>
      cases h
      obtain ⟨body, after, rfl, rfl, hfirst⟩ := commentBody?_eq_some_iff.1 hclosed
      exact ⟨after, by simp, .block hfirst⟩
    · cases h
      exact absurd rfl hv
  · next hline hblock =>
    split at h
    · next m hpair =>
      cases h
      obtain ⟨d, hd, hm⟩ := Option.bind_eq_some_iff.1 hpair
      obtain ⟨after, rfl⟩ := List.head?_eq_some_iff.1 hd
      exact ⟨after, rfl, .pair hm⟩
    · next m hpair hm =>
      cases h
      refine ⟨rest, rfl, .single hm hpair ?_⟩
      rintro rfl d hd
      obtain ⟨after, rfl⟩ := List.head?_eq_some_iff.1 hd
      exact ⟨fun hd => hline after rfl (hd ▸ rfl), fun hd => hblock after rfl (hd ▸ rfl)⟩
    · cases h
      exact absurd rfl hv

theorem front_of_isDigit {c : Char} {rest : List Char} (h : isDigit c = true) :
    front c rest = number (c :: rest) := by
  have hblank : ¬ isBlank c = true := fun hblank => by
    cases h.symm.trans (not_mark_of_isBlank hblank).2.1
  have hstart : ¬ startsIdent c = true := fun hstart => by
    cases h.symm.trans (not_isDigit_of_startsIdent hstart)
  unfold front
  rw [if_neg hblank, if_neg hstart, if_pos h]

theorem front_of_ofChar? {c : Char} {rest : List Char} {m : Mark} (h : Mark.ofChar? c = some m)
    (hslash : c = '/' → ∀ d ∈ rest.head?, d ≠ '/' ∧ d ≠ '*') :
    front c rest = match rest.head?.bind (Mark.ofPair? c) with
      | some m => (c :: rest.take 1, .token (.mark m))
      | none => ([c], .token (.mark m)) := by
  obtain ⟨hblank, hstart, hdigit⟩ := not_word_of_ofChar? h
  rw [front]
  · simp only [hblank, hstart, hdigit, Bool.false_eq_true, if_false, h]
    cases rest.head?.bind (Mark.ofPair? c) <;> rfl
  · rintro after hc rfl
    exact (hslash hc _ rfl).1 rfl
  · rintro after hc rfl
    exact (hslash hc _ rfl).2 rfl

/-- In front of a text, a rule cuts off what it takes. -/
theorem front_of_cut {c : Char} {more after : List Char} {v : Verdict}
    (h : Cut (c :: more) v after) : front c (more ++ after) = (c :: more, v) := by
  generalize hcs : c :: more = cs at h
  cases h with
  | blanks nonempty blank stops =>
    unfold front
    rw [if_pos (blank c (hcs ▸ .head _)), ← List.cons_append, hcs,
      takeWhile_append_of_stops blank stops]
  | @line body _ line stops =>
    cases hcs
    have hbody : (body ++ after).takeWhile (fun c => decide (c ≠ '\n')) = body :=
      takeWhile_append_of_stops
        (fun c hc => decide_eq_true fun heq => line (heq ▸ hc))
        (fun c hc => by simp [stops c hc])
    unfold front
    rw [if_neg (by decide), if_neg (by decide), if_neg (by decide)]
    exact congrArg (fun body => ('/' :: '/' :: body, Verdict.blank)) hbody
  | @block body _ first =>
    cases hcs
    have hclosed : commentBody? (body ++ ['*', '/'] ++ after) = some (body ++ ['*', '/']) :=
      commentBody?_eq_some_iff.2 ⟨body, after, rfl, by simp, first⟩
    unfold front
    rw [if_neg (by decide), if_neg (by decide), if_neg (by decide)]
    simp only [List.cons_append, hclosed]
  | word word stops =>
    have hc := word.starts c (hcs ▸ rfl)
    have hblank : ¬ isBlank c = true := fun hblank => by
      cases hc.symm.trans (not_mark_of_isBlank hblank).1
    unfold front
    rw [if_neg hblank, if_pos hc, ← List.cons_append, hcs,
      takeWhile_append_of_stops word.continues stops]
  | number number stops unsized =>
    have hc : ∀ c ∈ (cs ++ after).head?, isDigit c = true := by
      rw [← hcs]
      rintro _ ⟨⟩
      exact number.starts c (hcs ▸ rfl)
    rw [front_of_isDigit (number.starts c (hcs ▸ rfl)), ← List.cons_append, hcs,
      number_of_unsized hc unsized, takeWhile_append_of_stops number.continues stops]
  | @sized size digits _ base radix sized stops =>
    have hc : isDigit c = true := by
      obtain ⟨d, size, rfl⟩ := List.exists_cons_of_ne_nil sized.size_nonempty
      cases hcs
      exact sized.size c (.head _)
    rw [front_of_isDigit hc, ← List.cons_append, hcs, List.append_assoc, List.cons_append,
      List.cons_append, number_of_sized sized stops]
  | pair spelled =>
    cases hcs
    obtain ⟨hmark, hslash⟩ := ofChar?_of_ofPair? spelled
    obtain ⟨m', hm'⟩ := Option.isSome_iff_exists.1 hmark
    rw [front_of_ofChar? hm' fun hc => absurd hc hslash]
    simp only [List.cons_append, List.head?_cons, Option.bind_some, spelled, List.take_succ_cons,
      List.take_zero]
  | single spelled unpaired unopened =>
    cases hcs
    rw [List.nil_append, front_of_ofChar? spelled unopened, unpaired]

/-! ### Longest rules -/

theorem IsSized.exists_cons {size digits : List Char} {base : Char} {radix : Nat}
    (h : IsSized size base radix digits) : ∃ c more, size = c :: more ∧ isDigit c = true := by
  obtain ⟨c, more, rfl⟩ := List.exists_cons_of_ne_nil h.size_nonempty
  exact ⟨c, more, rfl, h.size c (.head _)⟩

/-- The first character decides between the rules. -/
theorem Covered.cases_cons {c : Char} {cs : List Char} (h : Covered (c :: cs)) :
    (isBlank c = true ∧ ∀ d ∈ c :: cs, isBlank d = true) ∨
      (startsIdent c = true ∧ ∀ d ∈ c :: cs, continuesIdent d = true) ∨
      (isDigit c = true ∧ ((∀ d ∈ c :: cs, continuesNumber d = true) ∨
        ∃ size base radix digits, IsSized size base radix digits ∧
          c :: cs = size ++ '\x27' :: base :: digits)) ∨
      (Mark.ofChar? c).isSome = true ∧ (cs = [] ∨ (∃ d m, cs = [d] ∧ Mark.ofPair? c d = some m) ∨
        c = '/' ∧ ((∃ body, cs = '/' :: body ∧ '\n' ∉ body) ∨
          ∃ body, cs = '*' :: (body ++ ['*', '/']) ∧ ¬ ['*', '/'] <:+: body ++ ['*'])) := by
  generalize hl : c :: cs = l at h
  rcases h with h | h
  · cases h with
    | blanks _ blank => exact .inl ⟨blank c (hl ▸ .head _), blank⟩
    | line line =>
      cases hl
      exact .inr (.inr (.inr ⟨rfl, .inr (.inr ⟨rfl, .inl ⟨_, rfl, line⟩⟩)⟩))
    | block first =>
      cases hl
      exact .inr (.inr (.inr ⟨rfl, .inr (.inr ⟨rfl, .inr ⟨_, rfl, first⟩⟩)⟩))
  · cases h with
    | word word => exact .inr (.inl ⟨word.starts c (hl ▸ rfl), word.continues⟩)
    | number number =>
      exact .inr (.inr (.inl ⟨number.starts c (hl ▸ rfl), .inl number.continues⟩))
    | sized sized =>
      obtain ⟨d, size, rfl, hd⟩ := sized.exists_cons
      cases hl
      exact .inr (.inr (.inl ⟨hd, .inr ⟨_, _, _, _, sized, rfl⟩⟩))
    | @mark m _ spelled =>
      rcases spelled_iff.1 spelled with ⟨d, rfl, hm⟩ | ⟨d, e, rfl, hm⟩
      · cases hl
        exact .inr (.inr (.inr ⟨by rw [hm, Option.isSome_some], .inl rfl⟩))
      · cases hl
        exact .inr (.inr (.inr ⟨(ofChar?_of_ofPair? hm).1, .inr (.inl ⟨e, m, rfl, hm⟩)⟩))

section
variable {c : Char} {cs : List Char}

theorem Covered.blanks_of_isBlank (h : Covered (c :: cs)) (hc : isBlank c = true) :
    ∀ d ∈ c :: cs, isBlank d = true := by
  obtain ⟨hstart, hdigit, hmark⟩ := not_mark_of_isBlank hc
  obtain ⟨-, h⟩ | ⟨h, -⟩ | ⟨h, -⟩ | ⟨h, -⟩ := h.cases_cons
  · exact h
  · cases hstart.symm.trans h
  · cases hdigit.symm.trans h
  · rw [hmark] at h
    cases h

theorem Covered.word_of_startsIdent (h : Covered (c :: cs)) (hc : startsIdent c = true) :
    ∀ d ∈ c :: cs, continuesIdent d = true := by
  obtain ⟨h, -⟩ | ⟨-, h⟩ | ⟨h, -⟩ | ⟨h, -⟩ := h.cases_cons
  · cases hc.symm.trans (not_mark_of_isBlank h).1
  · exact h
  · cases h.symm.trans (not_isDigit_of_startsIdent hc)
  · obtain ⟨m, hm⟩ := Option.isSome_iff_exists.1 h
    cases hc.symm.trans (not_word_of_ofChar? hm).2.1

theorem Covered.number_of_isDigit (h : Covered (c :: cs)) (hc : isDigit c = true) :
    (∀ d ∈ c :: cs, continuesNumber d = true) ∨ ∃ size base radix digits,
      IsSized size base radix digits ∧ c :: cs = size ++ '\x27' :: base :: digits := by
  obtain ⟨h, -⟩ | ⟨h, -⟩ | ⟨-, h⟩ | ⟨h, -⟩ := h.cases_cons
  · cases hc.symm.trans (not_mark_of_isBlank h).2.1
  · cases hc.symm.trans (not_isDigit_of_startsIdent h)
  · exact h
  · obtain ⟨m, hm⟩ := Option.isSome_iff_exists.1 h
    cases hc.symm.trans (not_word_of_ofChar? hm).2.2

theorem Covered.mark_of_ofChar? {m : Mark} (h : Covered (c :: cs)) (hc : Mark.ofChar? c = some m) :
    cs = [] ∨ (∃ d m, cs = [d] ∧ Mark.ofPair? c d = some m) ∨
      c = '/' ∧ ((∃ body, cs = '/' :: body ∧ '\n' ∉ body) ∨
        ∃ body, cs = '*' :: (body ++ ['*', '/']) ∧ ¬ ['*', '/'] <:+: body ++ ['*']) := by
  obtain ⟨hblank, hstart, hdigit⟩ := not_word_of_ofChar? hc
  obtain ⟨h, -⟩ | ⟨h, -⟩ | ⟨h, -⟩ | ⟨-, h⟩ := h.cases_cons
  · cases hblank.symm.trans h
  · cases hstart.symm.trans h
  · cases hdigit.symm.trans h
  · exact h

end

theorem IsSized.length_le {size digits size' digits' after : List Char} {base base' : Char}
    {radix radix' : Nat} (h : IsSized size base radix digits)
    (h' : IsSized size' base' radix' digits') (hstops : ∀ c ∈ after.head?, isSizedDigit c = false)
    (hfront : size' ++ '\x27' :: base' :: digits' <+: size ++ '\x27' :: base :: (digits ++ after)) :
    (size' ++ '\x27' :: base' :: digits').length ≤ (size ++ '\x27' :: base :: digits).length := by
  have hquote : ∀ cs : List Char, ∀ c ∈ ('\x27' :: cs).head?, isDigit c = false := by
    rintro cs _ ⟨⟩
    decide
  obtain ⟨more, heq⟩ := hfront
  -- the quote ends the size in both
  have hsize : size' = size := by
    rw [← takeWhile_append_of_stops h'.size (hquote (base' :: digits' ++ more)),
      ← takeWhile_append_of_stops h.size (hquote (base :: (digits ++ after))), ← heq,
      List.append_assoc]
    rfl
  subst hsize
  simp only [List.append_assoc, List.append_cancel_left_eq, List.cons_append,
    List.cons.injEq, true_and] at heq
  have hdigits : digits'.length ≤ digits.length :=
    length_le_of_stops hstops h'.digits ⟨more, heq.2⟩
  simpa using hdigits

/-- No rule covers more of a text than the one that cuts it. -/
theorem Cut.length_le {lexeme after cs : List Char} {v : Verdict} (h : Cut lexeme v after)
    (hcovered : Covered cs) (hfront : cs <+: lexeme ++ after) : cs.length ≤ lexeme.length := by
  cases cs with
  | nil => exact Nat.zero_le _
  | cons c cs =>
  have hhead : ∀ {p : Char → Bool}, lexeme ≠ [] → (∀ d ∈ lexeme.head?, p d = true) →
      p c = true := by
    intro p hne hp
    obtain ⟨d, more, rfl⟩ := List.exists_cons_of_ne_nil hne
    obtain ⟨rfl, -⟩ := List.cons_prefix_cons.1 hfront
    exact hp c rfl
  cases h with
  | blanks nonempty blank stops =>
    have hc : isBlank c = true := hhead nonempty fun d hd => blank d (List.mem_of_mem_head? hd)
    exact length_le_of_stops stops (hcovered.blanks_of_isBlank hc) hfront
  | @line body _ line stops =>
    obtain ⟨rfl, hrest⟩ := List.cons_prefix_cons.1 hfront
    obtain rfl | ⟨d, m, rfl, -⟩ | ⟨-, ⟨body', rfl, hbody'⟩ | ⟨body', rfl, -⟩⟩ :=
      hcovered.mark_of_ofChar? rfl
    · simp
    · simp
    · have hlength : body'.length ≤ body.length :=
        length_le_of_stops (p := fun c => decide (c ≠ '\n')) (fun c hc => by simp [stops c hc])
          (fun c hc => decide_eq_true fun heq => hbody' (heq ▸ hc))
          (List.cons_prefix_cons.1 hrest).2
      simpa using hlength
    · exact absurd (List.cons_prefix_cons.1 hrest).1 (by decide)
  | @block body _ first =>
    obtain ⟨rfl, hrest⟩ := List.cons_prefix_cons.1 hfront
    obtain rfl | ⟨d, m, rfl, -⟩ | ⟨-, ⟨body', rfl, -⟩ | ⟨body', rfl, hbody'⟩⟩ :=
      hcovered.mark_of_ofChar? rfl
    · simp
    · simp
    · exact absurd (List.cons_prefix_cons.1 hrest).1 (by decide)
    · rw [eq_of_closed first hbody' (List.cons_prefix_cons.1 hrest).2]
  | word word stops =>
    exact length_le_of_stops stops
      (hcovered.word_of_startsIdent (hhead word.nonempty word.starts)) hfront
  | number number stops unsized =>
    obtain hall | ⟨size, base, radix, digits, hsized, heq⟩ :=
      hcovered.number_of_isDigit (hhead number.nonempty number.starts)
    · exact length_le_of_stops stops hall hfront
    · exact absurd (heq ▸ hfront) (unsized size base radix digits hsized)
  | @sized size digits _ base radix sized stops =>
    have hc : isDigit c = true := by
      obtain ⟨d, more, rfl, hd⟩ := sized.exists_cons
      obtain ⟨rfl, -⟩ := List.cons_prefix_cons.1 hfront
      exact hd
    rw [List.append_assoc, List.cons_append, List.cons_append] at hfront
    obtain hall | ⟨size', base', radix', digits', hsized, heq⟩ := hcovered.number_of_isDigit hc
    · have hsize : (c :: cs).length ≤ size.length := by
        refine length_le_of_stops ?_ hall hfront
        rintro _ ⟨⟩
        decide
      exact hsize.trans (by simp)
    · rw [heq] at hfront ⊢
      exact sized.length_le hsized stops hfront
  | @pair _ d _ m spelled =>
    obtain ⟨hmark, hslash⟩ := ofChar?_of_ofPair? spelled
    obtain ⟨m', hm'⟩ := Option.isSome_iff_exists.1 hmark
    obtain ⟨rfl, -⟩ := List.cons_prefix_cons.1 hfront
    obtain rfl | ⟨d, m, rfl, -⟩ | ⟨rfl, -⟩ := hcovered.mark_of_ofChar? hm'
    · simp
    · simp
    · exact absurd rfl hslash
  | single spelled unpaired unopened =>
    obtain ⟨rfl, hrest⟩ := List.cons_prefix_cons.1 hfront
    have hnext : ∀ {d ds}, cs = d :: ds → after.head? = some d := by
      rintro d ds rfl
      obtain ⟨more, rfl⟩ := hrest
      rfl
    obtain rfl | ⟨d, m, rfl, hm⟩ | ⟨hslash, ⟨body, rfl, -⟩ | ⟨body, rfl, -⟩⟩ :=
      hcovered.mark_of_ofChar? spelled
    · exact Nat.le_refl _
    · rw [hnext rfl, Option.bind_some, hm] at unpaired
      cases unpaired
    · exact absurd rfl (unopened hslash '/' (hnext rfl)).1
    · exact absurd rfl (unopened hslash '*' (hnext rfl)).2

/-! ### What lexemes are -/

theorem denotes_wordToken {cs : List Char} (h : IsWord cs) : Denotes cs (wordToken cs) := by
  rw [wordToken]
  split
  · next k hk =>
    have htext : k.text = String.ofList cs := by simpa using List.find?_some hk
    rw [← String.toList_ofList (l := cs), ← htext]
    exact .keyword k
  · next hnone =>
    have hfree : ∀ k : Keyword, k.text ≠ String.ofList cs := fun k hk =>
      List.find?_eq_none.1 hnone k (by cases k <;> decide) (decide_eq_true hk)
    have hword : IsWord (String.ofList cs).toList := (String.toList_ofList (l := cs)).symm ▸ h
    simpa using Denotes.ident hword hfree

theorem denotes_of_numberVerdict {cs : List Char} {t : Token} (h : IsNumber cs)
    (hv : numberVerdict cs = .token t) : Denotes cs t := by
  rw [numberVerdict] at hv
  split at hv
  · next value hvalue =>
    cases hv
    obtain ⟨hlt, hwrites⟩ := writesNat_of_digitsBelow? (by decide) hvalue
    exact .number h (by rwa [UInt64.toNat_ofNat_of_lt' hlt])
  · cases hv

theorem IsSized.radix_le {size digits : List Char} {base : Char} {radix : Nat}
    (h : IsSized size base radix digits) : radix ≤ 16 := by
  have hall : ∀ b ∈ bases, b.2 ≤ 16 := by decide
  exact hall _ h.base

theorem denotes_of_sizedVerdict {size digits : List Char} {base : Char} {radix : Nat} {t : Token}
    (h : IsSized size base radix digits) (hv : sizedVerdict size radix digits = .token t) :
    Denotes (size ++ '\x27' :: base :: digits) t := by
  rw [sizedVerdict] at hv
  split at hv
  · next width value hwidth hvalue =>
    cases hv
    obtain ⟨hlt, hwrites⟩ := writesNat_of_digitsBelow? h.radix_le hvalue
    exact .sized h (writesNat_of_digitsBelow? (by decide) hwidth).2
      (by rwa [UInt64.toNat_ofNat_of_lt' hlt])
  · cases hv

/-- What a rule makes a token of is one, by its characters. -/
theorem Cut.denotes {lexeme after : List Char} {t : Token} (h : Cut lexeme (.token t) after) :
    Denotes lexeme t := by
  generalize hv : Verdict.token t = v at h
  cases h with
  | blanks | line | block => cases hv
  | word word =>
    cases hv
    exact denotes_wordToken word
  | number number => exact denotes_of_numberVerdict number hv.symm
  | sized sized => exact denotes_of_sizedVerdict sized hv.symm
  | pair spelled =>
    cases hv
    exact .mark (spelled_iff.2 (.inr ⟨_, _, rfl, spelled⟩))
  | single spelled =>
    cases hv
    exact .mark (spelled_iff.2 (.inl ⟨_, rfl, spelled⟩))

theorem Cut.skipped {lexeme after : List Char} (h : Cut lexeme .blank after) : Skipped lexeme := by
  generalize hv : Verdict.blank = v at h
  cases h with
  | blanks nonempty blank => exact .blanks nonempty blank
  | line line => exact .line line
  | block first => exact .block first
  | word | pair | single => cases hv
  | number =>
    rw [numberVerdict] at hv
    split at hv <;> cases hv
  | sized =>
    rw [sizedVerdict] at hv
    split at hv <;> cases hv

theorem isWord_text (k : Keyword) : IsWord k.text.toList := by
  have hstarts : k.text.toList.head?.all startsIdent = true := by cases k <;> decide
  have hcontinues : k.text.toList.all continuesIdent = true := by cases k <;> decide
  refine ⟨by cases k <;> decide, fun c hc => ?_, List.all_eq_true.1 hcontinues⟩
  rwa [Option.mem_def.1 hc] at hstarts

theorem Denotes.shape {lexeme : List Char} {t : Token} (h : Denotes lexeme t) : Shape lexeme := by
  cases h with
  | keyword k =>
    exact .word (isWord_text k)
  | ident word => exact .word word
  | number number => exact .number number
  | sized sized => exact .sized sized
  | mark spelled => exact .mark spelled

theorem Shape.ne_nil {cs : List Char} (h : Shape cs) : cs ≠ [] := by
  cases h with
  | word word => exact word.nonempty
  | number number => exact number.nonempty
  | sized sized => exact List.append_ne_nil_of_left_ne_nil sized.size_nonempty _
  | mark spelled =>
    obtain ⟨_, rfl, -⟩ | ⟨_, _, rfl, -⟩ := spelled_iff.1 spelled
    · exact List.cons_ne_nil _ _
    · exact List.cons_ne_nil _ _

theorem Cut.longest {lexeme after : List Char} {v : Verdict} (h : Cut lexeme v after)
    (hcovered : Covered lexeme) : Longest lexeme (lexeme ++ after) :=
  ⟨hcovered, List.prefix_append _ _, fun _ hfront hcs => h.length_le hcs hfront⟩

theorem Cut.ne_nil {lexeme after : List Char} {v : Verdict} (h : Cut lexeme v after) :
    lexeme ≠ [] := by
  cases h with
  | blanks nonempty => exact nonempty
  | word word => exact word.nonempty
  | number number => exact number.nonempty
  | sized sized => exact List.append_ne_nil_of_left_ne_nil sized.size_nonempty _
  | line | block | pair | single => exact List.cons_ne_nil _ _

end Lexeme

end GateSynth.Verilog
