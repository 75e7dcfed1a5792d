import GateSynth.Proofs.Library.Spacing
import GateSynth.Proofs.Results

/-!
# Written patterns

A text is read as a pattern exactly if it is the written form of the pattern with white space between
its words and marks, and the pattern is `Readable`: its pins have names that are not taken for
something else, and its operators have as many operands as they take (`parse_eq_ok_iff`). That is
decided along the pattern (`decideReadable`). Both directions say what holds in front of any further
text that does not go on with a word, the one by induction on the pattern (`reads_of_readable`), the
other by induction on the fuel (`sound`).
-/

namespace GateSynth

namespace Pattern

open PatternReader

/-- The patterns that can be read. -/
inductive Readable : Pattern → Prop
  /-- The words for constants and modules are no pins; operators are, where no operand follows. -/
  | pin {name : String} (isName : IsName name) (notConst : name ≠ Kind.constTag)
    (notModule : name ≠ Kind.moduleTag) : Readable (.pin name)
  | const : Readable .const
  | op {operator : Operator} {args : List Pattern} (arity : operator.arity = args.length)
    (readable : ∀ p ∈ args, Readable p) : Readable (.op operator args)
  | module {name : String} {args : List Pattern} (isName : IsName name) (nonempty : args ≠ [])
    (readable : ∀ p ∈ args, Readable p) : Readable (.module name args)

theorem readable_pin_iff {name : String} :
    Readable (.pin name) ↔ IsName name ∧ name ≠ Kind.constTag ∧ name ≠ Kind.moduleTag :=
  ⟨fun | .pin isName notConst notModule => ⟨isName, notConst, notModule⟩,
    fun ⟨isName, notConst, notModule⟩ => .pin isName notConst notModule⟩

theorem readable_op_iff {operator : Operator} {args : List Pattern} :
    Readable (.op operator args) ↔ operator.arity = args.length ∧ ∀ p ∈ args, Readable p :=
  ⟨fun | .op arity readable => ⟨arity, readable⟩, fun ⟨arity, readable⟩ => .op arity readable⟩

theorem readable_module_iff {name : String} {args : List Pattern} :
    Readable (.module name args) ↔ IsName name ∧ args ≠ [] ∧ ∀ p ∈ args, Readable p :=
  ⟨fun | .module isName nonempty readable => ⟨isName, nonempty, readable⟩,
    fun ⟨isName, nonempty, readable⟩ => .module isName nonempty readable⟩

mutual

/-- Whether a pattern can be read is computed along the pattern. -/
def decideReadable : (p : Pattern) → Decidable (Readable p)
  | .pin _ => decidable_of_iff _ readable_pin_iff.symm
  | .const => isTrue .const
  | .op _ args =>
    have := decideAllReadable args
    decidable_of_iff _ readable_op_iff.symm
  | .module _ args =>
    have := decideAllReadable args
    decidable_of_iff _ readable_module_iff.symm

/-- Whether some patterns can all be read. -/
def decideAllReadable : (ps : List Pattern) → Decidable (∀ p ∈ ps, Readable p)
  | [] => isTrue nofun
  | p :: rest =>
    have := decideReadable p
    have := decideAllReadable rest
    decidable_of_iff _ List.forall_mem_cons.symm

end

instance : DecidablePred Readable := decideReadable

/-! ## Written forms -/

/-- The patterns behind the first one among arguments, and the end of the arguments. -/
def laterArgs (args : List Pattern) : List Char :=
  args.flatMap (fun p => ',' :: p.text.toList) ++ [')']

theorem texts_eq_map (args : List Pattern) : texts args = args.map text := by
  induction args with
  | nil => rw [texts, List.map_nil]
  | cons p args ih => rw [texts, ih, List.map_cons]

theorem intercalate_cons {α : Type} (sep x : List α) (xs : List (List α)) :
    sep.intercalate (x :: xs) = x ++ xs.flatMap (sep ++ ·) := by
  induction xs generalizing x with
  | nil => simp
  | cons y xs ih => rw [List.intercalate_cons_cons, ih, List.flatMap_cons, List.append_assoc,
      List.append_assoc]

theorem toList_intercalate_texts (p : Pattern) (args : List Pattern) :
    (",".intercalate (texts (p :: args))).toList ++ [')'] = p.text.toList ++ laterArgs args := by
  rw [texts_eq_map, String.toList_intercalate, List.map_map, List.map_cons, intercalate_cons,
    List.flatMap_map, List.append_assoc]
  rfl

theorem toList_text_op (operator : Operator) (p : Pattern) (args : List Pattern) :
    (text (.op operator (p :: args))).toList =
      operator.tag.toList ++ '(' :: (p.text.toList ++ laterArgs args) := by
  rw [text, ← toList_intercalate_texts]
  simp

theorem toList_text_module (name : String) (p : Pattern) (args : List Pattern) :
    (text (.module name (p :: args))).toList =
      Kind.moduleTag.toList ++ ':' :: (name.toList ++ '(' :: (p.text.toList ++ laterArgs args)) := by
  rw [text, ← toList_intercalate_texts]
  simp

end Pattern

namespace PatternReader

open Pattern

theorem isName_tag (operator : Operator) : IsName operator.tag := by
  cases operator <;> decide

theorem exists_cons_of_arity {operator : Operator} {args : List Pattern}
    (h : operator.arity = args.length) : ∃ p rest, args = p :: rest := by
  cases args with
  | nil => cases operator <;> cases h
  | cons p rest => exact ⟨p, rest, rfl⟩

theorem isName_moduleTag : IsName Kind.moduleTag := by decide

theorem isName_constTag : IsName Kind.constTag := by decide

theorem ends_nil : Ends [] := by
  rintro _ ⟨⟩

theorem ends_cons {m : Char} {s : List Char} (h : isIdentChar m = false) : Ends (m :: s) := by
  rintro _ ⟨⟩
  exact h

theorem ends_laterArgs (args : List Pattern) (s : List Char) : Ends (laterArgs args ++ s) := by
  cases args <;> exact ends_cons (by decide)

theorem head?_laterArgs_ne (args : List Pattern) (s : List Char) :
    (laterArgs args ++ s).head? ≠ some '(' := by
  cases args <;> simp [laterArgs]

/-! ## The written form as it is -/

theorem spaced_laterArgs {args : List Pattern} {s : List Char}
    (h : ∀ p ∈ args, ∀ {s : List Char}, Ends s → Spaced s s →
      Spaced (p.text.toList ++ s) (p.text.toList ++ s)) (hs : Spaced s s) :
    Spaced (laterArgs args ++ s) (laterArgs args ++ s) := by
  induction args with
  | nil => exact .mark (by decide) (by decide) hs
  | cons p args ih =>
    rw [List.forall_mem_cons] at h
    have hlater : laterArgs (p :: args) ++ s = ',' :: (p.text.toList ++ (laterArgs args ++ s)) := by
      simp [laterArgs]
    rw [hlater]
    exact .mark (by decide) (by decide) (h.1 (ends_laterArgs args s) (ih h.2))

/-- No white space is needed in front of what does not go on with a word. -/
theorem spaced_text {p : Pattern} (h : Readable p) {s : List Char} (hends : Ends s)
    (hs : Spaced s s) : Spaced (p.text.toList ++ s) (p.text.toList ++ s) := by
  induction h generalizing s with
  | pin hname => rw [text]; exact .word hname.word hname.nonempty hends hs
  | const => rw [text]; exact .word isName_constTag.word isName_constTag.nonempty hends hs
  | @op operator args harity _ ih =>
    obtain ⟨p, args, rfl⟩ := exists_cons_of_arity harity
    rw [List.forall_mem_cons] at ih
    have hname := isName_tag operator
    rw [toList_text_op, List.append_assoc, List.cons_append, List.append_assoc]
    refine .word hname.word hname.nonempty (ends_cons (by decide)) ?_
    refine .mark (by decide) (by decide) (ih.1 (ends_laterArgs args s) ?_)
    exact spaced_laterArgs ih.2 hs
  | @module name args hname hne _ ih =>
    obtain ⟨p, args, rfl⟩ := List.exists_cons_of_ne_nil hne
    rw [List.forall_mem_cons] at ih
    simp only [toList_text_module, List.append_assoc, List.cons_append]
    refine .word isName_moduleTag.word isName_moduleTag.nonempty (ends_cons (by decide)) ?_
    refine .mark (by decide) (by decide) ?_
    refine .word hname.word hname.nonempty (ends_cons (by decide)) ?_
    refine .mark (by decide) (by decide) (ih.1 (ends_laterArgs args s) ?_)
    exact spaced_laterArgs ih.2 hs

/-! ## Runs of the reader -/

section
variable {fuel : Nat} {c c' : Cursor} {p : Pattern} {args before : List Pattern}

/-- A module, a pin or the word for constants, or an operator. -/
theorem pattern_eq_ok_iff : pattern (fuel + 1) c = .ok (p, c') ↔ ∃ word d, ident c = .ok (word, d) ∧
    ((word = Kind.moduleTag ∧ ∃ d₁ d₂ name args, d.accept ':' = (d₁, true) ∧
        ident d₁ = .ok (name, d₂) ∧ arguments fuel d₂ = .ok (args, c') ∧ .module name args = p) ∨
      (word ≠ Kind.moduleTag ∧ d.skipBlanks.rest.head? ≠ some '(' ∧
        (if word = Kind.constTag then .const else .pin word) = p ∧ d.skipBlanks = c') ∨
      (word ≠ Kind.moduleTag ∧ d.skipBlanks.rest.head? = some '(' ∧
        ∃ operator args, Operator.ofTag? word = some operator ∧
          arguments fuel d.skipBlanks = .ok (args, c') ∧ operator.arity = args.length ∧
          .op operator args = p)) := by
  rw [pattern, bind_eq_ok]
  constructor
  · rintro ⟨⟨word, d⟩, hident, h⟩
    refine ⟨word, d, hident, ?_⟩
    dsimp only at h
    split at h
    · next hword =>
      rcases hcolon : d.accept ':' with ⟨d₁, found⟩
      rw [hcolon] at h
      cases found with
      | false => cases h
      | true =>
        obtain ⟨⟨name, d₂⟩, hname, h⟩ := ok_of_bind h
        obtain ⟨⟨args, d₃⟩, hargs, h⟩ := ok_of_bind h
        cases h
        exact .inl ⟨hword, d₁, d₂, name, args, rfl, hname, hargs, rfl⟩
    · next hword =>
      split at h
      · next hopen =>
        cases h
        exact .inr (.inl ⟨hword, hopen, rfl, rfl⟩)
      · next hopen =>
        split at h
        · cases h
        · next operator htag =>
          obtain ⟨⟨args, d'⟩, hargs, h⟩ := ok_of_bind h
          dsimp only at h
          split at h
          · next harity =>
            cases h
            exact .inr (.inr ⟨hword, not_not.1 hopen, operator, args, htag, hargs, harity, rfl⟩)
          · cases h
  · rintro ⟨word, d, hident, h⟩
    refine ⟨(word, d), hident, ?_⟩
    rcases h with ⟨hword, d₁, d₂, name, args, hcolon, hname, hargs, rfl⟩ |
      ⟨hword, hopen, rfl, rfl⟩ | ⟨hword, hopen, operator, args, htag, hargs, harity, rfl⟩
    · dsimp only
      rw [if_pos hword, hcolon]
      exact bind_eq_ok.2 ⟨_, hname, bind_eq_ok.2 ⟨_, hargs, rfl⟩⟩
    · dsimp only
      rw [if_neg hword, if_pos hopen]
      rfl
    · dsimp only
      rw [if_neg hword, if_neg (not_not.2 hopen), htag]
      exact bind_eq_ok.2 ⟨_, hargs, if_pos harity⟩

theorem arguments_eq_ok_iff : arguments (fuel + 1) c = .ok (args, c') ↔
    ∃ d first d', c.accept '(' = (d, true) ∧ pattern fuel d = .ok (first, d') ∧
      argumentsRest fuel [first] d' = .ok (args, c') := by
  rw [arguments]
  constructor
  · intro h
    rcases hopen : c.accept '(' with ⟨d, found⟩
    rw [hopen] at h
    cases found with
    | false => cases h
    | true =>
      obtain ⟨⟨first, d'⟩, hfirst, h⟩ := ok_of_bind h
      exact ⟨d, first, d', rfl, hfirst, h⟩
  · rintro ⟨d, first, d', hopen, hfirst, hrest⟩
    rw [hopen]
    exact bind_eq_ok.2 ⟨_, hfirst, hrest⟩

theorem argumentsRest_eq_ok_iff : argumentsRest (fuel + 1) before c = .ok (args, c') ↔
    (∃ d next d', c.accept ',' = (d, true) ∧ pattern fuel d = .ok (next, d') ∧
        argumentsRest fuel (before ++ [next]) d' = .ok (args, c')) ∨
      ∃ d, c.accept ',' = (d, false) ∧ d.accept ')' = (c', true) ∧ before = args := by
  rw [argumentsRest]
  constructor
  · intro h
    rcases hcomma : c.accept ',' with ⟨d, more⟩
    rw [hcomma] at h
    cases more with
    | true =>
      obtain ⟨⟨next, d'⟩, hnext, h⟩ := ok_of_bind h
      exact .inl ⟨d, next, d', rfl, hnext, h⟩
    | false =>
      rcases hclose : d.accept ')' with ⟨d', closed⟩
      simp only [hclose, if_neg Bool.false_ne_true] at h
      cases closed with
      | false => cases h
      | true =>
        cases h
        exact .inr ⟨d, rfl, hclose, rfl⟩
  · rintro (⟨d, next, d', hcomma, hnext, hrest⟩ | ⟨d, hcomma, hclose, rfl⟩)
    · rw [hcomma]
      exact bind_eq_ok.2 ⟨_, hnext, hrest⟩
    · rw [hcomma]
      simp only [hclose]
      rfl

end

/-! ## Reading what is written -/

/-- In front of a text that goes on with neither a word nor a parenthesis, the pattern is read from
its written form with white space in it, if there is more fuel than text. -/
def Reads (p : Pattern) : Prop :=
  ∀ (fuel : Nat) {c : Cursor} {s : List Char}, c.rest.length < fuel → Ends s → s.head? ≠ some '(' →
    Spaced (p.text.toList ++ s) c.rest →
      ∃ c', pattern fuel c = .ok (p, c') ∧ Spaced s c'.rest ∧ c'.rest.length < c.rest.length

/-- The arguments behind the first one are read up to the parenthesis. -/
theorem argumentsRest_of_spaced {args : List Pattern} (h : ∀ p ∈ args, Reads p) (fuel : Nat)
    {c : Cursor} {s : List Char} (before : List Pattern) (hfuel : c.rest.length < fuel)
    (hs : Spaced (laterArgs args ++ s) c.rest) :
    ∃ c', argumentsRest fuel before c = .ok (before ++ args, c') ∧ Spaced s c'.rest ∧
      c'.rest.length < c.rest.length := by
  induction args generalizing c before fuel with
  | nil =>
    obtain ⟨fuel, rfl⟩ := Nat.exists_eq_add_one_of_ne_zero (show fuel ≠ 0 by omega)
    have hcomma := accept_of_head?_ne (m := ',') hs (by simp [laterArgs])
    obtain ⟨c', hclose, hs', hlt⟩ := accept_of_spaced (m := ')') (by decide)
      (show Spaced (')' :: s) c.skipBlanks.rest from spaced_skipBlanks.2 hs)
    rw [List.append_nil]
    exact ⟨c', argumentsRest_eq_ok_iff.2 (.inr ⟨_, hcomma, hclose, rfl⟩), hs',
      Nat.lt_of_lt_of_le hlt (length_rest_skipBlanks_le c)⟩
  | cons p args ih =>
    obtain ⟨fuel, rfl⟩ := Nat.exists_eq_add_one_of_ne_zero (show fuel ≠ 0 by omega)
    rw [List.forall_mem_cons] at h
    have hs : Spaced (',' :: (p.text.toList ++ (laterArgs args ++ s))) c.rest := by
      simpa [laterArgs] using hs
    obtain ⟨d, hcomma, hs, hlt⟩ := accept_of_spaced (by decide) hs
    obtain ⟨d', hnext, hs, hlt'⟩ := h.1 fuel (by omega) (ends_laterArgs args s)
      (head?_laterArgs_ne args s) hs
    obtain ⟨c', hrest, hs, hlt''⟩ := ih h.2 fuel (before ++ [p]) (by omega) hs
    have hrun := argumentsRest_eq_ok_iff.2 (.inl ⟨d, p, d', hcomma, hnext, hrest⟩)
    rw [List.append_assoc, List.singleton_append] at hrun
    exact ⟨c', hrun, hs, by omega⟩

theorem arguments_of_spaced {p : Pattern} {args : List Pattern} (h : ∀ q ∈ p :: args, Reads q)
    (fuel : Nat) {c : Cursor} {s : List Char} (hfuel : c.rest.length < fuel)
    (hs : Spaced ('(' :: (p.text.toList ++ (laterArgs args ++ s))) c.rest) :
    ∃ c', arguments fuel c = .ok (p :: args, c') ∧ Spaced s c'.rest ∧
      c'.rest.length < c.rest.length := by
  obtain ⟨fuel, rfl⟩ := Nat.exists_eq_add_one_of_ne_zero (show fuel ≠ 0 by omega)
  rw [List.forall_mem_cons] at h
  obtain ⟨d, hopen, hs, hlt⟩ := accept_of_spaced (by decide) hs
  obtain ⟨d', hfirst, hs, hlt'⟩ := h.1 fuel (by omega) (ends_laterArgs args s)
    (head?_laterArgs_ne args s) hs
  obtain ⟨c', hrest, hs, hlt''⟩ := argumentsRest_of_spaced h.2 fuel [p] (by omega) hs
  exact ⟨c', arguments_eq_ok_iff.2 ⟨d, p, d', hopen, hfirst, hrest⟩, hs, by omega⟩

/-- A word that no parenthesis follows stands for itself. -/
theorem reads_word {word : String} (hname : IsName word) (hmodule : word ≠ Kind.moduleTag)
    {p : Pattern} (hp : (if word = Kind.constTag then .const else .pin word) = p)
    (htext : p.text = word) : Reads p := by
  intro fuel c s hfuel hends hopen hs
  obtain ⟨fuel, rfl⟩ := Nat.exists_eq_add_one_of_ne_zero (show fuel ≠ 0 by omega)
  obtain ⟨d, hident, hs, hlt⟩ := ident_of_spaced hname hends (htext ▸ hs)
  have hhead : d.skipBlanks.rest.head? ≠ some '(' := by rwa [head?_skipBlanks hs]
  have hrun : pattern (fuel + 1) c = .ok (p, d.skipBlanks) :=
    pattern_eq_ok_iff.2 ⟨word, d, hident, .inr (.inl ⟨hmodule, hhead, hp, rfl⟩)⟩
  exact ⟨d.skipBlanks, hrun, spaced_skipBlanks.2 hs,
    Nat.lt_of_le_of_lt (length_rest_skipBlanks_le d) hlt⟩

theorem reads_op {operator : Operator} {args : List Pattern}
    (harity : operator.arity = args.length) (h : ∀ p ∈ args, Reads p) :
    Reads (.op operator args) := by
  intro fuel c s hfuel hends hopen hs
  obtain ⟨fuel, rfl⟩ := Nat.exists_eq_add_one_of_ne_zero (show fuel ≠ 0 by omega)
  obtain ⟨p, args, rfl⟩ := exists_cons_of_arity harity
  rw [toList_text_op, List.append_assoc, List.cons_append, List.append_assoc] at hs
  obtain ⟨d, hident, hs, hlt⟩ := ident_of_spaced (isName_tag operator) (ends_cons (by decide)) hs
  have hhead : d.skipBlanks.rest.head? = some '(' := head?_skipBlanks hs
  obtain ⟨c', hargs, hs, hlt'⟩ := arguments_of_spaced h fuel (c := d.skipBlanks)
    (by have := length_rest_skipBlanks_le d; omega) (spaced_skipBlanks.2 hs)
  have hmodule : operator.tag ≠ Kind.moduleTag := by cases operator <;> decide
  have hrun := pattern_eq_ok_iff.2 ⟨operator.tag, d, hident, .inr (.inr ⟨hmodule, hhead, operator,
    p :: args, Operator.ofTag?_tag operator, hargs, harity, rfl⟩)⟩
  exact ⟨c', hrun, hs, by have := length_rest_skipBlanks_le d; omega⟩

theorem reads_module {name : String} {args : List Pattern} (hname : IsName name)
    (hne : args ≠ []) (h : ∀ p ∈ args, Reads p) : Reads (.module name args) := by
  intro fuel c s hfuel hends hopen hs
  obtain ⟨fuel, rfl⟩ := Nat.exists_eq_add_one_of_ne_zero (show fuel ≠ 0 by omega)
  obtain ⟨p, args, rfl⟩ := List.exists_cons_of_ne_nil hne
  simp only [toList_text_module, List.append_assoc, List.cons_append] at hs
  obtain ⟨d, hident, hs, hlt⟩ := ident_of_spaced isName_moduleTag (ends_cons (by decide)) hs
  obtain ⟨d₁, hcolon, hs, hlt₁⟩ := accept_of_spaced (by decide) hs
  obtain ⟨d₂, hword, hs, hlt₂⟩ := ident_of_spaced hname (ends_cons (by decide)) hs
  obtain ⟨c', hargs, hs, hlt'⟩ := arguments_of_spaced h fuel (by omega) hs
  have hrun := pattern_eq_ok_iff.2 ⟨Kind.moduleTag, d, hident,
    .inl ⟨rfl, d₁, d₂, name, p :: args, hcolon, hword, hargs, rfl⟩⟩
  exact ⟨c', hrun, hs, by omega⟩

theorem reads_of_readable {p : Pattern} (h : Readable p) : Reads p := by
  induction h with
  | pin hname hconst hmodule => exact reads_word hname hmodule (if_neg hconst) (by rw [text])
  | const => exact reads_word isName_constTag (by decide) (if_pos rfl) (by rw [text])
  | op harity _ ih => exact reads_op harity ih
  | module hname hne _ ih => exact reads_module hname hne ih

/-! ## What is read was written -/

/-- What the readers take, with some fuel, is the written form of what they read with white space in
it. -/
structure Sound (fuel : Nat) : Prop where
  pattern : ∀ {c c' : Cursor} {p : Pattern}, pattern fuel c = .ok (p, c') → Readable p ∧
    ∀ {s : List Char}, Ends s → Spaced s c'.rest → Spaced (p.text.toList ++ s) c.rest
  arguments : ∀ {c c' : Cursor} {args : List Pattern}, arguments fuel c = .ok (args, c') →
    ∃ p rest, args = p :: rest ∧ (∀ q ∈ p :: rest, Readable q) ∧ ∀ {s : List Char},
      Spaced s c'.rest → Spaced ('(' :: (p.text.toList ++ (laterArgs rest ++ s))) c.rest
  argumentsRest : ∀ {c c' : Cursor} {before args : List Pattern},
    argumentsRest fuel before c = .ok (args, c') →
      ∃ rest, args = before ++ rest ∧ (∀ p ∈ rest, Readable p) ∧ ∀ {s : List Char},
        Spaced s c'.rest → Spaced (laterArgs rest ++ s) c.rest

namespace Sound

variable {fuel : Nat} {c c' : Cursor} {p : Pattern} {args before : List Pattern}

theorem zero : Sound 0 := by
  constructor <;> nofun

theorem pattern_succ (ih : Sound fuel) (h : PatternReader.pattern (fuel + 1) c = .ok (p, c')) :
    Readable p ∧
      ∀ {s : List Char}, Ends s → Spaced s c'.rest → Spaced (p.text.toList ++ s) c.rest := by
  obtain ⟨word, d, hident, h⟩ := pattern_eq_ok_iff.1 h
  obtain ⟨hword, hfront⟩ := spaced_of_ident hident
  rcases h with ⟨rfl, d₁, d₂, name, args, hcolon, hident', hargs, rfl⟩ |
    ⟨hmodule, -, rfl, rfl⟩ | ⟨-, -, operator, args, htag, hargs, harity, rfl⟩
  · obtain ⟨hname, hmiddle⟩ := spaced_of_ident hident'
    obtain ⟨q, rest, rfl, hreadable, hback⟩ := ih.arguments hargs
    refine ⟨.module hname (List.cons_ne_nil _ _) hreadable, fun _ hs => ?_⟩
    simp only [toList_text_module, List.append_assoc, List.cons_append]
    refine hfront (ends_cons (by decide)) (spaced_of_accept (by decide) (by decide) hcolon ?_)
    exact hmiddle (ends_cons (by decide)) (hback hs)
  · have htext : (if word = Kind.constTag then Pattern.const else .pin word).text = word := by
      split
      · next hconst => rw [text, hconst]
      · rw [text]
    refine ⟨?_, fun hends hs => ?_⟩
    · split
      · exact .const
      · next hconst => exact .pin hword hconst hmodule
    · rw [htext]
      exact hfront hends (spaced_skipBlanks.1 hs)
  · obtain ⟨q, rest, rfl, hreadable, hback⟩ := ih.arguments hargs
    have htag : operator.tag = word := by simpa using List.find?_some htag
    refine ⟨.op harity hreadable, fun _ hs => ?_⟩
    rw [toList_text_op, htag, List.append_assoc, List.cons_append, List.append_assoc]
    exact hfront (ends_cons (by decide)) (spaced_skipBlanks.1 (hback hs))

theorem arguments_succ (ih : Sound fuel)
    (h : PatternReader.arguments (fuel + 1) c = .ok (args, c')) :
    ∃ p rest, args = p :: rest ∧ (∀ q ∈ p :: rest, Readable q) ∧ ∀ {s : List Char},
      Spaced s c'.rest → Spaced ('(' :: (p.text.toList ++ (laterArgs rest ++ s))) c.rest := by
  obtain ⟨d, first, d', hopen, hfirst, hrest⟩ := arguments_eq_ok_iff.1 h
  obtain ⟨hreadable, hfront⟩ := ih.pattern hfirst
  obtain ⟨rest, rfl, hall, hback⟩ := ih.argumentsRest hrest
  refine ⟨first, rest, rfl, List.forall_mem_cons.2 ⟨hreadable, hall⟩, fun hs => ?_⟩
  exact spaced_of_accept (by decide) (by decide) hopen (hfront (ends_laterArgs _ _) (hback hs))

theorem argumentsRest_succ (ih : Sound fuel)
    (h : PatternReader.argumentsRest (fuel + 1) before c = .ok (args, c')) :
    ∃ rest, args = before ++ rest ∧ (∀ p ∈ rest, Readable p) ∧ ∀ {s : List Char},
      Spaced s c'.rest → Spaced (laterArgs rest ++ s) c.rest := by
  rcases argumentsRest_eq_ok_iff.1 h with ⟨d, next, d', hcomma, hnext, hrest⟩ |
    ⟨d, hcomma, hclose, rfl⟩
  · obtain ⟨hreadable, hfront⟩ := ih.pattern hnext
    obtain ⟨rest, rfl, hall, hback⟩ := ih.argumentsRest hrest
    refine ⟨next :: rest, by rw [List.append_assoc]; rfl,
      List.forall_mem_cons.2 ⟨hreadable, hall⟩, fun hs => ?_⟩
    have hlater : laterArgs (next :: rest) = ',' :: (next.text.toList ++ laterArgs rest) := by
      simp [laterArgs]
    rw [hlater, List.cons_append, List.append_assoc]
    exact spaced_of_accept (by decide) (by decide) hcomma (hfront (ends_laterArgs _ _) (hback hs))
  · refine ⟨[], (List.append_nil _).symm, nofun, fun hs => ?_⟩
    rw [← spaced_skipBlanks, ← accept_fst_of_false hcomma]
    exact spaced_of_accept (by decide) (by decide) hclose hs

end Sound

/-- The readers call each other with less fuel. -/
theorem sound (fuel : Nat) : Sound fuel := by
  induction fuel with
  | zero => exact .zero
  | succ fuel ih => exact ⟨ih.pattern_succ, ih.arguments_succ, ih.argumentsRest_succ⟩

end PatternReader

open PatternReader

/-- A text is read as a pattern exactly if it is the written form with white space in it, and the
pattern can be read at all. -/
theorem Pattern.parse_eq_ok_iff {source : String} {p : Pattern} :
    Pattern.parse source = .ok p ↔ p.Readable ∧ Spaced p.text.toList source.toList := by
  rw [Pattern.parse, bind_eq_ok]
  constructor
  · rintro ⟨⟨q, c⟩, hrun, h⟩
    dsimp only at h
    split at h
    · next hempty =>
      cases h
      obtain ⟨hreadable, hspaced⟩ := (sound _).pattern hrun
      have hnil : Spaced [] c.rest := by
        rw [← spaced_skipBlanks, List.isEmpty_iff.1 hempty]
        exact .nil
      rw [← List.append_nil p.text.toList]
      exact ⟨hreadable, hspaced ends_nil hnil⟩
    · cases h
  · rintro ⟨hreadable, hspaced⟩
    rw [← List.append_nil p.text.toList] at hspaced
    obtain ⟨c, hrun, hnil, -⟩ := reads_of_readable hreadable (3 * (source.toList.length + 1))
      (c := ⟨0, source.toList⟩) (by show source.toList.length < _; omega) ends_nil
      (by simp) hspaced
    refine ⟨(p, c), hrun, if_pos ?_⟩
    rw [rest_skipBlanks, hnil.of_nil]
    rfl

theorem Pattern.Readable.parse_text {p : Pattern} (h : p.Readable) :
    Pattern.parse p.text = .ok p := by
  have hspaced := spaced_text h ends_nil .nil
  rw [List.append_nil] at hspaced
  exact parse_eq_ok_iff.2 ⟨h, hspaced⟩

/-- Writing and reading patterns fit together: a text is read as a pattern exactly if the pattern can
be read at all and the text is its written form with white space around its words and marks. Those
are the patterns whose names are identifiers and whose operators have their operands. -/
theorem Pattern.parse_spaced (source : String) (p : Pattern) :
    (Pattern.parse source = .ok p ↔
      (∃ source', Pattern.parse source' = .ok p) ∧ Spaced p.text.toList source.toList) ∧
    ((∃ source', Pattern.parse source' = .ok p) ↔ p.Readable) := by
  have hreadable : (∃ source', Pattern.parse source' = .ok p) ↔ p.Readable :=
    ⟨fun ⟨_, h⟩ => (parse_eq_ok_iff.1 h).1, fun h => ⟨p.text, h.parse_text⟩⟩
  rw [hreadable]
  exact ⟨parse_eq_ok_iff, Iff.rfl⟩

end GateSynth
