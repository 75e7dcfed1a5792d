import GateSynth.Proofs.Verilog.LineIndex

/-!
# Lexing loses nothing

The tokens of a source text and the gaps between them are the whole text (`tokenize_laid`): every
gap consists of blanks and complete comments, and every token is the longest lexeme at its place,
stands for its characters, and is what they are alone (`Placed`). The spans are therefore not
empty, in order and disjoint.
-/

namespace GateSynth.Verilog

open Lexeme

/-! ## Layouts -/

/-- Blanks and complete comments between tokens, each as long as the text behind it lets it be. -/
inductive Gap : List Char → List Char → Prop
  | nil {after : List Char} : Gap [] after
  | cons {piece gap after : List Char} (skipped : Skipped piece)
    (longest : Longest piece (piece ++ (gap ++ after))) (rest : Gap gap after) :
    Gap (piece ++ gap) after

/-- A token of the lexeme between two parts of a text. -/
structure Placed (before lexeme after : List Char) (t : Spanned) : Prop where
  start : t.start = Position.byteCount before
  stop : t.stop = Position.byteCount (before ++ lexeme)
  longest : Longest lexeme (lexeme ++ after)
  denotes : Denotes lexeme t.token
  alone : tokenize (String.ofList lexeme) =
    .ok [⟨t.token, 0, Position.byteCount lexeme, .first⟩]
  pos : t.pos =
    ⟨1 + before.count '\n', 1 + (before.reverse.takeWhile (· ≠ '\n')).length⟩

/-- A text behind another one is gaps and the lexemes of tokens, and nothing else. -/
inductive Laid : List Char → List Char → List Spanned → Prop
  | nil {before text : List Char} (gap : Gap text []) : Laid before text []
  | cons {before skipped lexeme after : List Char} {t : Spanned} {tokens : List Spanned}
    (gap : Gap skipped (lexeme ++ after)) (placed : Placed (before ++ skipped) lexeme after t)
    (rest : Laid (before ++ skipped ++ lexeme) after tokens) :
    Laid before (skipped ++ (lexeme ++ after)) (t :: tokens)

theorem Laid.skip {before piece text : List Char} {tokens : List Spanned} (hskipped : Skipped piece)
    (hlongest : Longest piece (piece ++ text)) (h : Laid (before ++ piece) text tokens) :
    Laid before (piece ++ text) tokens := by
  cases h with
  | nil gap => exact .nil (.cons hskipped (by rwa [List.append_nil]) gap)
  | cons gap placed rest =>
    rw [List.append_assoc before] at placed rest
    rw [← List.append_assoc piece]
    exact .cons (.cons hskipped hlongest gap) placed rest

/-- A lexeme alone is its token. -/
theorem tokenize_lexeme {lexeme after : List Char} {t : Token} (h : Cut lexeme (.token t) after) :
    tokenize (String.ofList lexeme) = .ok [⟨t, 0, Position.byteCount lexeme, .first⟩] := by
  obtain ⟨c, more, rfl⟩ := List.exists_cons_of_ne_nil h.ne_nil
  have hfront : front c more = (c :: more, .token t) := by
    have hfront := front_of_cut h.alone
    rwa [List.append_nil] at hfront
  have hnil : ∀ n offset pos, tokenizeStepping n offset pos [] = .ok [] := fun n _ _ => by
    cases n <;> rfl
  rw [tokenize_ofList, List.length_cons, tokenizeStepping, hfront]
  simp only [List.drop_length, hnil, Nat.zero_add]

/-- The tokens behind a part of a text. -/
theorem laid_of_tokenizeFrom {lexemes : Nat} {before text : List Char} {tokens : List Spanned}
    (hlength : text.length ≤ lexemes)
    (h : tokenizeFrom (.ofChars (before ++ text)) lexemes (Position.byteCount before) text =
      .ok tokens) : Laid before text tokens := by
  induction lexemes generalizing before text tokens with
  | zero =>
    obtain rfl : text = [] := List.length_eq_zero_iff.1 (Nat.le_zero.1 hlength)
    cases h
    exact .nil .nil
  | succ lexemes ih =>
    cases text with
    | nil =>
      cases h
      exact .nil .nil
    | cons c rest =>
      rw [tokenizeFrom] at h
      cases hfront : front c rest with
      | mk lexeme verdict =>
      have hbad : verdict ≠ .bad := by
        rintro rfl
        rw [hfront] at h
        cases h
      obtain ⟨after, htext, hcut⟩ := cut_of_front hfront hbad
      rw [hfront, htext, ← List.append_assoc] at h
      simp only [List.drop_left, ← Position.byteCount_append] at h
      have hafter : after.length ≤ lexemes := by
        have hpos := List.length_pos_iff.2 hcut.ne_nil
        rw [htext, List.length_append] at hlength
        omega
      rw [htext]
      cases verdict with
      | blank => exact (ih hafter h).skip hcut.skipped (hcut.longest (.inl hcut.skipped))
      | bad => exact absurd rfl hbad
      | token t =>
        dsimp only at h
        split at h
        · next tokens htokens =>
          cases h
          have hgap : Gap [] (lexeme ++ after) := .nil
          refine Laid.cons hgap ?_ ?_
          · rw [List.append_nil]
            refine ⟨rfl, rfl, hcut.longest (.inr hcut.denotes.shape), hcut.denotes,
              tokenize_lexeme hcut, ?_⟩
            rw [List.append_assoc]
            exact LineIndex.pos_byteCount before (lexeme ++ after)
          · rw [List.append_nil]
            exact ih hafter htokens
        · cases h

/-- The tokens of a source text and the gaps between them are the whole text. -/
theorem tokenize_laid {source : String} {tokens : List Spanned} (h : tokenize source = .ok tokens) :
    Laid [] source.toList tokens :=
  laid_of_tokenizeFrom (Nat.le_refl _) h

/-! ## Spans -/

/-- The byte ranges before, between and after tokens. -/
def gapsBetween (start stop : Nat) : List Spanned → List (Nat × Nat)
  | [] => [(start, stop)]
  | t :: rest => (start, t.start) :: gapsBetween t.stop stop rest

section
variable {before text : List Char} {tokens : List Spanned}

theorem Placed.start_lt_stop {lexeme after : List Char} {t : Spanned}
    (h : Placed before lexeme after t) : t.start < t.stop := by
  have hne : lexeme ≠ [] := by
    rintro rfl
    cases h.denotes.shape.ne_nil rfl
  rw [h.start, h.stop, Position.byteCount_append]
  exact Nat.lt_add_of_pos_right (Position.byteCount_pos hne)

theorem Laid.placed (h : Laid before text tokens) :
    ∀ t ∈ tokens, ∃ front lexeme after, before ++ text = before ++ front ++ lexeme ++ after ∧
      Placed (before ++ front) lexeme after t := by
  induction h with
  | nil => exact List.forall_mem_nil _
  | @cons before skipped lexeme after t tokens gap placed rest ih =>
    refine List.forall_mem_cons.2 ⟨⟨skipped, lexeme, after, by simp, placed⟩, fun u hu => ?_⟩
    obtain ⟨front, lexeme', after', htext, hplaced⟩ := ih u hu
    exact ⟨skipped ++ lexeme ++ front, lexeme', after', by simpa using htext,
      by simpa using hplaced⟩

theorem Laid.ordered (h : Laid before text tokens) :
    tokens.Pairwise fun t u => t.stop ≤ u.start := by
  induction h with
  | nil => exact .nil
  | @cons before skipped lexeme after t tokens gap placed rest ih =>
    refine .cons (fun u hu => ?_) ih
    obtain ⟨front, lexeme', after', -, hplaced⟩ := rest.placed u hu
    rw [placed.stop, hplaced.start, Position.byteCount_append _ front]
    exact Nat.le_add_right _ _

theorem Laid.gaps (h : Laid before text tokens) :
    ∀ r ∈ gapsBetween (Position.byteCount before) (Position.byteCount (before ++ text)) tokens,
      ∃ front gap after, before ++ text = front ++ gap ++ after ∧
        r = (Position.byteCount front, Position.byteCount (front ++ gap)) ∧ Gap gap after := by
  induction h with
  | @nil before text gap =>
    exact List.forall_mem_singleton.2 ⟨before, text, [], by simp, rfl, gap⟩
  | @cons before skipped lexeme after t tokens gap placed rest ih =>
    refine List.forall_mem_cons.2 ⟨⟨before, skipped, lexeme ++ after, by simp, ?_, gap⟩, ?_⟩
    · rw [placed.start]
    · rw [← placed.stop] at ih
      simpa using ih

end

/-- The text of a source between, before and after its tokens is blanks and complete comments; the
spans of the tokens are not empty, in order and disjoint; and every token is the longest lexeme
where it starts, stands for its characters, is what they are alone, and knows its position, which
is the one of its byte offset. -/
theorem tokenize_covers {source : String} {tokens : List Spanned}
    (h : tokenize source = .ok tokens) :
    (∀ t ∈ tokens, t.start < t.stop) ∧ (tokens.Pairwise fun t u => t.stop ≤ u.start) ∧
      (∀ r ∈ gapsBetween 0 (Position.byteCount source.toList) tokens, ∃ before gap after,
        source.toList = before ++ gap ++ after ∧
          r = (Position.byteCount before, Position.byteCount (before ++ gap)) ∧ Gap gap after) ∧
      ∀ t ∈ tokens, t.pos = Position.ofOffset source t.start ∧ ∃ before lexeme after,
        source.toList = before ++ lexeme ++ after ∧ Placed before lexeme after t := by
  have hlaid := tokenize_laid h
  have hplaced : ∀ t ∈ tokens, ∃ before lexeme after, source.toList = before ++ lexeme ++ after ∧
      Placed before lexeme after t := fun t ht => by
    obtain ⟨before, lexeme, after, htext, hplaced⟩ := hlaid.placed t ht
    exact ⟨before, lexeme, after, htext, hplaced⟩
  refine ⟨fun t ht => ?_, hlaid.ordered, hlaid.gaps, fun t ht => ⟨?_, hplaced t ht⟩⟩
  · obtain ⟨before, lexeme, after, -, hplaced⟩ := hplaced t ht
    exact hplaced.start_lt_stop
  · obtain ⟨before, lexeme, after, htext, hplaced⟩ := hplaced t ht
    rw [List.append_assoc] at htext
    rw [hplaced.start, hplaced.pos, Position.ofOffset, htext, LineIndex.pos_byteCount]

/-- Comments beside a division, characters of several bytes, both spellings of exclusive nor, and a
literal with an underscore. -/
theorem tokenize_covers_mixed :
    tokenize "/* é/**/ a$1~^^~<=/8'hF_f//ü\n input" = .ok
        [⟨.ident "a$1", 10, 13, ⟨1, 10⟩⟩, ⟨.mark .xnor, 13, 15, ⟨1, 13⟩⟩,
          ⟨.mark .xnor, 15, 17, ⟨1, 15⟩⟩, ⟨.mark .lessEqual, 17, 19, ⟨1, 17⟩⟩,
          ⟨.mark .slash, 19, 20, ⟨1, 19⟩⟩, ⟨.sized 8 255, 20, 26, ⟨1, 20⟩⟩,
          ⟨.keyword .input, 32, 37, ⟨2, 2⟩⟩] ∧
      (∃ before gap after, "/* é/**/ a$1~^^~<=/8'hF_f//ü\n input".toList = before ++ gap ++ after ∧
        (26, 32) = (Position.byteCount before, Position.byteCount (before ++ gap)) ∧
        Gap gap after) ∧
      ∃ before lexeme after,
        "/* é/**/ a$1~^^~<=/8'hF_f//ü\n input".toList = before ++ lexeme ++ after ∧
          Placed before lexeme after ⟨.sized 8 255, 20, 26, ⟨1, 20⟩⟩ := by
  have h : tokenize "/* é/**/ a$1~^^~<=/8'hF_f//ü\n input" = .ok
      [⟨.ident "a$1", 10, 13, ⟨1, 10⟩⟩, ⟨.mark .xnor, 13, 15, ⟨1, 13⟩⟩,
        ⟨.mark .xnor, 15, 17, ⟨1, 15⟩⟩, ⟨.mark .lessEqual, 17, 19, ⟨1, 17⟩⟩,
        ⟨.mark .slash, 19, 20, ⟨1, 19⟩⟩, ⟨.sized 8 255, 20, 26, ⟨1, 20⟩⟩,
        ⟨.keyword .input, 32, 37, ⟨2, 2⟩⟩] := by decide +kernel
  obtain ⟨-, -, hgaps, hplaced⟩ := tokenize_covers h
  exact ⟨h, hgaps (26, 32) (by decide), (hplaced _ (by decide)).2⟩

end GateSynth.Verilog
