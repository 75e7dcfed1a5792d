import GateSynth.Library.PatternReader
import Mathlib.Data.List.TakeWhile

/-!
# White space between words and marks

The written form of a pattern has no white space. `Spaced` says of another text that it is this form
with white space in front of its words and marks and behind them, and nowhere within a word. What
the steps of the reader take from such a text is the next word or mark (`ident_of_spaced`,
`accept_of_spaced`), and any text from which they take it is of this kind (`spaced_of_ident`,
`spaced_of_accept`).
-/

namespace GateSynth.PatternReader

/-- No word goes on at the front of the text. -/
def Ends (s : List Char) : Prop := ∀ c ∈ s.head?, isIdentChar c = false

/-- A text without white space, and the same text with white space anywhere but within its words. -/
inductive Spaced : List Char → List Char → Prop
  | nil : Spaced [] []
  | blank {b : Char} {s cs : List Char} (blank : Blank.isBlank b = true) (rest : Spaced s cs) :
    Spaced s (b :: cs)
  | mark {m : Char} {s cs : List Char} (mark : isIdentChar m = false)
    (visible : Blank.isBlank m = false) (rest : Spaced s cs) : Spaced (m :: s) (m :: cs)
  /-- The word ends here, so that none of it is left to stand behind white space. -/
  | word {w s cs : List Char} (word : ∀ c ∈ w, isIdentChar c = true)
    (nonempty : w ≠ []) (ends : Ends s) (rest : Spaced s cs) : Spaced (w ++ s) (w ++ cs)

/-- The name is an identifier. -/
structure IsName (name : String) : Prop where
  nonempty : name.toList ≠ []
  word : ∀ c ∈ name.toList, isIdentChar c = true
  letter : ∀ c ∈ name.toList.head?, isDigit c = false

theorem isName_iff {name : String} : IsName name ↔ name.toList ≠ [] ∧
    name.toList.all isIdentChar = true ∧ name.toList.head?.all (!isDigit ·) = true := by
  simp only [List.all_eq_true, Option.all_eq_true, Bool.not_eq_true']
  exact ⟨fun ⟨nonempty, word, letter⟩ => ⟨nonempty, word, letter⟩,
    fun ⟨nonempty, word, letter⟩ => ⟨nonempty, word, letter⟩⟩

instance (name : String) : Decidable (IsName name) := decidable_of_iff _ isName_iff.symm

theorem not_blank_of_isIdentChar {c : Char} (h : isIdentChar c = true) :
    Blank.isBlank c = false := by
  have hle : ∀ a b : Char, a ≤ b ↔ a.toNat ≤ b.toNat := fun _ _ => Iff.rfl
  simp only [isIdentChar, isDigit, Bool.or_eq_true, Bool.and_eq_true, decide_eq_true_eq, beq_iff_eq,
    hle] at h
  have hrange : 0x30 ≤ c.toNat ∧ c.toNat ≤ 0x7A := by
    rcases h with ((h | h) | h) | rfl
    · exact ⟨h.1, Nat.le_trans h.2 (by decide)⟩
    · exact ⟨Nat.le_trans (by decide) h.1, h.2⟩
    · exact ⟨Nat.le_trans (by decide) h.1, Nat.le_trans h.2 (by decide)⟩
    · decide
  simp only [Blank.isBlank, Blank.ranges, List.any_cons, List.any_nil, Bool.or_eq_false_iff,
    Bool.and_eq_false_iff, decide_eq_false_iff_not, and_true]
  omega

namespace Spaced

variable {s cs : List Char} {m : Char} {w : List Char}

theorem blanks {bs : List Char} (hbs : ∀ b ∈ bs, Blank.isBlank b = true) (h : Spaced s cs) :
    Spaced s (bs ++ cs) := by
  induction bs with
  | nil => exact h
  | cons b bs ih =>
    rw [List.forall_mem_cons] at hbs
    exact .blank hbs.1 (ih hbs.2)

/-- Behind the white space in front, the text goes on like the one without white space. -/
theorem head?_dropWhile (h : Spaced s cs) :
    Spaced s (cs.dropWhile Blank.isBlank) ∧ (cs.dropWhile Blank.isBlank).head? = s.head? := by
  induction h with
  | nil => exact ⟨.nil, rfl⟩
  | blank hblank _ ih => rwa [List.dropWhile_cons_of_pos hblank]
  | mark hmark hvisible hrest =>
    rw [List.dropWhile_cons_of_neg (by simp [hvisible])]
    exact ⟨.mark hmark hvisible hrest, rfl⟩
  | @word w s cs hword hne hends hrest =>
    obtain ⟨c, w, rfl⟩ := List.exists_cons_of_ne_nil hne
    have hvisible := not_blank_of_isIdentChar (hword c (.head _))
    rw [List.cons_append, List.cons_append, List.dropWhile_cons_of_neg (by simp [hvisible])]
    exact ⟨.word hword hne hends hrest, rfl⟩

/-- A mark in front of the text stands in front of the other one, if that starts with no white
space. -/
theorem of_mark (h : Spaced (m :: s) cs) (hmark : isIdentChar m = false)
    (hfront : ∀ c ∈ cs.head?, Blank.isBlank c = false) : ∃ cs', cs = m :: cs' ∧ Spaced s cs' := by
  generalize hs : m :: s = ms at h
  cases h with
  | nil => cases hs
  | blank hblank _ => cases hblank.symm.trans (hfront _ rfl)
  | mark _ _ hrest =>
    cases hs
    exact ⟨_, rfl, hrest⟩
  | @word w _ _ hword hne _ _ =>
    obtain ⟨c, w, rfl⟩ := List.exists_cons_of_ne_nil hne
    cases hs
    cases hmark.symm.trans (hword m (.head _))

/-- A word in front of the text stands there too. -/
theorem of_word (h : Spaced (w ++ s) cs) (hword : ∀ c ∈ w, isIdentChar c = true) (hne : w ≠ [])
    (hends : Ends s) (hfront : ∀ c ∈ cs.head?, Blank.isBlank c = false) :
    ∃ cs', cs = w ++ cs' ∧ Spaced s cs' := by
  obtain ⟨c, v, rfl⟩ := List.exists_cons_of_ne_nil hne
  generalize hs : c :: v ++ s = ws at h
  cases h with
  | nil => cases hs
  | blank hblank _ => cases hblank.symm.trans (hfront _ rfl)
  | mark hmark _ _ =>
    cases hs
    cases hmark.symm.trans (hword c (.head _))
  | @word w' s' cs' hword' _ hends' hrest =>
    -- both words are all the characters of words in front of the text
    have htake : ∀ {w s : List Char}, (∀ c ∈ w, isIdentChar c = true) → Ends s →
        (w ++ s).takeWhile isIdentChar = w := by
      intro w s hword hends
      rw [List.takeWhile_append_of_pos hword]
      cases s with
      | nil => simp
      | cons c s => rw [List.takeWhile_cons_of_neg (by simp [hends c rfl]), List.append_nil]
    have hw : c :: v = w' := by rw [← htake hword hends, hs, htake hword' hends']
    rw [hw] at hs
    rw [hw]
    exact ⟨cs', rfl, List.append_cancel_left hs ▸ hrest⟩

/-- The text of nothing but white space. -/
theorem of_nil (h : Spaced [] cs) : cs.dropWhile Blank.isBlank = [] :=
  List.head?_eq_none_iff.1 h.head?_dropWhile.2

/-- A word does not go on behind a word. -/
theorem ends (h : Spaced s cs) (hs : Ends s) : Ends cs := by
  cases h with
  | nil => exact hs
  | @blank b _ _ hblank _ =>
    rintro _ ⟨⟩
    by_contra hword
    cases hblank.symm.trans (not_blank_of_isIdentChar (by simpa using hword))
  | mark => exact hs
  | @word w _ _ hword hne _ _ =>
    obtain ⟨c, w, rfl⟩ := List.exists_cons_of_ne_nil hne
    cases (hs c rfl).symm.trans (hword c (.head _))

end Spaced

/-! ## Steps of the reader -/

section
variable {c c' : Cursor} {s : List Char} {m : Char} {name : String}

theorem rest_advance_append {taken rest : List Char} (h : c.rest = taken ++ rest) :
    (c.advance taken).rest = rest := by
  rw [Cursor.advance, h, List.drop_left]

@[simp] theorem rest_skipBlanks (c : Cursor) :
    c.skipBlanks.rest = c.rest.dropWhile Blank.isBlank :=
  rest_advance_append List.takeWhile_append_dropWhile.symm

theorem not_blank_skipBlanks (c : Cursor) :
    ∀ b ∈ c.skipBlanks.rest.head?, Blank.isBlank b = false := by
  intro b hb
  have hhead := List.head?_dropWhile_not Blank.isBlank c.rest
  rw [← rest_skipBlanks, Option.mem_def.1 hb] at hhead
  exact hhead

theorem length_rest_skipBlanks_le (c : Cursor) : c.skipBlanks.rest.length ≤ c.rest.length := by
  rw [rest_skipBlanks]
  exact List.length_dropWhile_le _ _

theorem spaced_skipBlanks : Spaced s c.skipBlanks.rest ↔ Spaced s c.rest := by
  refine ⟨fun h => ?_, fun h => rest_skipBlanks c ▸ h.head?_dropWhile.1⟩
  have hblanks := h.blanks fun b (hb : b ∈ c.rest.takeWhile Blank.isBlank) =>
    List.mem_takeWhile_imp hb
  rwa [rest_skipBlanks, List.takeWhile_append_dropWhile] at hblanks

theorem head?_skipBlanks (h : Spaced s c.rest) : c.skipBlanks.rest.head? = s.head? :=
  rest_skipBlanks c ▸ h.head?_dropWhile.2

theorem spaced_of_accept (hmark : isIdentChar m = false) (hvisible : Blank.isBlank m = false)
    (h : c.accept m = (c', true)) (hs : Spaced s c'.rest) : Spaced (m :: s) c.rest := by
  rw [Cursor.accept] at h
  split at h
  · next hhead =>
    cases h
    obtain ⟨rest, hrest⟩ := List.head?_eq_some_iff.1 hhead
    rw [rest_advance_append (show _ = [m] ++ rest from hrest)] at hs
    rw [← spaced_skipBlanks, hrest]
    exact .mark hmark hvisible hs
  · cases h

theorem accept_of_spaced (hmark : isIdentChar m = false) (h : Spaced (m :: s) c.rest) :
    ∃ c', c.accept m = (c', true) ∧ Spaced s c'.rest ∧ c'.rest.length < c.rest.length := by
  obtain ⟨rest, hrest, hs⟩ := (spaced_skipBlanks.2 h).of_mark hmark (not_blank_skipBlanks c)
  have htail : (c.skipBlanks.advance [m]).rest = rest :=
    rest_advance_append (show _ = [m] ++ rest from hrest)
  refine ⟨c.skipBlanks.advance [m], ?_, htail ▸ hs, ?_⟩
  · rw [Cursor.accept, if_pos (by rw [hrest]; rfl)]
  · have hle := length_rest_skipBlanks_le c
    rw [hrest, List.length_cons] at hle
    rw [htail]
    exact hle

theorem accept_fst_of_false (h : c.accept m = (c', false)) : c' = c.skipBlanks := by
  rw [Cursor.accept] at h
  split at h
  · cases h
  · cases h
    rfl

theorem accept_of_head?_ne (h : Spaced s c.rest) (hne : s.head? ≠ some m) :
    c.accept m = (c.skipBlanks, false) := by
  rw [Cursor.accept, if_neg (by rwa [head?_skipBlanks h])]

theorem spaced_of_ident (h : ident c = .ok (name, c')) :
    IsName name ∧
      ∀ {s : List Char}, Ends s → Spaced s c'.rest → Spaced (name.toList ++ s) c.rest := by
  rw [ident] at h
  split at h
  · cases h
  · next first more hword =>
    split at h
    · cases h
    · next hletter =>
      cases h
      have hchars : ∀ d ∈ first :: more, isIdentChar d = true := fun d hd =>
        List.mem_takeWhile_imp (hword ▸ hd)
      have hrest : c.skipBlanks.rest = (first :: more) ++ c.skipBlanks.rest.dropWhile isIdentChar :=
        hword ▸ List.takeWhile_append_dropWhile.symm
      rw [rest_advance_append hrest, String.toList_ofList]
      refine ⟨⟨?_, ?_, ?_⟩, fun {s} hends hs => ?_⟩
      · simp
      · rwa [String.toList_ofList]
      · rw [String.toList_ofList]
        rintro _ ⟨⟩
        simpa using hletter
      · rw [← spaced_skipBlanks, hrest]
        exact .word hchars (List.cons_ne_nil _ _) hends hs

theorem ident_of_spaced (hname : IsName name) (hends : Ends s)
    (h : Spaced (name.toList ++ s) c.rest) :
    ∃ c', ident c = .ok (name, c') ∧ Spaced s c'.rest ∧ c'.rest.length < c.rest.length := by
  obtain ⟨rest, hrest, hs⟩ := (spaced_skipBlanks.2 h).of_word hname.word hname.nonempty hends
    (not_blank_skipBlanks c)
  have htail : (c.skipBlanks.advance name.toList).rest = rest := rest_advance_append hrest
  have hpos : 0 < name.toList.length := List.length_pos_iff.2 hname.nonempty
  have htake : c.skipBlanks.rest.takeWhile isIdentChar = name.toList := by
    rw [hrest, List.takeWhile_append_of_pos hname.word]
    cases rest with
    | nil => simp
    | cons b rest =>
      rw [List.takeWhile_cons_of_neg (by simp [hs.ends hends b rfl]), List.append_nil]
  refine ⟨c.skipBlanks.advance name.toList, ?_, htail ▸ hs, ?_⟩
  · rw [ident]
    simp only [htake]
    split
    · next hnil => exact absurd hnil hname.nonempty
    · next first more hcons =>
      have hletter := hname.letter first (by rw [hcons]; rfl)
      rw [if_neg (by simp [hletter]), ← hcons, String.ofList_toList]
  · have hle := length_rest_skipBlanks_le c
    rw [hrest, List.length_append] at hle
    rw [htail]
    omega

end

end GateSynth.PatternReader
