import GateSynth.Proofs.Verilog.Lexemes

/-!
# Positions by lines

The index of the lines of a text finds for every place between two of its characters the position
that counting the newlines and the characters in front of it gives (`LineIndex.pos_byteCount`): the
lines that start there or before are in front of the others, so halving finds how many they are
(`partitionPoint_eq`), and the last of them starts behind the last newline.

Stepping over the characters gives the same positions (`Position.first_advance`), so the tokens of a
text can be had without looking any of them up (`tokenize_ofList`).
-/

namespace GateSynth.Verilog

/-! ## Halving -/

/-- If a test holds of the front entries and of no others, halving finds how many these are. -/
theorem partitionPoint_eq {test : Nat → Bool} {front back : List Nat} {low high : Nat}
    (hfront : ∀ x ∈ front, test x = true) (hback : ∀ x ∈ back, test x = false)
    (h : high ≤ (front ++ back).toArray.size) (hlow : low ≤ front.length)
    (hhigh : front.length ≤ high) :
    partitionPoint test (front ++ back).toArray low high h = front.length := by
  fun_induction partitionPoint test (front ++ back).toArray low high h with
  | case1 low high h hlt middle hmiddle htest ih =>
    refine ih (Nat.lt_of_not_le fun hle => ?_) hhigh
    have hin : (front ++ back).toArray[middle] ∈ back := by
      rw [List.getElem_toArray, List.getElem_append_right hle]
      exact List.getElem_mem _
    rw [hback _ hin] at htest
    cases htest
  | case2 low high h hlt middle hmiddle htest ih =>
    refine ih hlow (Nat.le_of_not_lt fun hlt => htest ?_)
    rw [List.getElem_toArray, List.getElem_append_left hlt]
    exact hfront _ (List.getElem_mem _)
  | case3 low high h hlt => omega

/-! ## Offsets -/

namespace Position

theorem byteCount_append (xs ys : List Char) :
    byteCount (xs ++ ys) = byteCount xs + byteCount ys := by
  rw [byteCount, List.map_append, total_append]
  rfl

theorem byteCount_pos {cs : List Char} (h : cs ≠ []) : 0 < byteCount cs := by
  obtain ⟨c, cs, rfl⟩ := List.exists_cons_of_ne_nil h
  exact Nat.lt_of_lt_of_le c.utf8Size_pos (Nat.le_add_right _ _)

/-- The offset behind a character and some more is that of the rest and the size of the
character. -/
theorem exists_byteCount_cons (c : Char) (cs : List Char) :
    ∃ offset, byteCount (c :: cs) = offset + 1 ∧ c.utf8Size ≤ offset + 1 ∧
      offset + 1 - c.utf8Size = byteCount cs := by
  have hcount : byteCount (c :: cs) = c.utf8Size + byteCount cs := rfl
  obtain ⟨offset, hoffset⟩ := Nat.exists_eq_succ_of_ne_zero
    (Nat.ne_of_gt (byteCount_pos (List.cons_ne_nil c cs)))
  exact ⟨offset, hoffset, by omega, by omega⟩

/-- The byte offset behind a part of a text finds the part. -/
theorem before?_byteCount (xs ys : List Char) :
    before? (byteCount xs) (xs ++ ys) = some xs := by
  induction xs with
  | nil => rw [show byteCount [] = 0 from rfl, before?]
  | cons c xs ih =>
    obtain ⟨offset, hoffset, hle, hrest⟩ := exists_byteCount_cons c xs
    rw [hoffset, List.cons_append, before?, if_pos hle, hrest, ih, Option.map_some]

theorem from?_byteCount (xs ys : List Char) : from? (byteCount xs) (xs ++ ys) = some ys := by
  induction xs with
  | nil => rw [show byteCount [] = 0 from rfl, List.nil_append, from?]
  | cons c xs ih =>
    obtain ⟨offset, hoffset, hle, hrest⟩ := exists_byteCount_cons c xs
    rw [hoffset, List.cons_append, from?, if_pos hle, hrest, ih]

/-- Two byte offsets around a part of a text find the part. -/
theorem slice?_byteCount (xs ys zs : List Char) :
    slice? (byteCount xs) (byteCount (xs ++ ys)) (xs ++ ys ++ zs) = some ys := by
  have hrest : byteCount xs + byteCount ys - byteCount xs = byteCount ys := by omega
  rw [slice?, byteCount_append, if_pos (Nat.le_add_right _ _), hrest, List.append_assoc,
    from?_byteCount, Option.bind_some, before?_byteCount]

/-! ## Stepping -/

/-- The first position of a text. -/
def first : Position := ⟨1, 1⟩

/-- The position behind a character. -/
def step (p : Position) (c : Char) : Position :=
  if c = '\n' then ⟨p.line + 1, 1⟩ else ⟨p.line, p.column + 1⟩

/-- The position behind characters. -/
def advance (p : Position) (cs : List Char) : Position := cs.foldl step p

theorem advance_append (p : Position) (xs ys : List Char) :
    p.advance (xs ++ ys) = (p.advance xs).advance ys := List.foldl_append

/-- The position behind a text, from its newlines and its last line. -/
theorem first_advance (cs : List Char) :
    first.advance cs =
      ⟨1 + cs.count '\n', 1 + (cs.reverse.takeWhile (· ≠ '\n')).length⟩ := by
  induction cs using List.reverseRecOn with
  | nil => rfl
  | append_singleton cs c ih =>
    rw [advance_append, ih]
    by_cases hc : c = '\n'
    · subst hc
      simp [advance, step, Nat.add_assoc]
    · simp [advance, step, hc, Nat.add_assoc]

end Position

/-! ## Lines -/

namespace LineIndex

open Position

theorem behindNewlines_append (offset : Nat) (xs ys : List Char) :
    behindNewlines offset (xs ++ ys) =
      behindNewlines offset xs ++ behindNewlines (offset + byteCount xs) ys := by
  induction xs generalizing offset with
  | nil => rfl
  | cons c xs ih =>
    have hcount : offset + byteCount (c :: xs) = offset + c.utf8Size + byteCount xs :=
      (Nat.add_assoc _ _ _).symm
    rw [List.cons_append, behindNewlines, behindNewlines, ih, hcount]
    split <;> rfl

theorem length_behindNewlines (offset : Nat) (cs : List Char) :
    (behindNewlines offset cs).length = cs.count '\n' := by
  induction cs generalizing offset with
  | nil => rfl
  | cons c cs ih =>
    rw [behindNewlines, List.count_cons]
    by_cases hc : c = '\n' <;> simp [hc, ih]

theorem mem_behindNewlines {offset x : Nat} {cs : List Char} (h : x ∈ behindNewlines offset cs) :
    offset < x ∧ x ≤ offset + byteCount cs := by
  induction cs generalizing offset with
  | nil => cases h
  | cons c cs ih =>
    have hcount : byteCount (c :: cs) = c.utf8Size + byteCount cs := rfl
    have hsize := c.utf8Size_pos
    have hin : x = offset + c.utf8Size ∨ x ∈ behindNewlines (offset + c.utf8Size) cs := by
      rw [behindNewlines] at h
      split at h
      · exact List.mem_cons.1 h
      · exact .inr h
    rcases hin with rfl | hin
    · omega
    · have hbounds := ih hin
      omega

theorem behindNewlines_eq_nil {cs : List Char} (h : '\n' ∉ cs) (offset : Nat) :
    behindNewlines offset cs = [] := by
  rw [← List.length_eq_zero_iff, length_behindNewlines, List.count_eq_zero_of_not_mem h]

/-- The last line of a text and the lines in front of it. -/
theorem exists_lastLine (cs : List Char) :
    ∃ lines last, cs = lines ++ last ∧ '\n' ∉ last ∧
      (lines = [] ∨ ∃ front, lines = front ++ ['\n']) := by
  induction cs using List.reverseRecOn with
  | nil => exact ⟨[], [], rfl, List.not_mem_nil, .inl rfl⟩
  | append_singleton cs c ih =>
    by_cases hc : c = '\n'
    · exact ⟨cs ++ [c], [], (List.append_nil _).symm, List.not_mem_nil, .inr ⟨cs, by rw [hc]⟩⟩
    · obtain ⟨lines, last, rfl, hlast, hlines⟩ := ih
      refine ⟨lines, last ++ [c], List.append_assoc _ _ _, fun hmem => ?_, hlines⟩
      rcases List.mem_append.1 hmem with hmem | hmem
      · exact hlast hmem
      · exact hc (List.mem_singleton.1 hmem).symm

theorem starts_ofChars (cs : List Char) :
    (ofChars cs).starts = (0 :: behindNewlines 0 cs).toArray := rfl

/-- The lines that have started at a place are one and the newlines in front of it. -/
theorem line_byteCount (before after : List Char) :
    (ofChars (before ++ after)).line (byteCount before) = 1 + before.count '\n' := by
  have hstarts : 0 :: behindNewlines 0 (before ++ after) =
      (0 :: behindNewlines 0 before) ++ behindNewlines (byteCount before) after := by
    rw [behindNewlines_append, Nat.zero_add]
    rfl
  have hline : (ofChars (before ++ after)).line (byteCount before) =
      (0 :: behindNewlines 0 before).length := by
    simp only [line, ofChars, hstarts]
    refine partitionPoint_eq (fun x hx => ?_) (fun x hx => ?_) _ (Nat.zero_le _) (by simp)
    · rcases List.mem_cons.1 hx with rfl | hx
      · exact decide_eq_true (Nat.zero_le _)
      · exact decide_eq_true (by have hbounds := mem_behindNewlines hx; omega)
    · exact decide_eq_false (by have hbounds := mem_behindNewlines hx; omega)
  rw [hline, List.length_cons, length_behindNewlines, Nat.add_comm]

/-- The last line that has started at a place starts behind the last newline in front of it. -/
theorem start_byteCount {lines last : List Char} (hlast : '\n' ∉ last)
    (hlines : lines = [] ∨ ∃ front, lines = front ++ ['\n']) (after : List Char) :
    (ofChars (lines ++ last ++ after)).starts[(lines ++ last).count '\n']? =
      some (byteCount lines) := by
  have hstarts : (ofChars (lines ++ last ++ after)).starts =
      (0 :: (behindNewlines 0 lines ++ behindNewlines (byteCount (lines ++ last)) after)).toArray := by
    rw [starts_ofChars, behindNewlines_append, behindNewlines_append, behindNewlines_eq_nil hlast,
      List.append_nil, Nat.zero_add]
  rw [hstarts, List.getElem?_toArray, List.count_append, List.count_eq_zero_of_not_mem hlast]
  rcases hlines with rfl | ⟨front, rfl⟩
  · rfl
  · have hone : behindNewlines (byteCount front) ['\n'] = [byteCount (front ++ ['\n'])] := by
      rw [byteCount_append]
      rfl
    have hcount : (front ++ ['\n']).count '\n' + 0 = (behindNewlines 0 front).length + 1 := by
      rw [length_behindNewlines]
      simp
    rw [behindNewlines_append, Nat.zero_add, hone, hcount, List.getElem?_cons_succ,
      List.append_assoc, List.getElem?_append_right (Nat.le_refl _), Nat.sub_self]
    rfl

/-- A position is that of a line and of the characters of the line. -/
theorem pos_of_slice {index : LineIndex} {offset start : Nat} {cs : List Char}
    (hstart : index.starts[index.line offset - 1]? = some start)
    (hslice : slice? start offset index.source = some cs) :
    index.pos offset = ⟨index.line offset, cs.length + 1⟩ := by
  obtain ⟨hlt, rfl⟩ := Array.getElem?_eq_some_iff.1 hstart
  rw [pos, hslice]

/-- The position that the index has for a place between two characters. -/
theorem pos_byteCount (before after : List Char) :
    (ofChars (before ++ after)).pos (byteCount before) =
      ⟨1 + before.count '\n', 1 + (before.reverse.takeWhile (· ≠ '\n')).length⟩ := by
  have hline := line_byteCount before after
  obtain ⟨lines, last, rfl, hlast, hlines⟩ := exists_lastLine before
  have hstart := start_byteCount hlast hlines after
  have hindex : 1 + (lines ++ last).count '\n' - 1 = (lines ++ last).count '\n' := by omega
  rw [← hindex, ← hline] at hstart
  have hslice : slice? (byteCount lines) (byteCount (lines ++ last))
      (ofChars (lines ++ last ++ after)).source = some last := slice?_byteCount lines last after
  have hcolumn : (lines ++ last).reverse.takeWhile (· ≠ '\n') = last.reverse := by
    have hall : ∀ c ∈ last.reverse, decide (c ≠ '\n') = true := fun c hc =>
      decide_eq_true (ne_of_mem_of_not_mem (List.mem_reverse.1 hc) hlast)
    rw [List.reverse_append, List.takeWhile_append_of_pos hall]
    rcases hlines with rfl | ⟨front, rfl⟩
    · simp
    · simp
  rw [pos_of_slice hstart hslice, hline, hcolumn, List.length_reverse, Nat.add_comm last.length]

end LineIndex

/-! ## Tokens without an index -/

/-- The tokens of the characters that are left, with the position of the first of them carried
along. -/
def tokenizeStepping : (lexemes offset : Nat) → Position → List Char →
    Except SourceError (List Spanned)
  | 0, _, _, _ => .ok []
  | _ + 1, _, _, [] => .ok []
  | lexemes + 1, offset, pos, c :: rest =>
    let (lexeme, verdict) := Lexeme.front c rest
    let stop := offset + Position.byteCount lexeme
    let left := (c :: rest).drop lexeme.length
    match verdict with
    | .blank => tokenizeStepping lexemes stop (pos.advance lexeme) left
    | .bad => .error (.lexical pos (String.ofList lexeme))
    | .token token =>
      match tokenizeStepping lexemes stop (pos.advance lexeme) left with
      | .ok tokens => .ok (⟨token, offset, stop, pos⟩ :: tokens)
      | .error e => .error e

/-- Stepping and looking up agree behind any part of a text. -/
theorem tokenizeFrom_eq (lexemes : Nat) (before text : List Char) :
    tokenizeFrom (.ofChars (before ++ text)) lexemes (Position.byteCount before) text =
      tokenizeStepping lexemes (Position.byteCount before) (Position.first.advance before) text := by
  induction lexemes generalizing before text with
  | zero => rfl
  | succ lexemes ih =>
    cases text with
    | nil => rfl
    | cons c rest =>
      have hpos : (LineIndex.ofChars (before ++ c :: rest)).pos (Position.byteCount before) =
          Position.first.advance before := by
        rw [LineIndex.pos_byteCount, Position.first_advance]
      rw [tokenizeFrom, tokenizeStepping, hpos]
      cases hfront : Lexeme.front c rest with
      | mk lexeme verdict =>
      by_cases hbad : verdict = .bad
      · rw [hbad]
      · obtain ⟨after, htext, -⟩ := Lexeme.cut_of_front hfront hbad
        have hrest := ih (before ++ lexeme) after
        rw [Position.byteCount_append, Position.advance_append, List.append_assoc] at hrest
        simp only [htext, List.drop_left]
        generalize tokenizeFrom _ lexemes _ after = result at hrest ⊢
        subst hrest
        cases verdict <;> rfl

theorem tokenize_ofList (cs : List Char) :
    tokenize (String.ofList cs) = tokenizeStepping cs.length 0 .first cs := by
  rw [tokenize, String.toList_ofList]
  exact tokenizeFrom_eq cs.length [] cs

end GateSynth.Verilog
