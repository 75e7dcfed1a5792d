import GateSynth.Json.Printer
import GateSynth.Json.Reader
import Mathlib.Data.List.Basic

/-!
# Reading what was written

The JSON text of a value is read back as that value (`parse?_render`), if its strings have a text
and its numbers are natural numbers written in digits (`Plain`). The statement about the reader
that carries the induction is `ReadBack`: in front of anything that cannot continue a number, the
text of the value is read and what follows is left, with no more fuel than the text has characters.
-/

namespace GateSynth.Json

/-! ## Strings -/

theorem hexDigit?_hexDigit : ∀ d < 16, hexDigit? (hexDigit d) = some d := by decide

theorem escape_cases (c : Char) :
    (∃ e, e ≠ 'u' ∧ simpleEscape? e = some c ∧ escape c = ['\\', e]) ∨
      (c.toNat < 0x20 ∧
        escape c = ['\\', 'u', '0', '0', hexDigit (c.toNat / 16), hexDigit (c.toNat % 16)]) ∨
      (0x20 ≤ c.toNat ∧ c ≠ '"' ∧ c ≠ '\\' ∧ escape c = [c]) := by
  unfold escape
  split
  · exact .inl ⟨'"', by decide, rfl, rfl⟩
  · exact .inl ⟨'\\', by decide, rfl, rfl⟩
  · exact .inl ⟨'b', by decide, rfl, rfl⟩
  · exact .inl ⟨'f', by decide, rfl, rfl⟩
  · exact .inl ⟨'n', by decide, rfl, rfl⟩
  · exact .inl ⟨'r', by decide, rfl, rfl⟩
  · exact .inl ⟨'t', by decide, rfl, rfl⟩
  · next hquote hbackslash _ _ _ _ _ =>
    by_cases hcontrol : c.toNat < 0x20
    · exact .inr (.inl ⟨hcontrol, if_pos hcontrol⟩)
    · exact .inr (.inr ⟨Nat.le_of_not_lt hcontrol, hquote, hbackslash, if_neg hcontrol⟩)

theorem stringUnits_escape (c : Char) (cs : List Char) :
    stringUnits (escape c ++ cs) = (stringUnits cs).map fun r => (c.toNat :: r.1, r.2) := by
  rcases escape_cases c with ⟨e, hu, he, heq⟩ | ⟨hcontrol, heq⟩ | ⟨hprintable, hquote, hback, heq⟩
  · rw [heq]
    simp only [List.cons_append, List.nil_append]
    rw [stringUnits, he]
    · cases stringUnits cs <;> rfl
    · exact fun _ _ _ _ _ h => absurd h hu
  · have hhigh := hexDigit?_hexDigit (c.toNat / 16) (by omega)
    have hlow := hexDigit?_hexDigit (c.toNat % 16) (by omega)
    have hzero : hexDigit? '0' = some 0 := rfl
    rw [heq]
    simp only [List.cons_append, List.nil_append, stringUnits, hzero, hhigh, hlow]
    cases stringUnits cs with
    | none => rfl
    | some r =>
      simp
      omega
  · rw [heq, List.singleton_append, stringUnits, if_neg]
    · rintro (hlt | h)
      · omega
      · exact hback h
    · exact hquote
    · exact fun _ _ _ _ _ h => absurd h hback
    · exact fun _ _ h => absurd h hback

theorem stringUnits_escaped (text cs : List Char) :
    stringUnits (text.flatMap escape ++ '"' :: cs) = some (text.map Char.toNat, cs) := by
  induction text with
  | nil => rfl
  | cons c rest ih =>
    rw [List.flatMap_cons, List.append_assoc, stringUnits_escape, ih]
    rfl

theorem unitsChars?_map_toNat (text : List Char) :
    unitsChars? (text.map Char.toNat) = some text := by
  induction text with
  | nil => rfl
  | cons c rest ih =>
    have hvalid : c.toNat < 0xD800 ∨ 0xDFFF < c.toNat := by
      rcases c.valid with h | h
      · exact .inl h
      · exact .inr h.1
    have hhigh : isHighSurrogate c.toNat = false := by
      simp [isHighSurrogate]; omega
    have hlow : isLowSurrogate c.toNat = false := by
      simp [isLowSurrogate]; omega
    rw [List.map_cons, unitsChars?.eq_def]
    simp [hhigh, hlow, ih, Char.ofNat_toNat]

theorem toList_quote (text : String) :
    (quote text).toList = '"' :: (text.toList.flatMap escape ++ ['"']) := by
  simp [quote]

/-- A string in quotes is read back. -/
theorem stringBody_quote (text : String) (cs : List Char) :
    stringBody (text.toList.flatMap escape ++ '"' :: cs) = some (some text, cs) := by
  rw [stringBody, stringUnits_escaped, Option.map_some, unitsChars?_map_toNat, Option.map_some,
    String.ofList_toList]

/-! ## Numbers -/

/-- A digit is written as itself. -/
theorem toDigits_digit {c : Char} (h : c.isDigit = true) :
    Nat.toDigits 10 (c.toNat - '0'.toNat) = [c] := by
  obtain ⟨hlow, hhigh⟩ := Char.isDigit_iff_toNat.1 h
  have hlt : c.toNat - '0'.toNat < 10 := by
    have : '9'.toNat = 57 := rfl
    have : '0'.toNat = 48 := rfl
    omega
  rw [Nat.toDigits_of_lt_base hlt, List.singleton_inj, ← Char.toNat_inj,
    Nat.toNat_digitChar_of_lt_ten hlt]
  exact Nat.add_sub_cancel' hlow

theorem toList_join_digits {cs : List Char} (h : ∀ c ∈ cs, c.isDigit = true) :
      (String.join ((cs.map fun c => c.toNat - '0'.toNat).map toString)).toList = cs := by
  rw [String.toList_join, List.map_map, List.flatMap_map]
  induction cs with
  | nil => rfl
  | cons c rest ih =>
    rw [List.forall_mem_cons] at h
    rw [List.flatMap_cons, ih h.2, Function.comp_apply, Nat.toString_eq_ofList_toDigits,
      String.toList_ofList, toDigits_digit h.1, List.singleton_append]

/-- A natural number is written with its digits. -/
theorem toList_text_ofNat (k : Nat) : (Decimal.ofNat k).text.toList = Nat.toDigits 10 k := by
  have hall : ∀ c ∈ Nat.toDigits 10 k, c.isDigit = true := fun c hc =>
    Nat.isDigit_of_mem_toDigits (by decide) (by decide) hc
  simpa [Decimal.text, Decimal.ofNat] using toList_join_digits hall

/-- Only zero is written with a zero in front. -/
theorem head?_toDigits {k : Nat} (h : k ≠ 0) : (Nat.toDigits 10 k).head? ≠ some '0' := by
  induction k using Nat.strongRecOn with
  | _ k ih =>
    by_cases hlt : k < 10
    · simp [Nat.toDigits_of_lt_base hlt, h]
    · rw [Nat.toDigits_of_base_le (by decide) (by omega),
        List.head?_append_of_ne_nil _ Nat.toDigits_ne_nil]
      exact ih (k / 10) (by omega) (by omega)

/-- What may follow a number without becoming part of it. -/
def Delimited : List Char → Prop
  | [] => True
  | c :: _ => c.isDigit = false ∧ c ≠ '.' ∧ c ≠ 'e' ∧ c ≠ 'E'

theorem digits_append {cs rest : List Char} (h : ∀ c ∈ cs, c.isDigit = true)
    (hrest : Delimited rest) :
    digits (cs ++ rest) = (cs.map fun c => c.toNat - '0'.toNat, rest) := by
  have htake : rest.takeWhile Char.isDigit = [] ∧ rest.dropWhile Char.isDigit = rest := by
    cases rest with
    | nil => exact ⟨rfl, rfl⟩
    | cons c rest => simp [hrest.1]
  rw [digits, List.takeWhile_append_of_pos h, List.dropWhile_append_of_pos h, htake.1, htake.2,
    List.append_nil]

theorem fractionPart_of_delimited {rest : List Char} (h : Delimited rest) :
    fractionPart rest = some (none, rest) := by
  rw [fractionPart.eq_def]
  split
  · exact absurd rfl h.2.1
  · rfl

theorem exponentPart_of_delimited {rest : List Char} (h : Delimited rest) :
    exponentPart rest = some (none, rest) := by
  cases rest with
  | nil => rfl
  | cons c rest =>
    rw [exponentPart.eq_def]
    exact if_neg (not_or.2 h.2.2)

/-- A number is read up to where its digits end. -/
theorem unsignedNumber_of_digits {cs rest : List Char} {negative : Bool} {whole : List Nat}
    (hzero : cs.head? ≠ some '0') (hne : whole ≠ []) (hdigits : digits cs = (whole, rest))
    (h : Delimited rest) :
    unsignedNumber negative cs = some (⟨negative, whole, none, none⟩, rest) := by
  obtain ⟨d, ds, rfl⟩ := List.exists_cons_of_ne_nil hne
  rw [unsignedNumber, hdigits]
  · simp [fractionPart_of_delimited h, exponentPart_of_delimited h]
  · rintro rest rfl
    exact hzero rfl

/-- A natural number is read back. -/
theorem numberBody_ofNat (k : Nat) {rest : List Char} (h : Delimited rest) :
    numberBody (Nat.toDigits 10 k ++ rest) = some (.ofNat k, rest) := by
  have hall : ∀ c ∈ Nat.toDigits 10 k, c.isDigit = true := fun c hc =>
    Nat.isDigit_of_mem_toDigits (by decide) (by decide) hc
  have hunsigned : numberBody (Nat.toDigits 10 k ++ rest) =
      unsignedNumber false (Nat.toDigits 10 k ++ rest) := by
    obtain ⟨c, cs, hcs⟩ := List.exists_cons_of_ne_nil (Nat.toDigits_ne_nil (n := k) (b := 10))
    have hminus : c ≠ '-' := by
      rintro rfl
      have hdigit := hall '-' (hcs ▸ .head _)
      exact absurd hdigit (by decide)
    rw [hcs, List.cons_append, numberBody]
    exact fun _ hc => hminus (List.cons.inj hc).1
  rw [hunsigned]
  by_cases hk : k = 0
  · subst hk
    rw [Nat.toDigits_zero, List.singleton_append, unsignedNumber]
    simp [fractionPart_of_delimited h, exponentPart_of_delimited h]
    rfl
  · refine unsignedNumber_of_digits ?_ ?_ (digits_append hall h) h
    · rw [List.head?_append_of_ne_nil _ Nat.toDigits_ne_nil]
      exact head?_toDigits hk
    · simp

/-! ## Blanks -/

theorem skipBlanks_append {bs cs : List Char} (h : ∀ b ∈ bs, isBlank b = true) :
    skipBlanks (bs ++ cs) = skipBlanks cs := by
  rw [skipBlanks, List.dropWhile_append_of_pos h, skipBlanks]

theorem skipBlanks_cons {c : Char} {cs : List Char} (h : isBlank c = false) :
    skipBlanks (c :: cs) = c :: cs := by
  rw [skipBlanks, List.dropWhile_cons_of_neg (by simp [h])]

theorem isBlank_of_isDigit {c : Char} (h : c.isDigit = true) : isBlank c = false := by
  by_contra hblank
  simp only [isBlank, Bool.not_eq_false, Bool.or_eq_true, beq_iff_eq] at hblank
  rcases hblank with ((rfl | rfl) | rfl) | rfl <;> exact absurd h (by decide)

theorem isBlank_of_mem_newline {level : Nat} {b : Char} (h : b ∈ (newline level).toList) :
    isBlank b = true := by
  simp [newline] at h
  rcases h with rfl | ⟨-, rfl⟩ <;> rfl

/-- Blanks in front of a value are skipped. -/
theorem value_append {fuel : Nat} {bs cs : List Char} (h : ∀ b ∈ bs, isBlank b = true) :
    value fuel (bs ++ cs) = value fuel cs := by
  cases fuel with
  | zero => rfl
  | succ fuel => simp only [value, skipBlanks_append h]

theorem value_blank (fuel : Nat) (cs : List Char) : value fuel (' ' :: cs) = value fuel cs := by
  have hblank : ∀ b ∈ [' '], isBlank b = true := by simp [isBlank]
  exact value_append hblank

theorem items_append {fuel : Nat} {before : List Json} {bs cs : List Char}
    (h : ∀ b ∈ bs, isBlank b = true) :
    items fuel before (bs ++ cs) = items fuel before cs := by
  cases fuel with
  | zero => rfl
  | succ fuel => simp only [items, value_append h]

theorem members_append {fuel : Nat} {before : List (Option String × Json)} {bs cs : List Char}
    (h : ∀ b ∈ bs, isBlank b = true) :
    members fuel before (bs ++ cs) = members fuel before cs := by
  cases fuel with
  | zero => rfl
  | succ fuel => simp only [members, skipBlanks_append h]

/-! ## The characters of a value -/

@[simp] theorem toList_renderAt_null (level : Nat) :
    (renderAt level null).toList = ['n', 'u', 'l', 'l'] := by
  simp

@[simp] theorem toList_renderAt_true (level : Nat) :
    (renderAt level (bool true)).toList = ['t', 'r', 'u', 'e'] := by
  simp

@[simp] theorem toList_renderAt_false (level : Nat) :
    (renderAt level (bool false)).toList = ['f', 'a', 'l', 's', 'e'] := by
  simp

@[simp] theorem toList_renderAt_ofNat (level k : Nat) :
    (renderAt level (ofNat k)).toList = Nat.toDigits 10 k := by
  rw [ofNat, renderAt, toList_text_ofNat]

@[simp] theorem toList_renderAt_ofString (level : Nat) (text : String) :
    (renderAt level (ofString text)).toList = '"' :: (text.toList.flatMap escape ++ ['"']) := by
  rw [ofString, renderAt, Option.getD_some, toList_quote]

@[simp] theorem toList_renderAt_array_nil (level : Nat) :
    (renderAt level (array [])).toList = ['[', ']'] := by
  simp

@[simp] theorem toList_renderAt_array_cons (level : Nat) (item : Json) (rest : List Json) :
    (renderAt level (array (item :: rest))).toList =
      '[' :: ((newline (level + 1)).toList ++ (renderAt (level + 1) item).toList ++
        (renderItems (level + 1) rest).toList ++ (newline level).toList ++ [']']) := by
  simp

@[simp] theorem toList_renderItems_cons (level : Nat) (item : Json) (rest : List Json) :
    (renderItems level (item :: rest)).toList =
      ',' :: ((newline level).toList ++ (renderAt level item).toList ++
        (renderItems level rest).toList) := by
  simp

/-- The written members of an object behind the first. -/
abbrev laterMembers (level : Nat) (members : List (String × Json)) : List Char :=
  (renderMembers level (members.map fun m => (some m.1, m.2))).toList

@[simp] theorem toList_renderAt_ofMembers_nil (level : Nat) :
    (renderAt level (ofMembers [])).toList = ['\x7b', '\x7d'] := by
  simp [ofMembers]

@[simp] theorem toList_renderAt_ofMembers_cons (level : Nat) (key : String) (item : Json)
    (rest : List (String × Json)) :
    (renderAt level (ofMembers ((key, item) :: rest))).toList =
      '\x7b' :: ((newline (level + 1)).toList ++ '"' :: (key.toList.flatMap escape ++ '"' ::
        ':' :: ' ' :: ((renderAt (level + 1) item).toList ++
          laterMembers (level + 1) rest ++ (newline level).toList ++ ['\x7d']))) := by
  simp [ofMembers, toList_quote]

@[simp] theorem laterMembers_cons (level : Nat) (key : String) (item : Json)
    (rest : List (String × Json)) :
    laterMembers level ((key, item) :: rest) =
      ',' :: ((newline level).toList ++ '"' :: (key.toList.flatMap escape ++ '"' ::
        ':' :: ' ' :: ((renderAt level item).toList ++ laterMembers level rest))) := by
  simp [laterMembers, toList_quote]

/-! ## Values -/

/-- The value is built from strings with a text and natural numbers. -/
inductive Plain : Json → Prop where
  | null : Plain .null
  | bool (b : Bool) : Plain (.bool b)
  | ofNat (k : Nat) : Plain (.ofNat k)
  | ofString (text : String) : Plain (.ofString text)
  | array {items : List Json} : (∀ item ∈ items, Plain item) → Plain (.array items)
  | ofMembers {members : List (String × Json)} :
      (∀ m ∈ members, Plain m.2) → Plain (.ofMembers members)

/-- The text of the value is read back, whatever delimited text follows it. -/
def ReadBack (json : Json) : Prop :=
  ∀ level fuel rest, (renderAt level json).toList.length ≤ fuel → Delimited rest →
    value fuel ((renderAt level json).toList ++ rest) = some (json, rest)

theorem readBack_null : ReadBack .null := by
  intro level fuel rest hfuel _
  cases fuel with
  | zero => simp at hfuel
  | succ fuel =>
    rw [toList_renderAt_null, List.cons_append, value, skipBlanks_cons (by decide)]
    rfl

theorem readBack_bool (b : Bool) : ReadBack (.bool b) := by
  intro level fuel rest hfuel _
  cases fuel with
  | zero => cases b <;> simp at hfuel
  | succ fuel =>
    cases b with
    | true =>
      rw [toList_renderAt_true, List.cons_append, value, skipBlanks_cons (by decide)]
      rfl
    | false =>
      rw [toList_renderAt_false, List.cons_append, value, skipBlanks_cons (by decide)]
      rfl

theorem readBack_ofString (text : String) : ReadBack (.ofString text) := by
  intro level fuel rest hfuel _
  cases fuel with
  | zero => simp at hfuel
  | succ fuel =>
    rw [toList_renderAt_ofString, List.cons_append, value, skipBlanks_cons (by decide),
      List.append_assoc]
    show (stringBody (text.toList.flatMap escape ++ '"' :: rest)).map _ = _
    rw [stringBody_quote]
    rfl

theorem readBack_ofNat (k : Nat) : ReadBack (.ofNat k) := by
  intro level fuel rest hfuel hrest
  rw [toList_renderAt_ofNat] at *
  obtain ⟨c, cs, hcs⟩ := List.exists_cons_of_ne_nil (Nat.toDigits_ne_nil (n := k) (b := 10))
  have hdigit : c.isDigit = true :=
    Nat.isDigit_of_mem_toDigits (by decide) (by decide) (hcs ▸ List.mem_cons_self)
  have hnumber := numberBody_ofNat k hrest
  rw [hcs] at hfuel hnumber ⊢
  cases fuel with
  | zero => simp at hfuel
  | succ fuel =>
    rw [List.cons_append] at hnumber ⊢
    rw [value, skipBlanks_cons (isBlank_of_isDigit hdigit)]
    split
    case h_7 =>
      rw [hnumber]
      rfl
    all_goals
      next heq =>
        rw [(List.cons.inj heq).1] at hdigit
        exact absurd hdigit (by decide)

/-- A written value starts with a character that is neither blank nor the end of an array. -/
theorem Plain.exists_head {json : Json} (h : Plain json) (level : Nat) :
    ∃ c cs, (renderAt level json).toList = c :: cs ∧ isBlank c = false ∧ c ≠ ']' := by
  cases h with
  | null => exact ⟨_, _, toList_renderAt_null level, by decide, by decide⟩
  | bool b =>
    cases b with
    | true => exact ⟨_, _, toList_renderAt_true level, by decide, by decide⟩
    | false => exact ⟨_, _, toList_renderAt_false level, by decide, by decide⟩
  | ofNat k =>
    obtain ⟨c, cs, hcs⟩ := List.exists_cons_of_ne_nil (Nat.toDigits_ne_nil (n := k) (b := 10))
    have hdigit : c.isDigit = true :=
      Nat.isDigit_of_mem_toDigits (by decide) (by decide) (hcs ▸ List.mem_cons_self)
    refine ⟨c, cs, by rw [toList_renderAt_ofNat, hcs], isBlank_of_isDigit hdigit, ?_⟩
    rintro rfl
    exact absurd hdigit (by decide)
  | ofString text => exact ⟨_, _, toList_renderAt_ofString level text, by decide, by decide⟩
  | @array items _ =>
    cases items with
    | nil => exact ⟨_, _, toList_renderAt_array_nil level, by decide, by decide⟩
    | cons item rest =>
      exact ⟨_, _, toList_renderAt_array_cons level item rest, by decide, by decide⟩
  | @ofMembers members _ =>
    cases members with
    | nil => exact ⟨_, _, toList_renderAt_ofMembers_nil level, by decide, by decide⟩
    | cons m rest =>
      exact ⟨_, _, toList_renderAt_ofMembers_cons level m.1 m.2 rest, by decide, by decide⟩

theorem delimited_newline (level : Nat) (cs : List Char) :
    Delimited ((newline level).toList ++ cs) := by
  simp [newline, Delimited]

/-- The items of an array are read one after the other up to its end. -/
theorem items_renderItems {level : Nat} {item : Json} {later : List Json}
    (h : ∀ json ∈ item :: later, ReadBack json) (outer : Nat) {fuel : Nat}
    (hfuel : (renderAt level item).toList.length + (renderItems level later).toList.length < fuel)
    (before : List Json) (rest : List Char) :
    items fuel before ((renderAt level item).toList ++ ((renderItems level later).toList ++
      ((newline outer).toList ++ ']' :: rest))) =
      some (array (before.reverse ++ item :: later), rest) := by
  induction later generalizing item fuel before with
  | nil =>
    cases fuel with
    | zero => omega
    | succ fuel =>
      have hitem := h item (.head _) level fuel ((newline outer).toList ++ ']' :: rest) (by omega)
        (delimited_newline outer _)
      rw [show (renderItems level []).toList = [] by simp, List.nil_append, items,
        hitem]
      simp only
      rw [skipBlanks_append fun _ => isBlank_of_mem_newline, skipBlanks_cons (by decide)]
      simp
  | cons next later ih =>
    cases fuel with
    | zero => omega
    | succ fuel =>
      rw [toList_renderItems_cons] at hfuel ⊢
      have hlen : (renderAt level next).toList.length + (renderItems level later).toList.length <
          fuel := by
        simp only [List.length_cons, List.length_append] at hfuel
        omega
      have hitem := h item (.head _) level fuel
      rw [items, List.cons_append, hitem _ (by omega) (by simp [Delimited])]
      simp only
      rw [skipBlanks_cons (by decide)]
      simp only [List.append_assoc]
      rw [items_append fun _ => isBlank_of_mem_newline,
        ih (fun json hjson => h json (.tail _ hjson)) hlen]
      simp

theorem readBack_array {list : List Json} (hplain : ∀ item ∈ list, Plain item)
    (h : ∀ item ∈ list, ReadBack item) : ReadBack (.array list) := by
  intro level fuel rest hfuel _
  cases fuel with
  | zero =>
    cases list <;> simp at hfuel
  | succ fuel =>
    cases list with
    | nil =>
      rw [toList_renderAt_array_nil, List.cons_append, value, skipBlanks_cons (by decide)]
      simp only [List.cons_append]
      rw [skipBlanks_cons (by decide)]
      rfl
    | cons item later =>
      obtain ⟨c, cs, hcs, hblank, hclose⟩ := (hplain item (.head _)).exists_head (level + 1)
      rw [toList_renderAt_array_cons] at hfuel ⊢
      have hlen : (renderAt (level + 1) item).toList.length +
          (renderItems (level + 1) later).toList.length < fuel := by
        simp only [List.length_cons, List.length_append, List.length_nil] at hfuel
        omega
      have hitems := items_renderItems h level hlen [] rest
      rw [List.cons_append, value, skipBlanks_cons (by decide)]
      simp only [List.append_assoc, List.singleton_append]
      rw [skipBlanks_append fun _ => isBlank_of_mem_newline]
      rw [hcs, List.cons_append] at hitems ⊢
      rw [skipBlanks_cons hblank]
      split
      · next heq => exact absurd (List.cons.inj heq).1 hclose
      · exact hitems

/-- One member is read; what comes behind it says whether there is another one. -/
theorem members_member {level fuel : Nat} {item : Json} (hitem : ReadBack item)
    (hfuel : (renderAt level item).toList.length ≤ fuel) (key : String)
    (before : List (Option String × Json)) {cs rest : List Char} (hcs : Delimited cs) :
    let text := '"' :: (key.toList.flatMap escape ++ '"' :: ':' :: ' ' ::
      ((renderAt level item).toList ++ cs))
    (skipBlanks cs = ',' :: rest →
      members (fuel + 1) before text = members fuel ((some key, item) :: before) rest) ∧
    (skipBlanks cs = '\x7d' :: rest →
      members (fuel + 1) before text =
        some (object ((some key, item) :: before).reverse, rest)) := by
  have hvalue := (value_blank fuel _).trans (hitem level fuel cs hfuel hcs)
  dsimp only
  rw [members, skipBlanks_cons (by decide)]
  simp only [stringBody_quote]
  rw [skipBlanks_cons (by decide)]
  simp only [hvalue]
  constructor
  all_goals
    intro hnext
    rw [hnext]
    rfl

/-- The members of an object are read one after the other up to its end. -/
theorem members_laterMembers {level : Nat} {key : String} {item : Json}
    {later : List (String × Json)} (h : ∀ m ∈ (key, item) :: later, ReadBack m.2) (outer : Nat)
    {fuel : Nat}
    (hfuel : (renderAt level item).toList.length + (laterMembers level later).length < fuel)
    (before : List (Option String × Json)) (rest : List Char) :
    members fuel before ('"' :: (key.toList.flatMap escape ++ '"' :: ':' :: ' ' ::
      ((renderAt level item).toList ++ (laterMembers level later ++
        ((newline outer).toList ++ '\x7d' :: rest))))) =
      some (object (before.reverse ++ ((key, item) :: later).map fun m => (some m.1, m.2)), rest) := by
  induction later generalizing key item fuel before with
  | nil =>
    cases fuel with
    | zero => omega
    | succ fuel =>
      have hitem : ReadBack item := h (key, item) (.head _)
      have hend : skipBlanks ((newline outer).toList ++ '\x7d' :: rest) = '\x7d' :: rest := by
        rw [skipBlanks_append fun _ => isBlank_of_mem_newline, skipBlanks_cons (by decide)]
      rw [show laterMembers level [] = [] by simp [laterMembers], List.nil_append,
        (members_member hitem (by omega) key before (delimited_newline outer _)).2 hend]
      simp
  | cons next later ih =>
    obtain ⟨nextKey, next⟩ := next
    cases fuel with
    | zero => omega
    | succ fuel =>
      rw [laterMembers_cons] at hfuel ⊢
      have hlen : (renderAt level next).toList.length + (laterMembers level later).length <
          fuel := by
        simp only [List.length_cons, List.length_append] at hfuel
        omega
      have hitem : ReadBack item := h (key, item) (.head _)
      rw [List.cons_append, (members_member hitem (by omega) key before (by simp [Delimited])).1
        (skipBlanks_cons (by decide))]
      simp only [List.append_assoc, List.cons_append]
      rw [members_append fun _ => isBlank_of_mem_newline,
        ih (fun json hjson => h json (.tail _ hjson)) hlen]
      simp

theorem readBack_ofMembers {list : List (String × Json)} (h : ∀ m ∈ list, ReadBack m.2) :
    ReadBack (.ofMembers list) := by
  intro level fuel rest hfuel _
  cases fuel with
  | zero =>
    rcases list with - | ⟨⟨key, item⟩, later⟩ <;> simp at hfuel
  | succ fuel =>
    cases list with
    | nil =>
      rw [toList_renderAt_ofMembers_nil, List.cons_append, value, skipBlanks_cons (by decide)]
      simp only [List.cons_append]
      rw [skipBlanks_cons (by decide)]
      rfl
    | cons m later =>
      obtain ⟨key, item⟩ := m
      rw [toList_renderAt_ofMembers_cons] at hfuel ⊢
      have hlen : (renderAt (level + 1) item).toList.length +
          (laterMembers (level + 1) later).length < fuel := by
        simp only [List.length_cons, List.length_append, List.length_nil] at hfuel
        omega
      have hmembers := members_laterMembers h level hlen [] rest
      rw [List.cons_append, value, skipBlanks_cons (by decide)]
      simp only [List.append_assoc, List.cons_append]
      rw [skipBlanks_append fun _ => isBlank_of_mem_newline, skipBlanks_cons (by decide)]
      exact hmembers

theorem Plain.readBack {json : Json} (h : Plain json) : ReadBack json := by
  induction h with
  | null => exact readBack_null
  | bool b => exact readBack_bool b
  | ofNat k => exact readBack_ofNat k
  | ofString text => exact readBack_ofString text
  | array hplain ih => exact readBack_array hplain ih
  | ofMembers _ ih => exact readBack_ofMembers ih

/-- The text of a plain value is read as that value. -/
theorem parse?_render {json : Json} (h : Plain json) : parse? json.render = some json := by
  have hvalue := h.readBack 0 (2 * json.render.toList.length + 2) []
    (by rw [← render]; omega) trivial
  rw [List.append_nil, ← render] at hvalue
  rw [parse?]
  simp only [hvalue]
  rfl

end GateSynth.Json
