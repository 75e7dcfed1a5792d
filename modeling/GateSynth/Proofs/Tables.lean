import GateSynth.Table
import Mathlib.Data.List.Perm.Basic
import Mathlib.Data.List.Nodup

/-!
# Look-ups in tables

A table whose keys are distinct is a finite map: a look-up finds exactly the entries of the list
(`find?_eq_some_iff`), and erasing a key changes the look-up of that key alone
(`find?_swapErase`, `find?_erase`). The operations keep the keys distinct, and they are the same
operations whatever becomes of the values (`mapValues_insert`).
-/

namespace GateSynth.Table

variable {κ α : Type} [DecidableEq κ] {t : Table κ α} {key other : κ} {value : α}

/-! ## Keys -/

theorem find?_isSome_iff : (t.find? key).isSome ↔ key ∈ t.keys := by
  obtain ⟨entries⟩ := t
  simp only [find?, keys]
  induction entries with
  | nil => simp [findEntry]
  | cons e rest ih =>
    obtain ⟨k, v⟩ := e
    by_cases hk : key = k
    · simp [findEntry, hk]
    · simpa [findEntry, hk] using ih

theorem contains_iff : t.contains key = true ↔ key ∈ t.keys := by
  rw [contains, find?_isSome_iff]

theorem find?_eq_none_iff : t.find? key = none ↔ key ∉ t.keys := by
  rw [← find?_isSome_iff, Option.not_isSome_iff_eq_none]

theorem mem_keys_of_find? (h : t.find? key = some value) : key ∈ t.keys :=
  find?_isSome_iff.1 (by simp [h])

theorem mem_entries_of_find? (h : t.find? key = some value) : (key, value) ∈ t.entries := by
  obtain ⟨entries⟩ := t
  simp only [find?] at *
  induction entries with
  | nil => simp [findEntry] at h
  | cons e rest ih =>
    obtain ⟨k, v⟩ := e
    by_cases hk : key = k
    · simp_all [findEntry]
    · exact List.mem_cons_of_mem _ (ih (by simpa [findEntry, hk] using h))

/-- Where the keys are distinct, a look-up finds exactly what is listed. -/
theorem find?_eq_some_iff (h : t.keys.Nodup) :
    t.find? key = some value ↔ (key, value) ∈ t.entries := by
  refine ⟨mem_entries_of_find?, fun hm => ?_⟩
  have hk : key ∈ t.keys := List.mem_map.2 ⟨_, hm, rfl⟩
  obtain ⟨v, hv⟩ := Option.isSome_iff_exists.1 (find?_isSome_iff.2 hk)
  have := List.inj_on_of_nodup_map h (mem_entries_of_find? hv) hm rfl
  cases this
  exact hv

/-! ## Insertion -/

theorem nodup_keys_insert (h : t.keys.Nodup) : (t.insert key value).keys.Nodup := by
  rw [keys_insert]
  split
  · exact h
  · next hk =>
    refine List.nodup_append.2 ⟨h, by simp, ?_⟩
    intro a ha b hb hab
    rw [List.mem_singleton.1 hb] at hab
    exact hk (hab ▸ ha)

theorem mem_keys_insert : other ∈ (t.insert key value).keys ↔ other = key ∨ other ∈ t.keys := by
  rw [keys_insert]
  split
  · next hk =>
    constructor
    · exact .inr
    · rintro (rfl | h)
      exacts [hk, h]
  · simp [or_comm]

theorem keys_prefix_insert : t.keys <+: (t.insert key value).keys := by
  rw [keys_insert]
  split
  · exact List.prefix_refl _
  · exact List.prefix_append _ _

/-- A new key comes last with its value. -/
theorem insert_of_not_mem (h : key ∉ t.keys) :
    t.insert key value = ⟨t.entries ++ [(key, value)]⟩ := by
  obtain ⟨entries⟩ := t
  simp only [insert, keys, mk.injEq] at *
  induction entries with
  | nil => rfl
  | cons e rest ih =>
    obtain ⟨k, v⟩ := e
    rw [List.map_cons, List.mem_cons, not_or] at h
    rw [insertEntry, if_neg h.1, ih h.2, List.cons_append]

/-- Binding a key to the value that it has changes nothing. -/
theorem insert_of_find? (h : t.find? key = some value) : t.insert key value = t := by
  obtain ⟨entries⟩ := t
  simp only [insert, find?, mk.injEq] at *
  induction entries with
  | nil => cases h
  | cons e rest ih =>
    obtain ⟨k, v⟩ := e
    rw [findEntry] at h
    rw [insertEntry]
    split
    · next hk =>
      rw [if_pos hk, Option.some.injEq] at h
      rw [h]
    · next hk =>
      rw [if_neg hk] at h
      rw [ih h]

/-! ## Erasure -/

/-- Overwriting an entry with the last one and dropping the last one takes the entry out. -/
theorem dropLast_set_perm {l : List α} {i : Nat} {a : α} (hi : i < l.length)
    (ha : l.getLast? = some a) : ((l.set i a).dropLast).Perm (l.eraseIdx i) := by
  obtain ⟨front, rfl⟩ := List.getLast?_eq_some_iff.1 ha
  rcases Nat.lt_or_ge i front.length with hlt | hge
  · rw [List.set_append_left _ _ hlt, List.dropLast_concat, List.eraseIdx_append_of_lt_length hlt]
    exact (List.set_perm_cons_eraseIdx hlt a).trans (List.perm_append_singleton a _).symm
  · have hi' : i = front.length := by simp at hi; omega
    subst hi'
    simp [List.eraseIdx_append_of_length_le]

theorem nodup_keys_swapErase (h : t.keys.Nodup) : (t.swapErase key).keys.Nodup := by
  obtain ⟨entries⟩ := t
  simp only [swapErase]
  split
  · next place last hp hl =>
    obtain ⟨hlt, -, -⟩ := List.findIdx?_eq_some_iff_getElem.1 hp
    have hperm := (dropLast_set_perm hlt hl).map Prod.fst
    exact hperm.nodup_iff.2 (h.sublist ((List.eraseIdx_sublist _ _).map _))
  · exact h

/-- The entries that are left when a key is erased. -/
theorem mem_entries_swapErase (h : t.keys.Nodup) {e : κ × α} :
    e ∈ (t.swapErase key).entries ↔ e ∈ t.entries ∧ e.1 ≠ key := by
  obtain ⟨entries⟩ := t
  simp only [swapErase]
  split
  · next place last hp hl =>
    obtain ⟨hlt, hkey, -⟩ := List.findIdx?_eq_some_iff_getElem.1 hp
    rw [(dropLast_set_perm hlt hl).mem_iff, List.mem_eraseIdx_iff_getElem]
    simp only [decide_eq_true_eq] at hkey
    constructor
    · rintro ⟨j, hj, hne, rfl⟩
      refine ⟨List.getElem_mem _, fun he => hne ?_⟩
      refine (List.getElem?_inj (by simpa [keys] using hj) h).1 ?_
      simp [keys, hj, hlt, he, hkey]
    · rintro ⟨hm, hne⟩
      obtain ⟨j, hj, rfl⟩ := List.getElem_of_mem hm
      exact ⟨j, hj, fun he => hne (by subst he; exact hkey), rfl⟩
  · next hnone =>
    refine ⟨fun he => ⟨he, fun hk => ?_⟩, And.left⟩
    have hsome : (entries.findIdx? fun e => decide (e.1 = key)).isSome := by
      rw [List.findIdx?_isSome, List.any_eq_true]
      exact ⟨e, he, by simpa using hk⟩
    obtain ⟨place, hp⟩ := Option.isSome_iff_exists.1 hsome
    cases hl : entries.getLast? with
    | none =>
      rw [List.getLast?_eq_none_iff] at hl
      rw [hl] at he
      cases he
    | some last => exact hnone place last hp hl

/-- Erasing a key changes the look-up of that key alone. -/
theorem find?_swapErase (h : t.keys.Nodup) :
    (t.swapErase key).find? other = if other = key then none else t.find? other := by
  have hnodup : (t.swapErase key).keys.Nodup := nodup_keys_swapErase h
  split
  · next heq =>
    rw [find?_eq_none_iff]
    intro hm
    obtain ⟨e, he, rfl⟩ := List.mem_map.1 hm
    exact ((mem_entries_swapErase h).1 he).2 heq
  · next hne =>
    refine Option.ext fun value => ?_
    rw [find?_eq_some_iff hnodup, find?_eq_some_iff h, mem_entries_swapErase h]
    exact and_iff_left hne

theorem find?_erase : (t.erase key).find? other = if other = key then none else t.find? other := by
  obtain ⟨entries⟩ := t
  simp only [find?, erase]
  induction entries with
  | nil => simp [findEntry]
  | cons e rest ih => grind [findEntry]

theorem nodup_keys_erase (h : t.keys.Nodup) : (t.erase key).keys.Nodup :=
  h.sublist (List.filter_sublist.map Prod.fst)

/-! ## Changing all values -/

section
variable {β : Type} (f : α → β)

/-- The table with a function applied to every value. -/
def mapValues (t : Table κ α) : Table κ β := ⟨t.entries.map fun e => (e.1, f e.2)⟩

theorem find?_mapValues : (t.mapValues f).find? key = (t.find? key).map f := by
  obtain ⟨entries⟩ := t
  simp only [find?, mapValues]
  induction entries with
  | nil => rfl
  | cons e rest ih =>
    rw [List.map_cons, findEntry, findEntry, ih]
    split <;> rfl

theorem mapValues_insert :
    (t.insert key value).mapValues f = (t.mapValues f).insert key (f value) := by
  obtain ⟨entries⟩ := t
  simp only [insert, mapValues, mk.injEq]
  induction entries with
  | nil => rfl
  | cons e rest ih =>
    rw [List.map_cons, insertEntry, insertEntry, ← ih]
    split <;> rfl

theorem mapValues_swapErase :
    (t.swapErase key).mapValues f = (t.mapValues f).swapErase key := by
  obtain ⟨entries⟩ := t
  have hplace : (entries.map fun e => (e.1, f e.2)).findIdx? (fun e => decide (e.1 = key)) =
      entries.findIdx? fun e => decide (e.1 = key) := by
    rw [List.findIdx?_map]
    rfl
  simp only [swapErase, mapValues, hplace, List.getLast?_map]
  cases entries.findIdx? fun e => decide (e.1 = key) with
  | none => rfl
  | some place =>
    cases entries.getLast? with
    | none => rfl
    | some last => simp only [Option.map_some, List.map_dropLast, List.map_set]

end

/-! ## Tables of lists -/

theorem mem_keys_ofList {pairs : List (κ × α)} :
    key ∈ (ofList pairs).keys ↔ key ∈ pairs.map Prod.fst := by
  suffices hfold : ∀ t : Table κ α, key ∈ (pairs.foldl (fun t p => t.insert p.1 p.2) t).keys ↔
      key ∈ t.keys ∨ key ∈ pairs.map Prod.fst by
    have hempty : key ∉ (empty : Table κ α).keys := List.not_mem_nil
    rw [ofList, hfold, or_iff_right hempty]
  induction pairs with
  | nil => simp
  | cons p rest ih =>
    intro t
    rw [List.foldl_cons, ih, mem_keys_insert, List.map_cons, List.mem_cons, or_assoc, or_left_comm]

/-- A key that comes with one value only has that value in the table of a list. -/
theorem find?_ofList {pairs : List (κ × α)} (hmem : (key, value) ∈ pairs)
    (hall : ∀ other, (key, other) ∈ pairs → other = value) :
    (ofList pairs).find? key = some value := by
  suffices hfold : ∀ t : Table κ α, t.find? key = some value ∨ (key, value) ∈ pairs →
      (pairs.foldl (fun t p => t.insert p.1 p.2) t).find? key = some value from
    hfold empty (.inr hmem)
  clear hmem
  induction pairs with
  | nil =>
    intro t h
    exact h.resolve_right (List.not_mem_nil)
  | cons pair rest ih =>
    obtain ⟨k, x⟩ := pair
    intro t h
    refine ih (fun other ho => hall other (.tail _ ho)) _ ?_
    rw [find?_insert]
    by_cases hk : key = k
    · subst hk
      rw [if_pos rfl, hall x (.head _)]
      exact .inl rfl
    · rw [if_neg hk]
      refine h.imp_right fun hm => (List.mem_cons.1 hm).resolve_left ?_
      intro heq
      exact hk (congrArg Prod.fst heq)

/-- A list of pairs with distinct keys is the table of itself. -/
theorem ofList_of_nodup {pairs : List (κ × α)} (h : (pairs.map Prod.fst).Nodup) :
    ofList pairs = ⟨pairs⟩ := by
  suffices hfold : ∀ before : List (κ × α), ((before ++ pairs).map Prod.fst).Nodup →
      pairs.foldl (fun t p => t.insert p.1 p.2) (⟨before⟩ : Table κ α) = ⟨before ++ pairs⟩ from
    hfold [] h
  clear h
  induction pairs with
  | nil =>
    intro before _
    rw [List.append_nil]
    rfl
  | cons pair rest ih =>
    obtain ⟨k, x⟩ := pair
    intro before h
    have hnew : k ∉ (⟨before⟩ : Table κ α).keys := by
      rw [List.map_append, List.nodup_append] at h
      exact fun hmem => h.2.2 k hmem k (.head _) rfl
    rw [List.append_cons] at h ⊢
    rw [List.foldl_cons, insert_of_not_mem hnew, ih _ h]

end GateSynth.Table
