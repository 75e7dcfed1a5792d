/-!
# Insertion-ordered tables

A `Table` lists keys with their values in the order in which the keys first came. Inserting
under a known key replaces the value and keeps the place; `swapErase` fills the gap of an erased
entry with the last one. `find?_insert` says what an insertion does to look-ups, `keys_insert`
what it does to the order.
-/

namespace GateSynth

/-- Keys with their values, in the order of first insertion. -/
structure Table (κ α : Type) where
  /-- The entries in order. -/
  entries : List (κ × α)
deriving DecidableEq

namespace Table

variable {κ α : Type}

/-- The table without entries. -/
def empty : Table κ α := ⟨[]⟩

instance : Inhabited (Table κ α) := ⟨empty⟩

/-- The keys in order. -/
def keys (t : Table κ α) : List κ := t.entries.map Prod.fst

/-- The values in the order of their keys. -/
def values (t : Table κ α) : List α := t.entries.map Prod.snd

/-- The number of entries. -/
def size (t : Table κ α) : Nat := t.entries.length

variable [DecidableEq κ]

/-- The value of the first entry of a list under a key. -/
@[specialize] def findEntry (key : κ) : List (κ × α) → Option α
  | [] => none
  | (k, v) :: rest => if key = k then some v else findEntry key rest

/-- The value under a key. -/
@[inline] def find? (t : Table κ α) (key : κ) : Option α := findEntry key t.entries

/-- Is there an entry under this key? -/
def contains (t : Table κ α) (key : κ) : Bool := (t.find? key).isSome

/-- The entries with `key` bound to `value`, in its old place or else at the end. -/
@[specialize] def insertEntry (key : κ) (value : α) : List (κ × α) → List (κ × α)
  | [] => [(key, value)]
  | (k, v) :: rest =>
    if key = k then (k, value) :: rest else (k, v) :: insertEntry key value rest

/-- Bind a key; a known key keeps its place. -/
@[inline] def insert (t : Table κ α) (key : κ) (value : α) : Table κ α :=
  ⟨insertEntry key value t.entries⟩

/-- Bind a key in front of all entries; an earlier entry of the key is hidden. -/
@[inline] def push (t : Table κ α) (key : κ) (value : α) : Table κ α :=
  ⟨(key, value) :: t.entries⟩

/-- Bind the pairs of a list one after the other. -/
def ofList (pairs : List (κ × α)) : Table κ α :=
  pairs.foldl (fun t p => t.insert p.1 p.2) empty

/-- Drop the entry of a key; the last entry takes its place. -/
def swapErase (t : Table κ α) (key : κ) : Table κ α :=
  match t.entries.findIdx? (fun e => e.1 = key), t.entries.getLast? with
  | some place, some last => ⟨(t.entries.set place last).dropLast⟩
  | _, _ => t

/-- Drop the entries of a key; the others keep their order. -/
def erase (t : Table κ α) (key : κ) : Table κ α :=
  ⟨t.entries.filter fun e => e.1 ≠ key⟩

@[simp] theorem find?_empty (key : κ) : (empty : Table κ α).find? key = none := rfl

/-- After an insertion the key has the new value and every other key its old one. -/
theorem find?_insert (t : Table κ α) (key other : κ) (value : α) :
    (t.insert key value).find? other = if other = key then some value else t.find? other := by
  obtain ⟨entries⟩ := t
  simp only [insert, find?]
  induction entries with
  | nil => simp [insertEntry, findEntry]
  | cons e rest ih => grind [insertEntry, findEntry]

/-- A pushed entry is found like an inserted one. -/
theorem find?_push (t : Table κ α) (key other : κ) (value : α) :
    (t.push key value).find? other = if other = key then some value else t.find? other := rfl

@[simp] theorem find?_insert_self (t : Table κ α) (key : κ) (value : α) :
    (t.insert key value).find? key = some value := by
  simp [find?_insert]

/-- A new key comes last; a known key leaves the order as it is. -/
theorem keys_insert (t : Table κ α) (key : κ) (value : α) :
    (t.insert key value).keys = if key ∈ t.keys then t.keys else t.keys ++ [key] := by
  obtain ⟨entries⟩ := t
  simp only [insert, keys]
  induction entries with
  | nil => simp [insertEntry]
  | cons e rest ih => grind [insertEntry]

end Table

end GateSynth
