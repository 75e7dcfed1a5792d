/-!
# Totals

The sum and the greatest of a list of numbers.
-/

namespace GateSynth

/-- The sum of a list of numbers. -/
def total : List Nat → Nat
  | [] => 0
  | number :: rest => number + total rest

/-- The largest number of a list, zero if there is none. -/
def greatest (numbers : List Nat) : Nat := numbers.foldl max 0

@[simp] theorem total_append (xs ys : List Nat) : total (xs ++ ys) = total xs + total ys := by
  induction xs with
  | nil => simp [total]
  | cons x xs ih => simp [total, ih, Nat.add_assoc]

theorem le_total_of_mem {x : Nat} {xs : List Nat} (hx : x ∈ xs) : x ≤ total xs := by
  induction hx with
  | head => exact Nat.le_add_right _ _
  | tail _ _ ih => exact Nat.le_trans ih (Nat.le_add_left _ _)

section
variable {α : Type}

theorem total_filter_le (f : α → Nat) (p : α → Bool) (xs : List α) :
    total ((xs.filter p).map f) ≤ total (xs.map f) := by
  induction xs with
  | nil => exact Nat.le_refl _
  | cons x rest ih =>
    by_cases hp : p x = true
    · simp only [List.filter_cons_of_pos hp, List.map_cons, total]
      omega
    · simp only [List.filter_cons_of_neg hp, List.map_cons, total]
      omega

/-- What is filtered out is missing in the sum. -/
theorem total_filter_add_le {f : α → Nat} {p : α → Bool} {x : α} (hp : p x = false) {xs : List α}
    (hx : x ∈ xs) : total ((xs.filter p).map f) + f x ≤ total (xs.map f) := by
  induction xs with
  | nil => cases hx
  | cons y rest ih =>
    rcases List.mem_cons.1 hx with rfl | hrest
    · have hle := total_filter_le f p rest
      rw [List.filter_cons_of_neg (by simp [hp])]
      simp only [List.map_cons, total]
      omega
    · have hle := ih hrest
      by_cases hpy : p y = true
      · simp only [List.filter_cons_of_pos hpy, List.map_cons, total]
        omega
      · simp only [List.filter_cons_of_neg hpy, List.map_cons, total]
        omega

end

end GateSynth
