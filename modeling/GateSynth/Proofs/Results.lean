import Mathlib.Data.List.Forall2

/-!
# Computations that end well

Inversion of computations in `Except` and `Option`: a sequence of steps ends well only if every
step does.
-/

namespace GateSynth

variable {ε ε' α β : Type}

/-- A computation in two steps that ends well does so in both. -/
theorem ok_of_bind {x : Except ε α} {f : α → Except ε β} {b : β} (h : (x >>= f) = .ok b) :
    ∃ a, x = .ok a ∧ f a = .ok b := by
  cases x with
  | error e => cases h
  | ok a => exact ⟨a, rfl, h⟩

theorem bind_eq_ok {x : Except ε α} {f : α → Except ε β} {b : β} :
    (x >>= f) = .ok b ↔ ∃ a, x = .ok a ∧ f a = .ok b := by
  refine ⟨ok_of_bind, ?_⟩
  rintro ⟨a, rfl, h⟩
  exact h

/-- A computation in two steps that fails does so in one of them. -/
theorem error_of_bind {x : Except ε α} {f : α → Except ε β} {e : ε} (h : (x >>= f) = .error e) :
    x = .error e ∨ ∃ a, x = .ok a ∧ f a = .error e := by
  cases x with
  | error e' =>
    cases h
    exact .inl rfl
  | ok a => exact .inr ⟨a, rfl, h⟩

/-- A check before a computation changes nothing if it passes. -/
theorem bind_eq_ok_iff {x : Except ε Unit} {f : Unit → Except ε β} {b : β} :
    (x >>= f) = .ok b ↔ x = .ok () ∧ f () = .ok b := by
  cases x with
  | error e => simp [bind, Except.bind]
  | ok u => simp [bind, Except.bind]

theorem exists_ok_of_isOk {x : Except ε α} (h : x.isOk = true) : ∃ a, x = .ok a := by
  cases x with
  | error e => cases h
  | ok a => exact ⟨a, rfl⟩

theorem ok_of_toOption {x : Except ε α} {a : α} (h : x.toOption = some a) : x = .ok a := by
  cases x with
  | error e => cases h
  | ok b =>
    cases h
    rfl

/-- A renamed error is still an error. -/
theorem ok_of_mapError {x : Except ε α} {f : ε → ε'} {a : α} (h : x.mapError f = .ok a) :
    x = .ok a := by
  cases x with
  | error e => cases h
  | ok b => simpa [Except.mapError] using h

/-! ## Computations with a state -/

section
variable {σ : Type} {s s' : σ}

theorem run_of_bind {x : StateT σ (Except ε) α} {f : α → StateT σ (Except ε) β} {b : β}
    (h : (x >>= f).run s = .ok (b, s')) :
    ∃ a t, x.run s = .ok (a, t) ∧ (f a).run t = .ok (b, s') := by
  obtain ⟨⟨a, t⟩, hx, hf⟩ := ok_of_bind h
  exact ⟨a, t, hx, hf⟩

/-- A computation without a state leaves it alone. -/
theorem run_of_lift {x : Except ε α} {a : α}
    (h : (liftM x : StateT σ (Except ε) α).run s = .ok (a, s')) : x = .ok a ∧ s = s' := by
  obtain ⟨b, hx, hb⟩ := ok_of_bind h
  cases hb
  exact ⟨hx, rfl⟩

theorem run_of_lift_bind {x : Except ε α} {f : α → StateT σ (Except ε) β} {b : β}
    (h : ((liftM x : StateT σ (Except ε) α) >>= f).run s = .ok (b, s')) :
    ∃ a, x = .ok a ∧ (f a).run s = .ok (b, s') := by
  obtain ⟨a, t, hx, hf⟩ := run_of_bind h
  obtain ⟨hx', rfl⟩ := run_of_lift hx
  exact ⟨a, hx', hf⟩

/-- A loop over a list passes every element once. -/
theorem run_of_forM {f : α → StateT σ (Except ε) Unit} {before after : List α} {a : α}
    (h : ((before ++ a :: after).forM f).run s = .ok ((), s')) :
    ∃ t t', (before.forM f).run s = .ok ((), t) ∧ (f a).run t = .ok ((), t') ∧
      (after.forM f).run t' = .ok ((), s') := by
  induction before generalizing s with
  | nil =>
    obtain ⟨⟨⟩, t, ha, hafter⟩ := run_of_bind h
    exact ⟨s, t, rfl, ha, hafter⟩
  | cons b before ih =>
    obtain ⟨⟨⟩, u, hb, hrest⟩ := run_of_bind h
    obtain ⟨t, t', hbefore, ha, hafter⟩ := ih hrest
    refine ⟨t, t', ?_, ha, hafter⟩
    show (f b >>= fun _ => before.forM f).run s = _
    rw [StateT.run_bind, hb]
    exact hbefore

end

/-! ## Lists of computations -/

/-- Every result of a list of computations is the result of its element. -/
theorem forall₂_of_mapM_ok {f : α → Except ε β} {xs : List α} {ys : List β}
    (h : xs.mapM f = .ok ys) : List.Forall₂ (fun x y => f x = .ok y) xs ys := by
  induction xs generalizing ys with
  | nil =>
    cases h
    exact .nil
  | cons x xs ih =>
    rw [List.mapM_cons] at h
    obtain ⟨y, hy, h⟩ := ok_of_bind h
    obtain ⟨ys, hys, h⟩ := ok_of_bind h
    cases h
    exact .cons hy (ih hys)

theorem forall₂_of_mapM_some {f : α → Option β} {xs : List α} {ys : List β}
    (h : xs.mapM f = some ys) : List.Forall₂ (fun x y => f x = some y) xs ys := by
  induction xs generalizing ys with
  | nil =>
    cases h
    exact .nil
  | cons x xs ih =>
    rw [List.mapM_cons] at h
    obtain ⟨y, hy, h⟩ := Option.bind_eq_some_iff.1 h
    obtain ⟨ys, hys, h⟩ := Option.bind_eq_some_iff.1 h
    cases h
    exact .cons hy (ih hys)

theorem exists_mapM_some {f : α → Option β} {xs : List α} (h : ∀ x ∈ xs, (f x).isSome) :
    ∃ ys, xs.mapM f = some ys := by
  induction xs with
  | nil => exact ⟨[], rfl⟩
  | cons x xs ih =>
    rw [List.forall_mem_cons] at h
    obtain ⟨y, hy⟩ := Option.isSome_iff_exists.1 h.1
    obtain ⟨ys, hys⟩ := ih h.2
    exact ⟨y :: ys, by rw [List.mapM_cons, hy, hys]; rfl⟩

theorem mapM_eq_some_map {f : α → Option β} {g : α → β} {xs : List α}
    (h : ∀ x ∈ xs, f x = some (g x)) : xs.mapM f = some (xs.map g) := by
  induction xs with
  | nil => rfl
  | cons x xs ih =>
    rw [List.forall_mem_cons] at h
    rw [List.mapM_cons, h.1, ih h.2]
    rfl

/-- What holds of every pair of two lists holds of some partner of every element. -/
theorem exists_of_forall₂ {r : α → β → Prop} {xs : List α} {ys : List β}
    (h : List.Forall₂ r xs ys) {y : β} (hy : y ∈ ys) : ∃ x ∈ xs, r x y := by
  induction h with
  | nil => cases hy
  | cons hr _ ih =>
    rcases List.mem_cons.1 hy with rfl | hy
    · exact ⟨_, .head _, hr⟩
    · obtain ⟨x, hx, hxy⟩ := ih hy
      exact ⟨x, .tail _ hx, hxy⟩

end GateSynth
