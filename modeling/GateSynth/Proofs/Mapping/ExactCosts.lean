import GateSynth.Proofs.Mapping.Choices
import Mathlib.Algebra.Group.Subgroup.ZPowers.Basic
import Mathlib.Algebra.Order.Field.Rat
import Mathlib.Algebra.Order.Ring.Abs
import Mathlib.Algebra.Order.Ring.Cast
import Mathlib.Data.Int.Cast.Lemmas
import Mathlib.Tactic.NormNum

/-!
# Exact costs

Rational areas and delays are added without rounding. Where the quantities that a strategy compares
first are multiples of one unit that is larger than the tolerance, two of them are told apart
exactly if they differ (`Quantity.apart_iff`), so of some choices none is better in this quantity
than the one that is preferred (`foldl_prefer_le`), and of the matches of a node none is better than
the one that is chosen (`Settled.key_le`).
-/

namespace GateSynth

namespace Quantity

/-- The tolerance for rationals. -/
def exactTolerance : ℚ := 1 / 10 ^ 9

/-- Rationals as areas and delays. -/
instance : Quantity ℚ where
  zero := 0
  emptySum := 0
  add := (· + ·)
  max a b := if a < b then b else a
  less a b := a < b
  apart a b := |a - b| > exactTolerance
  isPositive x := 0 < x
  isNonNegative x := 0 ≤ x
  text := toString

variable {unit a b : ℚ}

theorem le_abs_of_mem_zmultiples (hunit : 0 ≤ unit) (ha : a ∈ AddSubgroup.zmultiples unit)
    (hne : a ≠ 0) : unit ≤ |a| := by
  obtain ⟨k, rfl⟩ := AddSubgroup.mem_zmultiples_iff.1 ha
  rw [zsmul_eq_mul] at hne ⊢
  have hk : k ≠ 0 := by
    rintro rfl
    rw [Int.cast_zero, zero_mul] at hne
    exact hne rfl
  have hone : (1 : ℚ) ≤ |(k : ℚ)| := by
    rw [← Int.cast_abs]
    exact_mod_cast Int.one_le_abs hk
  calc unit = 1 * unit := (one_mul unit).symm
    _ ≤ |(k : ℚ)| * unit := mul_le_mul_of_nonneg_right hone hunit
    _ = |(k : ℚ) * unit| := by rw [abs_mul, abs_of_nonneg hunit]

theorem exactTolerance_pos : 0 < exactTolerance := by norm_num [exactTolerance]

/-- Multiples of a unit that is larger than the tolerance are told apart exactly if they differ. -/
theorem apart_iff (hunit : exactTolerance < unit) (ha : a ∈ AddSubgroup.zmultiples unit)
    (hb : b ∈ AddSubgroup.zmultiples unit) : apart a b = true ↔ a ≠ b := by
  constructor
  · rintro happart rfl
    have hlt : exactTolerance < |a - a| := of_decide_eq_true happart
    rw [sub_self, abs_zero] at hlt
    exact lt_asymm exactTolerance_pos hlt
  · intro hne
    have hle := le_abs_of_mem_zmultiples (exactTolerance_pos.trans hunit).le (sub_mem ha hb)
      (sub_ne_zero.2 hne)
    exact decide_eq_true (hunit.trans_le hle)

end Quantity

variable {unit : ℚ} {strategy : Strategy}

/-- What a strategy compares first decides, unless it is equal. -/
theorem Cost.isBetter_cases {c d : Cost ℚ} (hunit : Quantity.exactTolerance < unit)
    (hc : (c.key strategy).1 ∈ AddSubgroup.zmultiples unit)
    (hd : (d.key strategy).1 ∈ AddSubgroup.zmultiples unit) :
    if Cost.isBetter strategy c d then (c.key strategy).1 ≤ (d.key strategy).1
    else (d.key strategy).1 ≤ (c.key strategy).1 := by
  by_cases heq : (c.key strategy).1 = (d.key strategy).1
  · rw [heq, ite_self]
  · have happart := (Quantity.apart_iff hunit hc hd).2 heq
    have hbetter : Cost.isBetter strategy c d =
        decide ((c.key strategy).1 < (d.key strategy).1) := by
      rw [Cost.isBetter]
      exact if_pos happart
    rw [hbetter]
    split
    · next hlt => exact (of_decide_eq_true hlt).le
    · next hnot => exact not_lt.1 fun hlt => hnot (decide_eq_true hlt)

namespace Selection

variable {choices : List (Choice ℚ)} {kept best : Choice ℚ}

theorem foldl_prefer_le_of_some (hunit : Quantity.exactTolerance < unit)
    (hgrid : ∀ c ∈ kept :: choices, (c.cost.key strategy).1 ∈ AddSubgroup.zmultiples unit)
    (h : choices.foldl (prefer strategy) (some kept) = some best) :
    ∀ c ∈ kept :: choices, (best.cost.key strategy).1 ≤ (c.cost.key strategy).1 := by
  induction choices generalizing kept with
  | nil =>
    cases h
    simp
  | cons next rest ih =>
    simp only [List.forall_mem_cons] at hgrid ih ⊢
    obtain ⟨hkept, hnext, hrest⟩ := hgrid
    have hcases := Cost.isBetter_cases hunit hnext hkept
    rw [List.foldl_cons, prefer] at h
    split at h
    · next hbetter =>
      rw [if_pos hbetter] at hcases
      obtain ⟨hle, hall⟩ := ih ⟨hnext, hrest⟩ h
      exact ⟨hle.trans hcases, hle, hall⟩
    · next hworse =>
      rw [if_neg hworse] at hcases
      obtain ⟨hle, hall⟩ := ih ⟨hkept, hrest⟩ h
      exact ⟨hle, hle.trans hcases, hall⟩

/-- No choice is better than the one that is preferred, in what the strategy compares first. -/
theorem foldl_prefer_le (hunit : Quantity.exactTolerance < unit)
    (hgrid : ∀ c ∈ choices, (c.cost.key strategy).1 ∈ AddSubgroup.zmultiples unit)
    (h : choices.foldl (prefer strategy) none = some best) :
    ∀ c ∈ choices, (best.cost.key strategy).1 ≤ (c.cost.key strategy).1 := by
  cases choices with
  | nil => cases h
  | cons first rest => exact foldl_prefer_le_of_some hunit hgrid h

/-- No match of a node that can be used is better than the one that is chosen, in what the strategy
compares first. -/
theorem Settled.key_le {lib : Library ℚ} {s : Subject} {sel : Selection ℚ} {node : Node}
    {m : Match ℚ} {cost : Cost ℚ} (h : sel.Settled s lib strategy)
    (hunit : Quantity.exactTolerance < unit) (hnode : node ∈ s.netlist.nodes)
    (hgrid : ∀ m ∈ s.nodeMatches lib node, ∀ cost, sel.costOf s m = .ok cost →
      (cost.key strategy).1 ∈ AddSubgroup.zmultiples unit)
    (hm : m ∈ s.nodeMatches lib node) (hcost : sel.costOf s m = .ok cost) :
    ∃ choice, sel.best.find? node.id = some choice ∧
      (choice.cost.key strategy).1 ≤ (cost.key strategy).1 := by
  obtain ⟨choice, hchoice, rfl, rfl⟩ := exists_mem_usable hm hcost
  have hbest := h.best node hnode
  cases hfold : (sel.usable s (s.nodeMatches lib node)).foldl (prefer strategy) none with
  | none =>
    rw [foldl_prefer_eq_none_iff.1 hfold] at hchoice
    cases hchoice
  | some best =>
    refine ⟨best, hbest.trans hfold, foldl_prefer_le hunit (fun c hc => ?_) hfold choice hchoice⟩
    exact hgrid c.candidate (candidate_mem_of_usable hc) c.cost (costOf_of_mem_usable hc)

end Selection

end GateSynth
