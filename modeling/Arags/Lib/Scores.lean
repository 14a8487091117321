import Mathlib.Algebra.Order.Field.Basic
import Mathlib.Tactic.Linarith

/-!
# Scores

Pieces of a score, over an ordered field.

* `decay`   — one, less a weight for each unit, and never below a floor.
* `balance` — the difference of two counts by their sum; zero where both are zero.
* `clamp`   — the nearest value of the unit interval.
-/

namespace Scores

variable {K : Type*} [Field K] [LinearOrder K]

def decay (weight floor x : K) : K := max (1 - weight * x) floor

def balance (x y : K) : K := if x + y = 0 then 0 else (x - y) / (x + y)

def clamp (x : K) : K := max 0 (min x 1)

variable {weight floor x x' y y' : K}

theorem decay_nonneg (hfloor : 0 ≤ floor) (x : K) : 0 ≤ decay weight floor x :=
  hfloor.trans (le_max_right _ _)

theorem clamp_nonneg (x : K) : 0 ≤ clamp x := le_max_left _ _

theorem clamp_monotone : Monotone (clamp (K := K)) := by
  intro x y hxy
  exact max_le_max_left 0 (min_le_min_right 1 hxy)

theorem balance_self (x : K) : balance x x = 0 := by
  simp [balance]

theorem balance_swap (x y : K) : balance y x = - balance x y := by
  rw [balance, balance, add_comm y x]
  split
  · exact neg_zero.symm
  · rw [← neg_div, neg_sub]

variable [IsStrictOrderedRing K]

theorem clamp_le_one (x : K) : clamp x ≤ 1 := max_le zero_le_one (min_le_right _ _)

theorem decay_antitone (hweight : 0 ≤ weight) : Antitone (decay weight floor) := by
  intro x x' hx
  exact max_le_max_right floor (sub_le_sub_left (mul_le_mul_of_nonneg_left hx hweight) 1)

/-- The jump away from two zeros is upwards. -/
theorem balance_nonneg (hx : 0 ≤ x) : 0 ≤ balance x 0 := by
  rw [balance, add_zero, sub_zero]
  split
  · exact le_refl 0
  · exact div_nonneg hx hx

theorem balance_mono_left (hx : 0 ≤ x) (hy : 0 ≤ y) (hle : x ≤ x') :
    balance x y ≤ balance x' y := by
  rcases (add_nonneg hx hy).eq_or_lt' with hzero | hpos
  · obtain ⟨rfl, rfl⟩ := (add_eq_zero_iff_of_nonneg hx hy).mp hzero
    rw [balance_self]
    exact balance_nonneg hle
  · have hpos' : 0 < x' + y := by linarith
    have hcross : x * y ≤ x' * y := mul_le_mul_of_nonneg_right hle hy
    rw [balance, balance, if_neg hpos.ne', if_neg hpos'.ne', div_le_div_iff₀ hpos hpos']
    linarith

/-- What the first count does, the second undoes. -/
theorem balance_anti_right (hx : 0 ≤ x) (hy : 0 ≤ y) (hle : y ≤ y') :
    balance x y' ≤ balance x y := by
  rw [balance_swap y' x, balance_swap y x]
  exact neg_le_neg (balance_mono_left hy hx hle)

end Scores
