import Mathlib.Algebra.BigOperators.Ring.List
import Mathlib.Algebra.Order.BigOperators.Group.List
import Mathlib.Analysis.SpecialFunctions.Pow.NNReal

/-!
# The mean and the spread of a sample

The mean of a sample lies between any bounds of it (`Stats.mean_mem_of_bounds`). So does its spread:
about two bounds `low` and `high` the variance is the product of the two distances of the mean from
them, less the mean of the products of the distances of the values
(`Stats.variance_eq_of_bounds`), so that it is at most the square of half the range
(`Stats.variance_le`); and it is zero only for a sample whose values are all the same.
-/

namespace Stats

/-- The mean of a sample. -/
noncomputable def mean (xs : List ℝ) : ℝ := xs.sum / xs.length

/-- The mean of the squared distances from the mean. -/
noncomputable def variance (xs : List ℝ) : ℝ :=
  (xs.map fun x => (x - mean xs) ^ 2).sum / xs.length

variable {xs : List ℝ} {low high : ℝ}

theorem length_pos_of_ne_nil (hne : xs ≠ []) : (0 : ℝ) < xs.length :=
  Nat.cast_pos.mpr (List.length_pos_iff.mpr hne)

/-- **The mean lies between the bounds** of a sample. -/
theorem mean_mem_of_bounds (hne : xs ≠ []) (h : ∀ x ∈ xs, low ≤ x ∧ x ≤ high) :
    low ≤ mean xs ∧ mean xs ≤ high := by
  have hpos := length_pos_of_ne_nil hne
  have hge := List.card_nsmul_le_sum xs low fun x hx => (h x hx).1
  have hle := List.sum_le_card_nsmul xs high fun x hx => (h x hx).2
  rw [nsmul_eq_mul] at hge hle
  rw [mean, le_div_iff₀ hpos, div_le_iff₀ hpos]
  constructor <;> linarith

/-- **The variance about two bounds**: whatever the bounds are. -/
theorem variance_eq_of_bounds (hne : xs ≠ []) (low high : ℝ) :
    variance xs = (high - mean xs) * (mean xs - low) -
      (xs.map fun x => (high - x) * (x - low)).sum / xs.length := by
  have hn : (xs.length : ℝ) ≠ 0 := (length_pos_of_ne_nil hne).ne'
  have hsum : xs.sum = xs.length * mean xs := by
    rw [mean]
    field_simp
  -- the squares cancel, and what is left is linear in the values
  have hlin : (xs.map fun x => (x - mean xs) ^ 2 + (high - x) * (x - low)).sum =
      xs.length * ((high - mean xs) * (mean xs - low)) := by
    have hexpand : (fun x : ℝ => (x - mean xs) ^ 2 + (high - x) * (x - low)) =
        fun x => (high + low - 2 * mean xs) * x + (mean xs ^ 2 - high * low) := by
      funext x
      ring
    rw [hexpand, List.sum_map_add, List.sum_map_mul_left, List.map_id', List.map_const',
      List.sum_replicate, nsmul_eq_mul, hsum]
    ring
  rw [List.sum_map_add] at hlin
  rw [variance, eq_sub_iff_add_eq, ← add_div, hlin, mul_div_cancel_left₀ _ hn]

/-- **Half the range bounds the deviation.** -/
theorem variance_le (hne : xs ≠ []) (h : ∀ x ∈ xs, low ≤ x ∧ x ≤ high) :
    variance xs ≤ ((high - low) / 2) ^ 2 := by
  have hprod : 0 ≤ (xs.map fun x => (high - x) * (x - low)).sum := by
    refine List.sum_nonneg fun y hy => ?_
    obtain ⟨x, hx, rfl⟩ := List.mem_map.mp hy
    exact mul_nonneg (sub_nonneg.mpr (h x hx).2) (sub_nonneg.mpr (h x hx).1)
  have hquot := div_nonneg hprod (length_pos_of_ne_nil hne).le
  have hsq := sq_nonneg (high + low - 2 * mean xs)
  rw [variance_eq_of_bounds hne low high]
  linarith

theorem variance_nonneg (xs : List ℝ) : 0 ≤ variance xs := by
  refine div_nonneg (List.sum_nonneg fun y hy => ?_) (Nat.cast_nonneg _)
  obtain ⟨x, -, rfl⟩ := List.mem_map.mp hy
  exact sq_nonneg _

/-- Only a sample of one value has no spread. -/
theorem eq_mean_of_variance_eq_zero (h : variance xs = 0) : ∀ x ∈ xs, x = mean xs := by
  intro x hx
  have hn : (xs.length : ℝ) ≠ 0 := (length_pos_of_ne_nil (List.ne_nil_of_mem hx)).ne'
  have hsum := (div_eq_zero_iff.mp h).resolve_right hn
  have hzero := List.all_zero_of_le_zero_le_of_sum_eq_zero (l := xs.map fun x => (x - mean xs) ^ 2)
    (fun y hy => by
      obtain ⟨z, -, rfl⟩ := List.mem_map.mp hy
      exact sq_nonneg _)
    hsum (List.mem_map_of_mem hx)
  exact sub_eq_zero.mp (pow_eq_zero_iff two_ne_zero |>.mp hzero)

end Stats
