import LfWaap.Stats.Quantile

/-!
# Quantiles of comparable samples

Two samples of the same size, of which the second has the larger values place by place: then
every order statistic of the second is the larger one, although sorting puts the values of the
two in different places (`Stats.orderStat_le_orderStat`), and so is every quantile
(`Stats.quantile_le_quantile`).
-/

namespace Stats

variable {α : Type} [LinearOrder α] {xs ys : List α}

/-- Fewer of the larger values are below a bound. -/
theorem countP_le_of_forall₂ (h : List.Forall₂ (· ≤ ·) xs ys) (v : α) :
    ys.countP (· ≤ v) ≤ xs.countP (· ≤ v) := by
  induction h with
  | nil => exact le_rfl
  | @cons x y xs ys hxy _ ih =>
    rw [List.countP_cons, List.countP_cons]
    by_cases hy : y ≤ v
    · rw [if_pos (decide_eq_true hy), if_pos (decide_eq_true (hxy.trans hy))]
      exact Nat.add_le_add_right ih 1
    · rw [if_neg (by simpa using hy), Nat.add_zero]
      exact ih.trans (Nat.le_add_right _ _)

variable [Inhabited α]

/-- More than `i` values are not above the order statistic of index `i`. -/
theorem lt_countP_le_orderStat {i : ℕ} (hi : i < xs.length) :
    i < xs.countP (· ≤ orderStat xs i) := by
  have htake : (List.take (i + 1) (sorted xs)).countP (· ≤ orderStat xs i) = i + 1 := by
    have hlen : (List.take (i + 1) (sorted xs)).length = i + 1 := by
      rw [List.length_take, length_sorted]
      omega
    refine (List.countP_eq_length.mpr fun x hx => ?_).trans hlen
    obtain ⟨j, hj, rfl⟩ := List.getElem_of_mem hx
    rw [List.getElem_take]
    have hmono : orderStat xs j ≤ orderStat xs i := orderStat_mono (by omega) hi
    rw [orderStat_eq_getElem (i := j) (by rw [length_sorted]; omega)] at hmono
    exact decide_eq_true hmono
  rw [← (perm_sorted xs).countP_eq, ← List.take_append_drop (i + 1) (sorted xs),
    List.countP_append, htake]
  omega

/-- **Order statistics increase with the sample.** -/
theorem orderStat_le_orderStat (h : List.Forall₂ (· ≤ ·) xs ys) {i : ℕ} (hi : i < xs.length) :
    orderStat xs i ≤ orderStat ys i := by
  by_contra hlt
  rw [not_le] at hlt
  have hys : i < ys.countP (· ≤ orderStat ys i) := lt_countP_le_orderStat (h.length_eq ▸ hi)
  have hxs : xs.countP (· < orderStat xs i) ≤ i := countP_lt_le hi le_rfl
  have hsub : xs.countP (· ≤ orderStat ys i) ≤ xs.countP (· < orderStat xs i) :=
    List.countP_mono_left fun x _ hx => decide_eq_true ((of_decide_eq_true hx).trans_lt hlt)
  have hle := countP_le_of_forall₂ h (orderStat ys i)
  omega

/-- **Quantiles increase with the sample**, if the interpolation increases with its values. -/
theorem quantile_le_quantile {lerp : α → α → ℝ → α} {S : Set α}
    (hmono : ∀ a ∈ S, ∀ b ∈ S, ∀ a' ∈ S, ∀ b' ∈ S, a ≤ a' → b ≤ b' →
      ∀ t, 0 ≤ t → t ≤ 1 → lerp a b t ≤ lerp a' b' t)
    (hxs : ∀ x ∈ xs, x ∈ S) (hys : ∀ y ∈ ys, y ∈ S) (h : List.Forall₂ (· ≤ ·) xs ys)
    (hne : 0 < xs.length) {q : ℝ} (hq : 0 ≤ q) (hq1 : q ≤ 1) :
    quantile lerp xs q ≤ quantile lerp ys q := by
  have hlen := h.length_eq
  have hin : ⌊virtualIndex xs.length q⌋₊ < xs.length :=
    (Nat.floor_le_ceil _).trans_lt (ceil_index_lt hne hq1)
  have hnext : min (⌊virtualIndex xs.length q⌋₊ + 1) (xs.length - 1) < xs.length := by omega
  have hfloor := Nat.floor_le (virtualIndex_nonneg hne hq)
  have hlt := Nat.lt_floor_add_one (virtualIndex xs.length q)
  have hmem : ∀ i, i < xs.length → orderStat xs i ∈ S ∧ orderStat ys i ∈ S := fun i hi =>
    ⟨hxs _ (orderStat_mem hi), hys _ (orderStat_mem (hlen ▸ hi))⟩
  rw [quantile, quantile, ← hlen]
  exact hmono _ (hmem _ hin).1 _ (hmem _ hnext).1 _ (hmem _ hin).2 _ (hmem _ hnext).2
    (orderStat_le_orderStat h hin) (orderStat_le_orderStat h hnext) _ (by linarith) (by linarith)

end Stats
