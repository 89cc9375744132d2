import LfWaap.Stats.RocSearch

/-!
# What a curve tells of the order of the values

A receiver operating characteristic depends on how the values of the two samples are ordered,
and on nothing else about them: if the values are mapped and the order is turned round, the
curve is the curve of the values read from the least one on, with the thresholds mapped
(`Stats.binaryCurve_map`). What is left out of a curve, and what a search among its points
finds, is mapped with the points.

Sums over the steps of the positive values are sums over the positive values
(`Stats.stepSum_binaryCurve`). The samples are separated exactly if every pair is in order
(`Stats.pairStatistic_eq_one_iff`).
-/

namespace Stats

variable {α β : Type}

/-! ### Other thresholds -/

/-- The point, with its threshold mapped. -/
def RocPoint.map (φ : β → α) (a : RocPoint β) : RocPoint α := ⟨φ a.threshold, a.fps, a.tps⟩

theorem dropFrom_map (φ : β → α) (a : RocPoint β) (pts : List (RocPoint β)) :
    dropFrom (a.map φ) (pts.map (RocPoint.map φ)) = (dropFrom a pts).map (RocPoint.map φ) := by
  induction pts generalizing a with
  | nil => rfl
  | cons b pts ih =>
    cases pts with
    | nil => rfl
    | cons c pts =>
      rw [List.map_cons, List.map_cons, dropFrom, dropFrom]
      by_cases h : IsIntermediate a b c
      · rw [if_pos h, if_pos (show IsIntermediate (a.map φ) (b.map φ) (c.map φ) from h)]
        exact ih b
      · rw [if_neg h, if_neg (show ¬ IsIntermediate (a.map φ) (b.map φ) (c.map φ) from h),
          List.map_cons]
        exact congrArg (List.cons _) (ih b)

theorem dropIntermediate_map (φ : β → α) (pts : List (RocPoint β)) :
    dropIntermediate (pts.map (RocPoint.map φ)) =
      (dropIntermediate pts).map (RocPoint.map φ) := by
  cases pts with
  | nil => rfl
  | cons a pts => exact congrArg (List.cons _) (dropFrom_map φ a pts)

/-- **A search for counts** finds the mapped point. -/
theorem lastWhile_map (φ : β → α) (e : ℕ → Bool) (a : RocPoint β) (pts : List (RocPoint β)) :
    lastWhile (fun b => e b.fps) (a.map φ) (pts.map (RocPoint.map φ)) =
      (lastWhile (fun b => e b.fps) a pts).map φ := by
  induction pts generalizing a with
  | nil => rfl
  | cons b pts ih =>
    rw [List.map_cons, lastWhile, lastWhile]
    show (if e b.fps then _ else _) = _
    split_ifs
    · exact ih b
    · rfl

/-- **A search with a weaker condition** goes on at least as far. -/
theorem lastWhile_rel (R : RocPoint α → RocPoint α → Prop) (q q' : RocPoint α → Bool)
    (hrefl : ∀ a, R a a) (hq : ∀ b, q b = true → q' b = true) {a : RocPoint α}
    {pts : List (RocPoint α)} (h : (a :: pts).Pairwise R)
    (htrans : ∀ a b c, R a b → R b c → R a c) : R (lastWhile q a pts) (lastWhile q' a pts) := by
  -- the search does not go back
  have hstart : ∀ (a : RocPoint α) (pts : List (RocPoint α)), (a :: pts).Pairwise R →
      R a (lastWhile q' a pts) := by
    intro a pts h
    induction pts generalizing a with
    | nil => exact hrefl a
    | cons b pts ih =>
      obtain ⟨hab, hpts⟩ := List.pairwise_cons.mp h
      rw [lastWhile]
      split_ifs
      · exact htrans a b _ (hab b List.mem_cons_self) (ih b hpts)
      · exact hrefl a
  induction pts generalizing a with
  | nil => exact hrefl a
  | cons b pts ih =>
    by_cases hb : q b = true
    · rw [lastWhile, if_pos hb, lastWhile, if_pos (hq b hb)]
      exact ih (List.pairwise_cons.mp h).2
    · rw [lastWhile, if_neg hb]
      exact hstart a (b :: pts) h

variable [LinearOrder α] [LinearOrder β]

/-- **The curve of values that are read from the least one on.** -/
def risingCurve (neg pos : List β) : List (RocPoint β) :=
  ((neg ++ pos).toFinset.sort (· ≤ ·)).map fun x =>
    ⟨x, neg.countP fun v => decide (v ≤ x), pos.countP fun v => decide (v ≤ x)⟩

/-- **The curve of mapped values** is the mapped curve, where the order is turned round. -/
theorem binaryCurve_map {φ : β → α} (hφ : StrictAnti φ) (neg pos : List β) :
    binaryCurve (neg.map φ) (pos.map φ) = (risingCurve neg pos).map (RocPoint.map φ) := by
  have hscores : distinctScores (neg.map φ) (pos.map φ) =
      ((neg ++ pos).toFinset.sort (· ≤ ·)).map φ := by
    have hset : (neg.map φ ++ pos.map φ).toFinset =
        (neg ++ pos).toFinset.map ⟨φ, hφ.injective⟩ := by
      ext t
      simp [or_and_right, exists_or]
    rw [distinctScores, hset]
    exact (Finset.map_sort ⟨φ, hφ.injective⟩ (neg ++ pos).toFinset (· ≤ ·) (· ≥ ·)
      fun x _ y _ => hφ.le_iff_ge.symm).symm
  rw [binaryCurve, risingCurve, hscores, List.map_map, List.map_map]
  refine List.map_congr_left fun x _ => ?_
  show RocPoint.mk (φ x) (atLeast (φ x) _) (atLeast (φ x) _) = _
  rw [atLeast_map hφ, atLeast_map hφ]
  rfl

/-! ### Sums over the steps -/

omit [LinearOrder α] in
/-- What the steps of the positive values contribute along a curve. -/
def stepSum (g : RocPoint α → ℝ) (tps : ℕ) : List (RocPoint α) → ℝ
  | [] => 0
  | a :: pts => ((a.tps : ℝ) - tps) * g a + stepSum g a.tps pts

section

variable {neg pos vs ts : List α} {t t' : α}

theorem distinctScores_comm (neg pos : List α) :
    distinctScores neg pos = distinctScores pos neg := by
  rw [distinctScores, distinctScores, List.toFinset_eq_of_perm _ _ List.perm_append_comm]

/-- Each step counts the positive values that are equal to its threshold. -/
theorem stepSum_thresholds (g : RocPoint α → ℝ) (hs : (t :: ts).Pairwise (· > ·))
    (hmem : ∀ v ∈ pos, v ≤ t → v ∈ t :: ts) :
    stepSum g (above t pos) ((t :: ts).map (rocPoint neg pos)) =
      ((t :: ts).map fun t => (pos.count t : ℝ) * g (rocPoint neg pos t)).sum := by
  have hstep : ∀ t : α, ((atLeast t pos : ℕ) : ℝ) - above t pos = pos.count t := by
    intro t
    rw [← above_add_count t pos]
    push_cast
    ring
  induction ts generalizing t with
  | nil =>
    show (((atLeast t pos : ℕ) : ℝ) - above t pos) * _ + 0 = _ + 0
    rw [hstep]
  | cons t' ts ih =>
    have hlt : t' < t := (List.pairwise_cons.mp hs).1 t' List.mem_cons_self
    have hrest := ih (List.pairwise_cons.mp hs).2 (mem_of_le_head hs hmem)
    rw [above_eq_atLeast hlt (gap_of_pairwise hs hmem)] at hrest
    show (((atLeast t pos : ℕ) : ℝ) - above t pos) * _ + stepSum g (atLeast t pos) _ = _
    rw [hrest, hstep]
    rfl

/-- **The steps are those of the positive values.** -/
theorem stepSum_binaryCurve (g : RocPoint α → ℝ) (neg pos : List α) :
    stepSum g 0 (binaryCurve neg pos) = (pos.map fun w => g (rocPoint neg pos w)).sum := by
  have hsum := sum_distinctScores pos neg fun t => g (rocPoint neg pos t)
  rw [← hsum, ← distinctScores_comm, binaryCurve]
  have hs := pairwise_distinctScores neg pos
  have hmem : ∀ v ∈ pos, v ∈ distinctScores neg pos := fun v hv =>
    mem_distinctScores.mpr (Or.inr hv)
  generalize distinctScores neg pos = ts at hs hmem
  cases ts with
  | nil => rfl
  | cons t ts =>
    have habove : above t pos = 0 := by
      refine List.countP_eq_zero.mpr fun v hv => ?_
      rw [decide_eq_true_iff, not_lt]
      rcases List.mem_cons.mp (hmem v hv) with rfl | hv'
      · exact le_rfl
      · exact ((List.pairwise_cons.mp hs).1 v hv').le
    rw [← stepSum_thresholds g hs fun v hv _ => hmem v hv, habove]

/-! ### Separated samples -/

omit [LinearOrder α] in
/-- A sum of numbers up to a bound is as large as it can be if all of them are the bound. -/
theorem sum_map_eq_iff {κ : Type} [Field κ] [LinearOrder κ] [IsStrictOrderedRing κ]
    (vs : List α) {f : α → κ} {c : κ} (h : ∀ v ∈ vs, f v ≤ c) :
    (vs.map f).sum ≤ vs.length * c ∧ ((vs.map f).sum = vs.length * c ↔ ∀ v ∈ vs, f v = c) := by
  induction vs with
  | nil => simp
  | cons v vs ih =>
    obtain ⟨hle, hiff⟩ := ih fun w hw => h w (List.mem_cons_of_mem v hw)
    have hv := h v List.mem_cons_self
    rw [List.map_cons, List.sum_cons, List.length_cons, Nat.cast_add, Nat.cast_one, add_mul,
      one_mul, List.forall_mem_cons, ← hiff]
    exact ⟨by linarith, fun heq => ⟨by linarith, by linarith⟩, fun ⟨h1, h2⟩ => by linarith⟩

/-- **The samples are separated** exactly if the statistic of the pairs is one. -/
theorem pairStatistic_eq_one_iff (hneg : neg ≠ []) (hpos : pos ≠ []) :
    pairStatistic neg pos = 1 ↔ ∀ v ∈ neg, ∀ w ∈ pos, v < w := by
  have hn : (0 : ℚ) < neg.length := by exact_mod_cast List.length_pos_of_ne_nil hneg
  have hp : (0 : ℚ) < pos.length := by exact_mod_cast List.length_pos_of_ne_nil hpos
  have hpair : ∀ v w : α, (if v < w then (1 : ℚ) else if v = w then 1 / 2 else 0) ≤ 1 ∧
      ((if v < w then (1 : ℚ) else if v = w then 1 / 2 else 0) = 1 ↔ v < w) := by
    intro v w
    split_ifs with hlt heq
    · exact ⟨le_rfl, iff_of_true rfl hlt⟩
    · exact ⟨by norm_num, iff_of_false (by norm_num) hlt⟩
    · exact ⟨zero_le_one, iff_of_false zero_ne_one hlt⟩
  -- a negative value is in order with all positive ones, as far as that can be
  have hrow := fun v : α => sum_map_eq_iff pos fun w _ => (hpair v w).1
  simp only [mul_one] at hrow
  have hall := sum_map_eq_iff neg fun v _ => (hrow v).1
  rw [pairStatistic, div_eq_one_iff_eq (mul_pos hn hp).ne', hall.2]
  refine forall₂_congr fun v _ => ?_
  rw [(hrow v).2]
  exact forall₂_congr fun w _ => (hpair v w).2

end

end Stats
