import LfWaap.Stats.Polyline

/-!
# Receiver operating characteristics

Two samples are told apart by a threshold: values not below it are taken for positive ones.
The curve of a pair of samples counts, for each value that occurs, from the greatest on, the
negative and the positive values that are not below it (`Stats.binaryCurve`). Libraries do not
return all of these points: one that lies in the middle between its two neighbours is left out
(`Stats.dropIntermediate`), because it cannot be seen in a picture of the curve.

For the area under the curve this is of no consequence, since points on a line do not matter
(`Stats.polyline_dropIntermediate`); the area is the fraction of the pairs that are in the right
order, where a tie counts one half (`Stats.area_curvePoints`).
-/

namespace Stats

variable {α : Type} [LinearOrder α]

/-! ### The curve -/

/-- How many values are not below a threshold. -/
def atLeast (t : α) (xs : List α) : ℕ := xs.countP fun x => decide (t ≤ x)

/-- How many values are above a threshold. -/
def above (t : α) (xs : List α) : ℕ := xs.countP fun x => decide (t < x)

/-- A point of the curve, not yet divided by the sizes of the samples. -/
structure RocPoint (α : Type) where
  threshold : α
  fps : ℕ
  tps : ℕ

/-- The values that occur, the greatest first. -/
def distinctScores (neg pos : List α) : List α := (neg ++ pos).toFinset.sort (· ≥ ·)

/-- The point of a threshold. -/
def rocPoint (neg pos : List α) (t : α) : RocPoint α := ⟨t, atLeast t neg, atLeast t pos⟩

/-- **The curve**: one point for each value that occurs. -/
def binaryCurve (neg pos : List α) : List (RocPoint α) :=
  (distinctScores neg pos).map (rocPoint neg pos)

omit [LinearOrder α] in
/-- The second differences of both counts vanish at the middle one of three points. -/
def IsIntermediate (a b c : RocPoint α) : Prop :=
  b.fps + b.fps = a.fps + c.fps ∧ b.tps + b.tps = a.tps + c.tps

instance (a b c : RocPoint α) : Decidable (IsIntermediate a b c) :=
  inferInstanceAs (Decidable (_ ∧ _))

omit [LinearOrder α] in
/-- The points after `a` without the intermediate ones. The last point is kept. -/
def dropFrom (a : RocPoint α) : List (RocPoint α) → List (RocPoint α)
  | b :: c :: pts =>
    if IsIntermediate a b c then dropFrom b (c :: pts) else b :: dropFrom b (c :: pts)
  | pts => pts

omit [LinearOrder α] in
/-- **The curve without intermediate points.** -/
def dropIntermediate : List (RocPoint α) → List (RocPoint α)
  | [] => []
  | a :: pts => a :: dropFrom a pts

/-- A point as one of the unit square. -/
noncomputable def RocPoint.scaled (n p : ℕ) (a : RocPoint α) : ℝ × ℝ := (a.fps / n, a.tps / p)

section

variable {a b c : RocPoint α} {pts : List (RocPoint α)} {n p : ℕ} {x : ℝ}

omit [LinearOrder α]

/-- Neither count falls along the points. -/
def Counting (pts : List (RocPoint α)) : Prop :=
  pts.Pairwise fun a b => a.fps ≤ b.fps ∧ a.tps ≤ b.tps

theorem Counting.rising (h : Counting pts) (n p : ℕ) :
    Rising (pts.map (RocPoint.scaled n p)) := by
  rw [Rising, List.pairwise_map]
  refine h.imp fun hab => ⟨?_, ?_⟩
  · exact div_le_div_of_nonneg_right (by exact_mod_cast hab.1) (Nat.cast_nonneg n)
  · exact div_le_div_of_nonneg_right (by exact_mod_cast hab.2) (Nat.cast_nonneg p)

theorem Counting.tail (h : Counting (a :: pts)) : Counting pts := (List.pairwise_cons.mp h).2

/-! ### Intermediate points -/

/-- The step to an intermediate point is the step after it. -/
theorem IsIntermediate.scaled (h : IsIntermediate a b c) (n p : ℕ) :
    (b.scaled n p).1 - (a.scaled n p).1 = (c.scaled n p).1 - (b.scaled n p).1 ∧
      (b.scaled n p).2 - (a.scaled n p).2 = (c.scaled n p).2 - (b.scaled n p).2 := by
  have hfps : (b.fps + b.fps : ℝ) = a.fps + c.fps := by exact_mod_cast h.1
  have htps : (b.tps + b.tps : ℝ) = a.tps + c.tps := by exact_mod_cast h.2
  constructor
  · show (b.fps / n - a.fps / n : ℝ) = c.fps / n - b.fps / n
    rw [← sub_div, ← sub_div]
    congr 1
    linarith
  · show (b.tps / p - a.tps / p : ℝ) = c.tps / p - b.tps / p
    rw [← sub_div, ← sub_div]
    congr 1
    linarith

/-- **The next point that is kept** is reached by going on in the direction of the next
point. -/
theorem exists_dropFrom (b c : RocPoint α) (pts : List (RocPoint α)) (n p : ℕ) :
    ∃ d pts', ∃ m : ℝ, dropFrom b (c :: pts) = d :: pts' ∧ 1 ≤ m ∧
      (d.scaled n p).1 = (b.scaled n p).1 + m * ((c.scaled n p).1 - (b.scaled n p).1) ∧
      (d.scaled n p).2 = (b.scaled n p).2 + m * ((c.scaled n p).2 - (b.scaled n p).2) := by
  induction pts generalizing b c with
  | nil => exact ⟨c, [], 1, rfl, le_refl _, by ring, by ring⟩
  | cons e pts ih =>
    rw [dropFrom]
    by_cases h : IsIntermediate b c e
    · obtain ⟨d, pts', m, hd, hm, hx, hy⟩ := ih c e
      obtain ⟨hsx, hsy⟩ := h.scaled n p
      refine ⟨d, pts', m + 1, by rw [if_pos h, hd], by linarith, ?_, ?_⟩
      · rw [hx, ← hsx]
        ring
      · rw [hy, ← hsy]
        ring
    · exact ⟨c, _, 1, if_neg h, le_refl _, by ring, by ring⟩

/-- **Points that are left out** do not change the polyline. -/
theorem polyline_dropFrom (h : Counting (a :: pts)) (hx : (a.scaled n p).1 ≤ x) :
    polyline (a.scaled n p :: (dropFrom a pts).map (RocPoint.scaled n p)) x =
      polyline ((a :: pts).map (RocPoint.scaled n p)) x := by
  induction pts generalizing a with
  | nil => rfl
  | cons b pts ih =>
    rcases pts with _ | ⟨c, pts⟩
    · rfl
    · have hrise := h.rising n p
      -- from the next point on, the two polylines are those of the rest
      have hrest : polyline (a.scaled n p :: b.scaled n p ::
          (dropFrom b (c :: pts)).map (RocPoint.scaled n p)) x =
            polyline ((a :: b :: c :: pts).map (RocPoint.scaled n p)) x := by
        rw [List.map_cons, List.map_cons]
        rcases lt_or_ge x (b.scaled n p).1 with hlt | hle
        · rw [polyline_of_lt hlt, polyline_of_lt hlt]
        · rw [polyline_of_le hle, polyline_of_le hle, ih h.tail hle]
          rfl
      rw [dropFrom]
      split_ifs with hmid
      · obtain ⟨d, pts', m, hd, hm, hdx, hdy⟩ := exists_dropFrom b c pts n p
        obtain ⟨hsx, hsy⟩ := hmid.scaled n p
        have hab := hrise.head.1
        have hbc := hrise.tail.head.1
        have hm1 : (0 : ℝ) < m + 1 := by linarith
        rw [← hrest, hd, List.map_cons]
        refine (polyline_insert (one_div_nonneg.mpr hm1.le) ?_ ?_ ?_ ?_ hx).symm
        · rw [div_le_one hm1]
          linarith
        · rw [hdx]
          have hstep := mul_nonneg (zero_le_one.trans hm) (sub_nonneg.mpr hbc)
          linarith
        · rw [hdx, ← hsx]
          field_simp
          ring
        · rw [hdy, ← hsy]
          field_simp
          ring
      · rw [List.map_cons]
        exact hrest

/-- The same, from a first point on that is kept in front of the curve. -/
theorem polyline_dropIntermediate {o : ℝ × ℝ} (h : Counting pts) :
    polyline (o :: (dropIntermediate pts).map (RocPoint.scaled n p)) x =
      polyline (o :: pts.map (RocPoint.scaled n p)) x := by
  rcases pts with _ | ⟨a, pts⟩
  · rfl
  · rw [dropIntermediate, List.map_cons, List.map_cons]
    rcases lt_or_ge x (a.scaled n p).1 with hlt | hle
    · rw [polyline_of_lt hlt, polyline_of_lt hlt]
    · rw [polyline_of_le hle, polyline_of_le hle, polyline_dropFrom h hle]
      rfl

theorem dropFrom_sublist (a : RocPoint α) (pts : List (RocPoint α)) :
    (dropFrom a pts).Sublist pts := by
  induction pts generalizing a with
  | nil => exact List.Sublist.refl _
  | cons b pts ih =>
    rcases pts with _ | ⟨c, pts⟩
    · exact List.Sublist.refl _
    · rw [dropFrom]
      split_ifs
      · exact (ih b).cons b
      · exact (ih b).cons_cons b

theorem dropIntermediate_sublist (pts : List (RocPoint α)) :
    (dropIntermediate pts).Sublist pts := by
  rcases pts with _ | ⟨a, pts⟩
  · exact List.Sublist.refl _
  · exact (dropFrom_sublist a pts).cons_cons a

/-- The last point is kept. -/
theorem getLast?_dropIntermediate (pts : List (RocPoint α)) :
    (dropIntermediate pts).getLast? = pts.getLast? := by
  have hfrom : ∀ (pts : List (RocPoint α)) (a : RocPoint α),
      (dropFrom a pts).getLast? = pts.getLast? := by
    intro pts
    induction pts with
    | nil => exact fun _ => rfl
    | cons b pts ih =>
      intro a
      rcases pts with _ | ⟨c, pts⟩
      · rfl
      · rw [dropFrom]
        split_ifs
        · exact ih b
        · rw [List.getLast?_cons, ih b, ← List.getLast?_cons]
  rcases pts with _ | ⟨a, pts⟩
  · rfl
  · rw [dropIntermediate, List.getLast?_cons, hfrom, ← List.getLast?_cons]

end

/-! ### Counts along the thresholds -/

section

variable {neg pos vs ts : List α} {t t' : α}

theorem atLeast_anti (vs : List α) (h : t' ≤ t) : atLeast t vs ≤ atLeast t' vs := by
  refine List.countP_mono_left fun v _ hv => ?_
  exact decide_eq_true (h.trans (of_decide_eq_true hv))

/-- A value is counted once more where it is reached. -/
theorem above_add_count (t : α) (vs : List α) : above t vs + vs.count t = atLeast t vs := by
  induction vs with
  | nil => rfl
  | cons v vs ih =>
    rw [above, atLeast, List.countP_cons, List.countP_cons, List.count_cons, ← above, ← atLeast,
      ← ih]
    rcases lt_trichotomy t v with hlt | rfl | hgt
    · simp [hlt, hlt.le, hlt.ne']
      omega
    · simp
      omega
    · simp [not_lt.mpr hgt.le, not_le.mpr hgt, hgt.ne]

/-- The last element of a list that falls is its least one. -/
theorem le_of_mem_concat (h : (ts ++ [t]).Pairwise (· > ·)) {v : α} (hv : v ∈ ts ++ [t]) :
    t ≤ v := by
  rcases List.mem_append.mp hv with hv | hv
  · exact ((List.pairwise_append.mp h).2.2 v hv t List.mem_cons_self).le
  · exact (List.mem_singleton.mp hv).ge

theorem pairwise_distinctScores (neg pos : List α) : (distinctScores neg pos).Pairwise (· > ·) :=
  (Finset.sortedGT_sort _).pairwise

@[simp] theorem mem_distinctScores : t ∈ distinctScores neg pos ↔ t ∈ neg ∨ t ∈ pos := by
  rw [distinctScores, Finset.mem_sort, List.mem_toFinset, List.mem_append]

/-- A curve depends on how often each value occurs only. -/
theorem binaryCurve_perm {neg' pos' : List α} (hneg : neg.Perm neg')
    (hpos : pos.Perm pos') : binaryCurve neg pos = binaryCurve neg' pos' := by
  have hscores : distinctScores neg pos = distinctScores neg' pos' := by
    rw [distinctScores, distinctScores, List.toFinset_eq_of_perm _ _ (hneg.append hpos)]
  have hpoint : rocPoint neg pos = rocPoint neg' pos' := by
    funext t
    rw [rocPoint, rocPoint, atLeast, atLeast, atLeast, atLeast, hneg.countP_eq, hpos.countP_eq]
  rw [binaryCurve, binaryCurve, hscores, hpoint]

theorem counting_rocPoints (neg pos : List α) (h : ts.Pairwise (· > ·)) :
    Counting (ts.map (rocPoint neg pos)) := by
  rw [Counting, List.pairwise_map]
  exact h.imp fun hgt => ⟨atLeast_anti neg (le_of_lt hgt), atLeast_anti pos (le_of_lt hgt)⟩

/-- **Between two neighbouring thresholds there is no value**: what is above the lower one is
not below the other. -/
theorem above_eq_atLeast (hlt : t' < t) (hgap : ∀ v ∈ vs, v ≤ t' ∨ t ≤ v) :
    above t' vs = atLeast t vs := by
  refine List.countP_congr fun v hv => ?_
  rw [decide_eq_true_iff, decide_eq_true_iff]
  constructor
  · intro h
    rcases hgap v hv with hle | hle
    · exact absurd h (not_lt.mpr hle)
    · exact hle
  · exact hlt.trans_le

/-- A value that is not among those above two thresholds is not between them. -/
theorem gap_of_pairwise (hs : (t :: t' :: ts).Pairwise (· > ·))
    (hmem : ∀ v ∈ vs, v ≤ t → v ∈ t :: t' :: ts) : ∀ v ∈ vs, v ≤ t' ∨ t ≤ v := by
  intro v hv
  rcases lt_or_ge v t with hlt | hle
  · rcases List.mem_cons.mp (hmem v hv hlt.le) with rfl | hmem'
    · exact absurd hlt (lt_irrefl _)
    · rcases List.mem_cons.mp hmem' with rfl | hmem''
      · exact Or.inl (le_refl _)
      · have hs' := (List.pairwise_cons.mp hs).2
        exact Or.inl ((List.pairwise_cons.mp hs').1 v hmem'').le
  · exact Or.inr hle

/-- The values that are not above a threshold are among the later ones. -/
theorem mem_of_le_head (hs : (t :: t' :: ts).Pairwise (· > ·))
    (hmem : ∀ v ∈ vs, v ≤ t → v ∈ t :: t' :: ts) : ∀ v ∈ vs, v ≤ t' → v ∈ t' :: ts := by
  intro v hv hle
  have hlt : v < t := lt_of_le_of_lt hle ((List.pairwise_cons.mp hs).1 t' List.mem_cons_self)
  rcases List.mem_cons.mp (hmem v hv hlt.le) with rfl | hmem'
  · exact absurd hlt (lt_irrefl _)
  · exact hmem'

/-! ### The area under the curve -/

/-- The trapezoids under the curve: each negative value counts the positive ones above it, and
half of those that are equal. -/
theorem area_thresholds (n p : ℕ) (hs : (t :: ts).Pairwise (· > ·))
    (hmem : ∀ v ∈ neg ++ pos, v ≤ t → v ∈ t :: ts) :
    area (((above t neg : ℝ) / n, (above t pos : ℝ) / p) ::
        ((t :: ts).map (rocPoint neg pos)).map (RocPoint.scaled n p)) =
      ((t :: ts).map fun t => (neg.count t : ℝ) * ((above t pos + atLeast t pos) / 2)).sum /
        (n * p) := by
  have hstep : ∀ t : α, ((atLeast t neg : ℝ) / n - above t neg / n) *
      (above t pos / p + atLeast t pos / p) / 2 =
        (neg.count t : ℝ) * ((above t pos + atLeast t pos) / 2) / (n * p) := by
    intro t
    have hcount : (above t neg : ℝ) + neg.count t = atLeast t neg := by
      exact_mod_cast above_add_count t neg
    rw [← sub_div, ← add_div, ← hcount, add_sub_cancel_left, div_mul_div_comm]
    ring
  induction ts generalizing t with
  | nil =>
    rw [List.map_singleton, List.map_singleton, area_cons_cons, area_singleton, add_zero,
      List.map_singleton, List.sum_singleton]
    exact hstep t
  | cons t' ts ih =>
    have hlt : t' < t := (List.pairwise_cons.mp hs).1 t' List.mem_cons_self
    have hgap := gap_of_pairwise hs hmem
    have hneg : above t' neg = atLeast t neg :=
      above_eq_atLeast hlt fun v hv => hgap v (List.mem_append_left _ hv)
    have hpos : above t' pos = atLeast t pos :=
      above_eq_atLeast hlt fun v hv => hgap v (List.mem_append_right _ hv)
    have hrest := ih (List.pairwise_cons.mp hs).2 (mem_of_le_head hs hmem)
    rw [hneg, hpos] at hrest
    show _ = (_ + ((t' :: ts).map fun t => (neg.count t : ℝ) *
      ((above t pos + atLeast t pos) / 2)).sum) / _
    rw [add_div, ← hrest, ← hstep t]
    rfl

/-- What the values that occur contribute, each as often as it occurs, is the sum over all
values. -/
theorem sum_distinctScores (neg pos : List α) (g : α → ℝ) :
    ((distinctScores neg pos).map fun t => (neg.count t : ℝ) * g t).sum = (neg.map g).sum := by
  have hnodup : (distinctScores neg pos).Nodup := Finset.sort_nodup _ _
  rw [← List.sum_toFinset _ hnodup, distinctScores, Finset.sort_toFinset,
    Finset.sum_list_map_count]
  simp only [nsmul_eq_mul]
  refine (Finset.sum_subset ?_ fun t _ ht => ?_).symm
  · intro t ht
    rw [List.mem_toFinset] at ht ⊢
    exact List.mem_append_left _ ht
  · rw [List.mem_toFinset] at ht
    rw [List.count_eq_zero_of_not_mem ht, Nat.cast_zero, zero_mul]

/-- **The statistic of the pairs**: the fraction of the pairs of a negative and a positive value
in which the positive one is greater, where equal values count one half. -/
def pairStatistic (neg pos : List α) : ℚ :=
  (neg.map fun v =>
    (pos.map fun w => if v < w then (1 : ℚ) else if v = w then 1 / 2 else 0).sum).sum /
      (neg.length * pos.length)

theorem sum_pairs (v : α) (pos : List α) :
    (pos.map fun w => if v < w then (1 : ℚ) else if v = w then 1 / 2 else 0).sum =
      (above v pos + atLeast v pos) / 2 := by
  induction pos with
  | nil => simp [above, atLeast]
  | cons w pos ih =>
    rw [List.map_cons, List.sum_cons, ih, above, above, atLeast, atLeast, List.countP_cons,
      List.countP_cons]
    rcases lt_trichotomy v w with hlt | rfl | hgt
    · simp [hlt, hlt.le]
      ring
    · simp
      ring
    · simp [not_lt.mpr hgt.le, not_le.mpr hgt, hgt.ne']

/-- The points of the curve in the unit square, from the origin on. -/
noncomputable def curvePoints (neg pos : List α) : List (ℝ × ℝ) :=
  (0, 0) :: (binaryCurve neg pos).map (RocPoint.scaled neg.length pos.length)

theorem rising_curvePoints (neg pos : List α) : Rising (curvePoints neg pos) := by
  refine List.pairwise_cons.mpr ⟨fun a ha => ?_, ?_⟩
  · obtain ⟨b, -, rfl⟩ := List.mem_map.mp ha
    exact ⟨div_nonneg (Nat.cast_nonneg _) (Nat.cast_nonneg _),
      div_nonneg (Nat.cast_nonneg _) (Nat.cast_nonneg _)⟩
  · exact (counting_rocPoints neg pos (pairwise_distinctScores neg pos)).rising _ _

/-- The curve stays in the unit square. -/
theorem curvePoints_le_one {a : ℝ × ℝ} (ha : a ∈ curvePoints neg pos) : a.1 ≤ 1 ∧ a.2 ≤ 1 := by
  have hle : ∀ (t : α) (vs : List α), (atLeast t vs : ℝ) / vs.length ≤ 1 := by
    intro t vs
    refine div_le_one_of_le₀ ?_ (Nat.cast_nonneg _)
    exact_mod_cast List.countP_le_length
  rcases List.mem_cons.mp ha with rfl | ha
  · exact ⟨zero_le_one, zero_le_one⟩
  · obtain ⟨b, hb, rfl⟩ := List.mem_map.mp ha
    obtain ⟨t, -, rfl⟩ := List.mem_map.mp hb
    exact ⟨hle t neg, hle t pos⟩

/-- **The curve ends** where all values are positive. -/
theorem getLast?_curvePoints (hneg : neg ≠ []) (hpos : pos ≠ []) :
    (curvePoints neg pos).getLast? = some (1, 1) := by
  have hs := pairwise_distinctScores neg pos
  obtain ⟨v, hv⟩ := List.exists_mem_of_ne_nil neg hneg
  rcases (distinctScores neg pos).eq_nil_or_concat' with hnil | ⟨l, t, hl⟩
  · have hmem : v ∈ distinctScores neg pos := mem_distinctScores.mpr (Or.inl hv)
    rw [hnil] at hmem
    cases hmem
  · -- no value is below the last one
    have hleast : ∀ w, w ∈ neg ∨ w ∈ pos → t ≤ w := by
      intro w hw
      have hmem : w ∈ distinctScores neg pos := mem_distinctScores.mpr hw
      rw [hl] at hmem hs
      exact le_of_mem_concat hs hmem
    have hall : ∀ vs : List α, (∀ w ∈ vs, t ≤ w) → atLeast t vs = vs.length := fun vs hvs =>
      List.countP_eq_length.mpr fun w hw => decide_eq_true (hvs w hw)
    have hone : ∀ vs : List α, vs ≠ [] → (vs.length : ℝ) / vs.length = 1 := fun vs hvs =>
      div_self (Nat.cast_ne_zero.mpr (List.length_eq_zero_iff.not.mpr hvs))
    rw [curvePoints, binaryCurve, hl, List.map_append, List.map_append, ← List.cons_append]
    show (_ ++ [_]).getLast? = _
    rw [List.getLast?_concat, rocPoint, RocPoint.scaled, hall neg fun w hw => hleast w (Or.inl hw),
      hall pos fun w hw => hleast w (Or.inr hw), hone neg hneg, hone pos hpos]

/-- Where all positive values are above all negative ones, the curve goes straight up. -/
theorem mem_curvePoints_of_separated (hpos : pos ≠ []) (h : ∀ v ∈ neg, ∀ w ∈ pos, v < w) :
    (0, 1) ∈ curvePoints neg pos := by
  obtain ⟨t, ht, hmin⟩ : ∃ t ∈ pos, ∀ w ∈ pos, t ≤ w := by
    have hne := List.toFinset_nonempty_iff pos |>.mpr hpos
    refine ⟨pos.toFinset.min' hne, List.mem_toFinset.mp (Finset.min'_mem _ hne), fun w hw => ?_⟩
    exact Finset.min'_le _ _ (List.mem_toFinset.mpr hw)
  have hzero : atLeast t neg = 0 := by
    refine List.countP_eq_zero.mpr fun v hv => ?_
    rw [decide_eq_true_iff, not_le]
    exact h v hv t ht
  have hall : atLeast t pos = pos.length :=
    List.countP_eq_length.mpr fun w hw => decide_eq_true (hmin w hw)
  refine List.mem_cons_of_mem _ (List.mem_map.mpr ⟨rocPoint neg pos t, ?_, ?_⟩)
  · exact List.mem_map_of_mem (mem_distinctScores.mpr (Or.inr ht))
  · rw [rocPoint, RocPoint.scaled, hzero, hall, Nat.cast_zero, zero_div,
      div_self (Nat.cast_ne_zero.mpr (List.length_eq_zero_iff.not.mpr hpos))]

/-- **The area under the curve** is the statistic of the pairs. -/
theorem area_curvePoints (neg pos : List α) :
    area (curvePoints neg pos) = pairStatistic neg pos := by
  have hsum := sum_distinctScores neg pos fun t =>
    ((above t pos + atLeast t pos : ℝ) / 2)
  have hpairs : (pairStatistic neg pos : ℝ) =
      (neg.map fun v => (above v pos + atLeast v pos : ℝ) / 2).sum /
        (neg.length * pos.length) := by
    rw [pairStatistic]
    simp only [sum_pairs]
    push_cast [Rat.cast_list_sum, List.map_map, Function.comp_def]
    rfl
  rw [curvePoints, binaryCurve, hpairs, ← hsum]
  have hs := pairwise_distinctScores neg pos
  have hmem : ∀ v ∈ neg ++ pos, v ∈ distinctScores neg pos := fun v hv =>
    mem_distinctScores.mpr (List.mem_append.mp hv)
  generalize distinctScores neg pos = ts at hs hmem
  rcases ts with _ | ⟨t, ts⟩
  · simp
  · -- nothing is above the greatest value
    have habove : ∀ vs : List α, (∀ v ∈ vs, v ∈ t :: ts) → above t vs = 0 := by
      intro vs hvs
      refine List.countP_eq_zero.mpr fun v hv => ?_
      rw [decide_eq_true_iff, not_lt]
      rcases List.mem_cons.mp (hvs v hv) with rfl | hmem'
      · exact le_refl _
      · exact le_of_lt ((List.pairwise_cons.mp hs).1 v hmem')
    have harea := area_thresholds neg.length pos.length hs fun v hv _ => hmem v hv
    rw [habove neg fun v hv => hmem v (List.mem_append_left _ hv),
      habove pos fun v hv => hmem v (List.mem_append_right _ hv), Nat.cast_zero, zero_div,
      zero_div] at harea
    exact harea

example : pairStatistic [1, 2] [2, 3] = 7 / 8 := by decide +kernel

end

end Stats
