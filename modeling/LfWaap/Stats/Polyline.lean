import Mathlib

/-!
# Polylines and the areas under them

A list of points of the plane whose abscissas do not fall is a polyline: between two
neighbours it is the line through them, and where several points have one abscissa it jumps
to the last of them (`Stats.polyline`). The sum of the trapezoids below its pieces
(`Stats.area`) is the integral of this function (`Stats.area_cut`), also if the polyline is
cut at an abscissa between its points and a point on it is put at the end.

Points between two others on one line do not matter (`Stats.polyline_insert`). The function
rises if the ordinates do (`Stats.polyline_mono`), and the mean of a function that rises, over
an interval from zero, rises with the length of the interval (`Stats.mean_mono`). It is on one side
of the diagonal if its points are (`Stats.le_polyline_of_diagonal`).
-/

namespace Stats

/-- The line through two points; constant if they have one abscissa. -/
noncomputable def line (a b : ℝ × ℝ) (x : ℝ) : ℝ := a.2 + (b.2 - a.2) / (b.1 - a.1) * (x - a.1)

/-- **The polyline through points**, from its first one on; beyond the last point it is
constant. -/
noncomputable def polyline : List (ℝ × ℝ) → ℝ → ℝ
  | [], _ => 0
  | [a], _ => a.2
  | a :: b :: pts, x => if x < b.1 then line a b x else polyline (b :: pts) x

/-- **The trapezoids** between neighbouring points. -/
noncomputable def area : List (ℝ × ℝ) → ℝ
  | a :: b :: pts => (b.1 - a.1) * (a.2 + b.2) / 2 + area (b :: pts)
  | _ => 0

/-- Neither abscissas nor ordinates fall. -/
def Rising (pts : List (ℝ × ℝ)) : Prop := pts.Pairwise fun a b => a.1 ≤ b.1 ∧ a.2 ≤ b.2

variable {a b : ℝ × ℝ} {pts : List (ℝ × ℝ)} {x y : ℝ}

theorem polyline_of_lt (h : x < b.1) : polyline (a :: b :: pts) x = line a b x := if_pos h

theorem polyline_of_le (h : b.1 ≤ x) : polyline (a :: b :: pts) x = polyline (b :: pts) x :=
  if_neg (not_lt.mpr h)

@[simp] theorem area_singleton (a : ℝ × ℝ) : area [a] = 0 := rfl

theorem area_cons_cons (a b : ℝ × ℝ) (pts : List (ℝ × ℝ)) :
    area (a :: b :: pts) = (b.1 - a.1) * (a.2 + b.2) / 2 + area (b :: pts) := rfl

theorem Rising.tail (h : Rising (a :: pts)) : Rising pts := (List.pairwise_cons.mp h).2

theorem Rising.head (h : Rising (a :: b :: pts)) : a.1 ≤ b.1 ∧ a.2 ≤ b.2 :=
  (List.pairwise_cons.mp h).1 b List.mem_cons_self

/-! ### Lines -/

@[simp] theorem line_left (a b : ℝ × ℝ) : line a b a.1 = a.2 := by simp [line]

theorem line_right (h : a.1 < b.1) : line a b b.1 = b.2 := by
  have hne : b.1 - a.1 ≠ 0 := (sub_pos.mpr h).ne'
  rw [line, div_mul_cancel₀ _ hne, add_sub_cancel]

theorem line_mono (hx : a.1 ≤ b.1) (hy : a.2 ≤ b.2) (hxy : x ≤ y) : line a b x ≤ line a b y := by
  have hslope : 0 ≤ (b.2 - a.2) / (b.1 - a.1) :=
    div_nonneg (sub_nonneg.mpr hy) (sub_nonneg.mpr hx)
  have hstep := mul_le_mul_of_nonneg_left (sub_le_sub_right hxy a.1) hslope
  rw [line, line]
  exact add_le_add_right hstep a.2

/-- Between two points that are not below the diagonal, neither is the line. -/
theorem le_line (hx : a.1 ≤ x) (hlt : x < b.1) (ha : a.1 ≤ a.2) (hb : b.1 ≤ b.2) :
    x ≤ line a b x := by
  have hab : 0 < b.1 - a.1 := sub_pos.mpr (hx.trans_lt hlt)
  have hconvex : line a b x = (a.2 * (b.1 - x) + b.2 * (x - a.1)) / (b.1 - a.1) := by
    rw [line]
    field_simp
    ring
  rw [hconvex, le_div_iff₀ hab]
  have hleft := mul_le_mul_of_nonneg_right ha (sub_nonneg.mpr hlt.le)
  have hright := mul_le_mul_of_nonneg_right hb (sub_nonneg.mpr hx)
  linarith

/-- Between two points that are not above the diagonal, neither is the line. -/
theorem line_le (hx : a.1 ≤ x) (hlt : x < b.1) (ha : a.2 ≤ a.1) (hb : b.2 ≤ b.1) :
    line a b x ≤ x := by
  have hab : 0 < b.1 - a.1 := sub_pos.mpr (hx.trans_lt hlt)
  have hconvex : line a b x = (a.2 * (b.1 - x) + b.2 * (x - a.1)) / (b.1 - a.1) := by
    rw [line]
    field_simp
    ring
  rw [hconvex, div_le_iff₀ hab]
  have hleft := mul_le_mul_of_nonneg_right ha (sub_nonneg.mpr hlt.le)
  have hright := mul_le_mul_of_nonneg_right hb (sub_nonneg.mpr hx)
  linarith

theorem continuous_line (a b : ℝ × ℝ) : Continuous (line a b) := by
  show Continuous fun x => a.2 + (b.2 - a.2) / (b.1 - a.1) * (x - a.1)
  fun_prop

/-- **The area under a line** is a trapezoid. -/
theorem integral_line (a b : ℝ × ℝ) (x : ℝ) :
    ∫ t in a.1..x, line a b t = (x - a.1) * (a.2 + line a b x) / 2 := by
  have hshift := intervalIntegral.integral_comp_sub_right (a := a.1) (b := x)
    (fun t => a.2 + (b.2 - a.2) / (b.1 - a.1) * t) a.1
  have hconst : IntervalIntegrable (fun _ => a.2) MeasureTheory.volume (a.1 - a.1) (x - a.1) :=
    continuous_const.intervalIntegrable _ _
  have hslope : IntervalIntegrable (fun t => (b.2 - a.2) / (b.1 - a.1) * t) MeasureTheory.volume
      (a.1 - a.1) (x - a.1) := (continuous_const_mul _).intervalIntegrable _ _
  show ∫ t in a.1..x, a.2 + (b.2 - a.2) / (b.1 - a.1) * (t - a.1) = _
  rw [hshift, intervalIntegral.integral_add hconst hslope, intervalIntegral.integral_const,
    intervalIntegral.integral_const_mul, integral_id, line, smul_eq_mul]
  ring

/-! ### Monotonicity -/

/-- The polyline is not below its first point. -/
theorem le_polyline (h : Rising (a :: pts)) (hx : a.1 ≤ x) : a.2 ≤ polyline (a :: pts) x := by
  induction pts generalizing a with
  | nil => exact le_refl _
  | cons b pts ih =>
    obtain ⟨hx₁, hy₁⟩ := h.head
    rcases lt_or_ge x b.1 with hlt | hle
    · rw [polyline_of_lt hlt]
      exact (line_left a b).symm.le.trans (line_mono hx₁ hy₁ hx)
    · rw [polyline_of_le hle]
      exact hy₁.trans (ih h.tail hle)

/-- **A polyline rises** with its points. -/
theorem polyline_mono (h : Rising (a :: pts)) (hx : a.1 ≤ x) (hxy : x ≤ y) :
    polyline (a :: pts) x ≤ polyline (a :: pts) y := by
  induction pts generalizing a with
  | nil => exact le_refl _
  | cons b pts ih =>
    obtain ⟨hx₁, hy₁⟩ := h.head
    rcases lt_or_ge y b.1 with hlt | hle
    · rw [polyline_of_lt hlt, polyline_of_lt (hxy.trans_lt hlt)]
      exact line_mono hx₁ hy₁ hxy
    · rw [polyline_of_le hle]
      rcases lt_or_ge x b.1 with hlt' | hle'
      · -- the line ends at the next point, and the rest of the polyline is above it
        rw [polyline_of_lt hlt']
        have hline := line_mono hx₁ hy₁ hlt'.le
        rw [line_right (hx.trans_lt hlt')] at hline
        exact hline.trans (le_polyline h.tail hle)
      · rw [polyline_of_le hle']
        exact ih h.tail hle'

/-- The polyline is not below a point that it has passed. -/
theorem le_polyline_of_mem (h : Rising (a :: pts)) {p : ℝ × ℝ} (hp : p ∈ a :: pts)
    (hx : p.1 ≤ x) : p.2 ≤ polyline (a :: pts) x := by
  induction pts generalizing a with
  | nil =>
    obtain rfl := List.mem_singleton.mp hp
    exact le_refl _
  | cons b pts ih =>
    rcases List.mem_cons.mp hp with rfl | hp
    · exact le_polyline h hx
    · have hb : b.1 ≤ p.1 := by
        rcases List.mem_cons.mp hp with rfl | hp
        · exact le_refl _
        · exact ((List.pairwise_cons.mp h.tail).1 p hp).1
      rw [polyline_of_le (hb.trans hx)]
      exact ih h.tail hp

/-- The polyline is not above a bound of its points. -/
theorem polyline_le (h : Rising (a :: pts)) (hx : a.1 ≤ x) {c : ℝ} (hc : ∀ p ∈ a :: pts, p.2 ≤ c) :
    polyline (a :: pts) x ≤ c := by
  induction pts generalizing a with
  | nil => exact hc a List.mem_cons_self
  | cons b pts ih =>
    obtain ⟨hx₁, hy₁⟩ := h.head
    rcases lt_or_ge x b.1 with hlt | hle
    · rw [polyline_of_lt hlt]
      have hline := line_mono hx₁ hy₁ hlt.le
      rw [line_right (hx.trans_lt hlt)] at hline
      exact hline.trans (hc b (List.mem_cons_of_mem _ List.mem_cons_self))
    · rw [polyline_of_le hle]
      exact ih h.tail hle fun p hp => hc p (List.mem_cons_of_mem _ hp)

/-! ### The diagonal -/

/-- **Points that are not below the diagonal** carry the polyline with them, up to the last one. -/
theorem le_polyline_of_diagonal (hd : ∀ p ∈ a :: pts, p.1 ≤ p.2) (hx : a.1 ≤ x) {c : ℝ × ℝ}
    (hc : (a :: pts).getLast? = some c) (hxc : x ≤ c.1) : x ≤ polyline (a :: pts) x := by
  induction pts generalizing a with
  | nil =>
    obtain rfl : a = c := Option.some.inj hc
    exact hxc.trans (hd a List.mem_cons_self)
  | cons b pts ih =>
    rcases lt_or_ge x b.1 with hlt | hle
    · rw [polyline_of_lt hlt]
      exact le_line hx hlt (hd a List.mem_cons_self)
        (hd b (List.mem_cons_of_mem _ List.mem_cons_self))
    · rw [polyline_of_le hle]
      exact ih (fun p hp => hd p (List.mem_cons_of_mem _ hp)) hle hc

/-- Points that are not above the diagonal carry it with them, too. -/
theorem polyline_le_of_diagonal (hd : ∀ p ∈ a :: pts, p.2 ≤ p.1) (hx : a.1 ≤ x) :
    polyline (a :: pts) x ≤ x := by
  induction pts generalizing a with
  | nil => exact (hd a List.mem_cons_self).trans hx
  | cons b pts ih =>
    rcases lt_or_ge x b.1 with hlt | hle
    · rw [polyline_of_lt hlt]
      exact line_le hx hlt (hd a List.mem_cons_self)
        (hd b (List.mem_cons_of_mem _ List.mem_cons_self))
    · rw [polyline_of_le hle]
      exact ih (fun p hp => hd p (List.mem_cons_of_mem _ hp)) hle

/-! ### Points on a line -/

/-- **A point on the line** between two neighbours does not change the polyline. -/
theorem polyline_insert {d : ℝ × ℝ} {θ : ℝ} (h0 : 0 ≤ θ) (h1 : θ ≤ 1) (had : a.1 ≤ d.1)
    (hx₁ : b.1 = a.1 + θ * (d.1 - a.1)) (hy₁ : b.2 = a.2 + θ * (d.2 - a.2)) (hx : a.1 ≤ x) :
    polyline (a :: b :: d :: pts) x = polyline (a :: d :: pts) x := by
  have hbd : b.1 ≤ d.1 := by nlinarith
  rcases lt_or_ge x d.1 with hlt | hle
  · have hpos : 0 < d.1 - a.1 := sub_pos.mpr (hx.trans_lt hlt)
    rw [polyline_of_lt (a := a) (b := d) hlt]
    rcases lt_or_ge x b.1 with hlt' | hle'
    · -- before the point: it is not the first one, so both lines have a slope
      have hθ : θ ≠ 0 := by
        rintro rfl
        linarith
      have hne : a.1 + θ * (d.1 - a.1) - a.1 ≠ 0 := by
        rw [add_sub_cancel_left]
        exact mul_ne_zero hθ hpos.ne'
      rw [polyline_of_lt hlt', line, line, hx₁, hy₁]
      field_simp
      ring
    · have hpos' : 0 < d.1 - b.1 := sub_pos.mpr (hle'.trans_lt hlt)
      have hdx : d.1 - b.1 = (1 - θ) * (d.1 - a.1) := by
        rw [hx₁]
        ring
      have hdy : d.2 - b.2 = (1 - θ) * (d.2 - a.2) := by
        rw [hy₁]
        ring
      have hθ : 1 - θ ≠ 0 := by
        intro h
        rw [hdx, h, zero_mul] at hpos'
        exact lt_irrefl _ hpos'
      rw [polyline_of_le hle', polyline_of_lt hlt, line, line, hdx, hdy, hx₁, hy₁,
        mul_div_mul_left _ _ hθ]
      field_simp
      ring
  · rw [polyline_of_le (hbd.trans hle), polyline_of_le hle, polyline_of_le hle]

/-! ### Areas -/

/-- The points up to an abscissa, and the point on the polyline there. -/
noncomputable def cutAt (pts : List (ℝ × ℝ)) (x : ℝ) : List (ℝ × ℝ) :=
  pts.takeWhile (fun p => decide (p.1 ≤ x)) ++ [(x, polyline pts x)]

/-- The first point stays, if it is not beyond the cut. -/
theorem exists_cutAt_eq_cons (pts : List (ℝ × ℝ)) (hx : a.1 ≤ x) :
    ∃ rest, cutAt (a :: pts) x = a :: rest := by
  rw [cutAt, List.takeWhile_cons, if_pos (decide_eq_true hx)]
  exact ⟨_, rfl⟩

/-- Beyond the second point, the first one stays and the rest is cut. -/
theorem cutAt_of_le (hx : a.1 ≤ x) (hle : b.1 ≤ x) :
    cutAt (a :: b :: pts) x = a :: cutAt (b :: pts) x := by
  rw [cutAt, cutAt, List.takeWhile_cons, if_pos (decide_eq_true hx), polyline_of_le hle]
  rfl

/-- In front of the second point, the first one and the one on the line are left. -/
theorem cutAt_of_lt (hx : a.1 ≤ x) (hlt : x < b.1) :
    cutAt (a :: b :: pts) x = [a, (x, line a b x)] := by
  rw [cutAt, List.takeWhile_cons, if_pos (decide_eq_true hx), List.takeWhile_cons,
    if_neg (by simpa using hlt), polyline_of_lt hlt]
  rfl

/-- The abscissas do not fall, either. -/
theorem pairwise_cutAt (h : Rising pts) :
    ((cutAt pts x).map Prod.fst).Pairwise (· ≤ ·) := by
  rw [List.pairwise_map, cutAt, List.pairwise_append]
  refine ⟨?_, List.pairwise_singleton _ _, fun p hp q hq => ?_⟩
  · exact (h.sublist (List.takeWhile_sublist _)).imp fun hab => hab.1
  · obtain rfl := List.mem_singleton.mp hq
    have hle := List.mem_takeWhile_imp hp
    exact of_decide_eq_true hle

open MeasureTheory in
/-- **The area up to an abscissa** is the integral. -/
theorem area_cutAt (h : Rising (a :: pts)) (hx : a.1 ≤ x) :
    IntervalIntegrable (polyline (a :: pts)) volume a.1 x ∧
      ∫ t in a.1..x, polyline (a :: pts) t = area (cutAt (a :: pts) x) := by
  induction pts generalizing a with
  | nil =>
    have hcut : cutAt [a] x = [a, (x, a.2)] := by
      rw [cutAt, List.takeWhile_cons, if_pos (decide_eq_true hx)]
      rfl
    refine ⟨continuous_const.intervalIntegrable _ _, ?_⟩
    show ∫ _ in a.1..x, a.2 = _
    rw [hcut, area_cons_cons, area_singleton, intervalIntegral.integral_const, smul_eq_mul]
    ring
  | cons b pts ih =>
    have hline : ∀ u v, IntervalIntegrable (line a b) volume u v := fun u v =>
      (continuous_line a b).intervalIntegrable u v
    rcases lt_or_ge x b.1 with hlt | hle
    · have heq : Set.EqOn (line a b) (polyline (a :: b :: pts)) (Set.uIoo a.1 x) := by
        intro t ht
        rw [Set.uIoo_of_le hx] at ht
        exact (polyline_of_lt (ht.2.trans hlt)).symm
      refine ⟨(hline a.1 x).congr_uIoo heq, ?_⟩
      rw [← intervalIntegral.integral_congr_uIoo heq, integral_line, cutAt_of_lt hx hlt,
        area_cons_cons, area_singleton, add_zero]
    · have hab := h.head.1
      obtain ⟨hrest, hint⟩ := ih h.tail hle
      -- up to the next point the polyline is a line, and from there on it is the rest
      have hfirst : Set.EqOn (line a b) (polyline (a :: b :: pts)) (Set.uIoo a.1 b.1) := by
        intro t ht
        rw [Set.uIoo_of_le hab] at ht
        exact (polyline_of_lt ht.2).symm
      have hsecond : Set.EqOn (polyline (b :: pts)) (polyline (a :: b :: pts))
          (Set.uIoo b.1 x) := by
        intro t ht
        rw [Set.uIoo_of_le hle] at ht
        exact (polyline_of_le ht.1.le).symm
      have hfirst' := (hline a.1 b.1).congr_uIoo hfirst
      have hsecond' := hrest.congr_uIoo hsecond
      obtain ⟨rest, hcons⟩ := exists_cutAt_eq_cons pts hle
      refine ⟨hfirst'.trans hsecond', ?_⟩
      rw [← intervalIntegral.integral_add_adjacent_intervals hfirst' hsecond',
        ← intervalIntegral.integral_congr_uIoo hfirst,
        ← intervalIntegral.integral_congr_uIoo hsecond, hint, integral_line,
        cutAt_of_le hx hle, hcons, area_cons_cons]
      rcases hab.eq_or_lt with heq | hlt
      · rw [heq, sub_self, zero_mul, zero_mul]
      · rw [line_right hlt]

/-- At the last abscissa nothing is cut. -/
theorem area_cutAt_last {c : ℝ × ℝ} (h : Rising (a :: pts)) (hc : (a :: pts).getLast? = some c) :
    area (cutAt (a :: pts) c.1) = area (a :: pts) := by
  induction pts generalizing a with
  | nil =>
    obtain rfl : a = c := Option.some.inj hc
    rw [cutAt, List.takeWhile_cons, if_pos (decide_eq_true (le_refl a.1))]
    show area [a, (a.1, a.2)] = area [a]
    rw [area_cons_cons, area_singleton, sub_self, zero_mul, zero_div, add_zero]
  | cons b pts ih =>
    have hlast : (b :: pts).getLast? = some c := hc
    have hbc : b.1 ≤ c.1 := by
      rcases List.mem_cons.mp (List.mem_of_getLast? hlast) with heq | hmem
      · rw [heq]
      · exact ((List.pairwise_cons.mp h.tail).1 c hmem).1
    obtain ⟨rest, hcons⟩ := exists_cutAt_eq_cons pts hbc
    have hrest := ih h.tail hlast
    rw [hcons] at hrest
    rw [cutAt_of_le (h.head.1.trans hbc) hbc, hcons, area_cons_cons, area_cons_cons, hrest]

/-- **The area of a polyline** is the integral. -/
theorem area_eq_integral {c : ℝ × ℝ} (h : Rising (a :: pts))
    (hc : (a :: pts).getLast? = some c) :
    area (a :: pts) = ∫ t in a.1..c.1, polyline (a :: pts) t := by
  have hac : a.1 ≤ c.1 := by
    rcases List.mem_cons.mp (List.mem_of_getLast? hc) with heq | hmem
    · rw [heq]
    · exact ((List.pairwise_cons.mp h).1 c hmem).1
  rw [(area_cutAt h hac).2, area_cutAt_last h hc]

/-! ### Means -/

/-- **The mean of a rising function** over an interval from zero rises with its length. -/
theorem mean_mono {g : ℝ → ℝ} {f f' : ℝ} (hf : 0 < f) (hff : f ≤ f')
    (hg : ∀ x y, 0 ≤ x → x ≤ y → g x ≤ g y)
    (hint : ∀ x, 0 ≤ x → IntervalIntegrable g MeasureTheory.volume 0 x) :
    1 / f * ∫ t in 0..f, g t ≤ 1 / f' * ∫ t in 0..f', g t := by
  have hf' := hf.trans_le hff
  have hsecond : IntervalIntegrable g MeasureTheory.volume f f' :=
    (hint f hf.le).symm.trans (hint f' hf'.le)
  have hsplit := intervalIntegral.integral_add_adjacent_intervals (hint f hf.le) hsecond
  -- up to `f` the function is at most its value there, and from there on at least
  have hle : ∫ t in 0..f, g t ≤ f * g f := by
    have hmono := intervalIntegral.integral_mono_on hf.le (hint f hf.le)
      (continuous_const.intervalIntegrable 0 f) fun t ht => hg t f ht.1 ht.2
    rwa [intervalIntegral.integral_const, smul_eq_mul, sub_zero] at hmono
  have hge : (f' - f) * g f ≤ ∫ t in f..f', g t := by
    have hmono := intervalIntegral.integral_mono_on hff
      (continuous_const.intervalIntegrable f f') hsecond fun t ht => hg f t hf.le ht.1
    rwa [intervalIntegral.integral_const, smul_eq_mul] at hmono
  rw [← hsplit, one_div, one_div, inv_mul_le_iff₀ hf, ← mul_assoc, mul_comm f, mul_assoc,
    ← div_eq_inv_mul, le_div_iff₀ hf']
  nlinarith

/-- The mean of a function between two bounds is between them. -/
theorem mean_mem {g : ℝ → ℝ} {f c d : ℝ} (hf : 0 < f)
    (hg : ∀ x, 0 ≤ x → c ≤ g x ∧ g x ≤ d)
    (hint : IntervalIntegrable g MeasureTheory.volume 0 f) :
    c ≤ 1 / f * ∫ t in 0..f, g t ∧ 1 / f * ∫ t in 0..f, g t ≤ d := by
  have hconst : ∀ c : ℝ, ∫ _ in 0..f, c = f * c := by
    intro c
    rw [intervalIntegral.integral_const, sub_zero, smul_eq_mul]
  have hle := intervalIntegral.integral_mono_on hf.le
    (continuous_const.intervalIntegrable 0 f) hint fun t ht => (hg t ht.1).1
  have hge := intervalIntegral.integral_mono_on hf.le hint
    (continuous_const.intervalIntegrable 0 f) fun t ht => (hg t ht.1).2
  rw [hconst] at hle hge
  rw [one_div]
  exact ⟨(le_inv_mul_iff₀ hf).mpr hle, (inv_mul_le_iff₀ hf).mpr hge⟩

end Stats
