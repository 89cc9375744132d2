import LfWaap.Hmm.Reports
import LfWaap.Stats.Dispersion

/-!
# What chance scores

The documentation of `waf.infrastructure.hmm.evaluation.partial_auc` warns that its normalisation
gives a random ranking about `max_fpr / 2`, and not one half. This is exact, for classes that no
threshold tells apart: the partial area is half the rate, the area under the curve one half, and
the mean precision the share of attacks.

These numbers are the level of chance. `Waf.evaluate_chance` compares with it for any scores: where
every threshold catches at least as large a fraction of the attacks as of the normal traffic, no
metric is below it, and where no threshold does better than that, none is above.
-/

namespace Waf

open Python Stats

variable {normal attack : List ℝ} {targetFpr : ℝ}

/-- **No threshold catches a larger fraction** of the first class than of the second. -/
def CaughtLess (xs ys : List ℝ) : Prop :=
  ∀ t, caught (realScores xs) t ≤ caught (realScores ys) t

/-! ### The curve and the diagonal -/

theorem scaled_rocPoint (xs ys : List ℝ) (t : EReal) :
    (rocPoint (anomalies (realScores xs)) (anomalies (realScores ys)) t).scaled
        (anomalies (realScores xs)).length (anomalies (realScores ys)).length =
      (caught (realScores xs) t, caught (realScores ys) t) := by
  rw [caught_eq, caught_eq]
  rfl

/-- Beyond the origin, each point of the curve is that of a threshold. -/
theorem cases_of_mem_curvePoints {xs ys : List ℝ} {p : ℝ × ℝ}
    (hp : p ∈ curvePoints (anomalies (realScores xs)) (anomalies (realScores ys))) :
    p = (0, 0) ∨ ∃ t, p = (caught (realScores xs) t, caught (realScores ys) t) := by
  rcases List.mem_cons.mp hp with rfl | hp
  · exact .inl rfl
  · obtain ⟨_, hpoint, rfl⟩ := List.mem_map.mp hp
    obtain ⟨t, -, rfl⟩ := List.mem_map.mp hpoint
    exact .inr ⟨t, scaled_rocPoint xs ys t⟩

/-- **The curve is not below the diagonal** where the attacks are caught more often. -/
theorem le_curve (hn : normal ≠ []) (ha : attack ≠ []) (h : CaughtLess normal attack) {x : ℝ}
    (hx : 0 ≤ x) (hx1 : x ≤ 1) :
    x ≤ polyline (curvePoints (anomalies (realScores normal)) (anomalies (realScores attack)))
      x := by
  refine le_polyline_of_diagonal (fun p hp => ?_) hx
    (getLast?_curvePoints (anomalies_ne_nil hn) (anomalies_ne_nil ha)) hx1
  obtain rfl | ⟨t, rfl⟩ := cases_of_mem_curvePoints hp
  · exact le_rfl
  · exact h t

/-- **The curve is not above the diagonal** where they are caught less often. -/
theorem curve_le (h : CaughtLess attack normal) {x : ℝ} (hx : 0 ≤ x) :
    polyline (curvePoints (anomalies (realScores normal)) (anomalies (realScores attack))) x ≤
      x := by
  refine polyline_le_of_diagonal (fun p hp => ?_) hx
  obtain rfl | ⟨t, rfl⟩ := cases_of_mem_curvePoints hp
  · exact le_rfl
  · exact h t

/-- The mean height of the diagonal. -/
theorem mean_diagonal {f : ℝ} (hf : 0 < f) : 1 / f * ∫ x in (0 : ℝ)..f, x = f / 2 := by
  rw [integral_id]
  field_simp
  ring

theorem half_le_meanHeight (hn : normal ≠ []) (ha : attack ≠ []) (h : CaughtLess normal attack)
    {f : ℝ} (hf : 0 < f) (hf1 : f ≤ 1) :
    f / 2 ≤ meanHeight (anomalies (realScores normal)) (anomalies (realScores attack)) f := by
  rw [meanHeight, ← mean_diagonal hf]
  refine mul_le_mul_of_nonneg_left ?_ (one_div_nonneg.mpr hf.le)
  exact intervalIntegral.integral_mono_on hf.le (continuous_id.intervalIntegrable 0 f)
    (intervalIntegrable_curve _ _ hf.le) fun x hx => le_curve hn ha h hx.1 (hx.2.trans hf1)

theorem meanHeight_le_half (h : CaughtLess attack normal) {f : ℝ} (hf : 0 < f) :
    meanHeight (anomalies (realScores normal)) (anomalies (realScores attack)) f ≤ f / 2 := by
  rw [meanHeight, ← mean_diagonal hf]
  refine mul_le_mul_of_nonneg_left ?_ (one_div_nonneg.mpr hf.le)
  exact intervalIntegral.integral_mono_on hf.le (intervalIntegrable_curve _ _ hf.le)
    (continuous_id.intervalIntegrable 0 f) fun x hx => curve_le h hx.1

/-! ### The precision -/

/-- The share of attacks among the scores. -/
noncomputable def baseRate (normal attack : List ℝ) : ℝ :=
  attack.length / (attack.length + normal.length : ℕ)

/-- How many scores a threshold catches. -/
theorem caught_anomaly (xs : List ℝ) (w : ℝ) :
    caught (realScores xs) (anomaly w) = (xs.countP fun v => decide (v ≤ w) : ℕ) / xs.length := by
  rw [caught_eq, anomalies_realScores, atLeast_map strictAnti_anomaly, List.length_map]

/-- **The precision at the score of an attack** is compared with the share of attacks. -/
theorem precisionAt_chance (hn : normal ≠ []) {w : ℝ} (hw : w ∈ attack) :
    (CaughtLess normal attack → baseRate normal attack ≤ precisionAt normal attack w) ∧
      (CaughtLess attack normal → precisionAt normal attack w ≤ baseRate normal attack) := by
  set a := attack.countP fun v => decide (v ≤ w) with hadef
  set n := normal.countP fun v => decide (v ≤ w) with hndef
  have hattack : (0 : ℝ) < attack.length := length_pos_of_ne_nil (List.ne_nil_of_mem hw)
  have hnormal : (0 : ℝ) < normal.length := length_pos_of_ne_nil hn
  have ha : 0 < a := List.countP_pos_iff.mpr ⟨w, hw, decide_eq_true le_rfl⟩
  have hcaught : (0 : ℝ) < (a + n : ℕ) := by exact_mod_cast Nat.add_pos_left ha n
  have hall : (0 : ℝ) < (attack.length + normal.length : ℕ) := by
    rw [Nat.cast_add]
    exact add_pos hattack hnormal
  rw [precisionAt, baseRate, ← hadef, ← hndef]
  constructor
  · intro h
    have hrate := h (anomaly w)
    rw [caught_anomaly, caught_anomaly, div_le_div_iff₀ hnormal hattack] at hrate
    rw [div_le_div_iff₀ hall hcaught, Nat.cast_add, Nat.cast_add]
    linarith
  · intro h
    have hrate := h (anomaly w)
    rw [caught_anomaly, caught_anomaly, div_le_div_iff₀ hattack hnormal] at hrate
    rw [div_le_div_iff₀ hcaught hall, Nat.cast_add, Nat.cast_add]
    linarith

/-- **So is their mean.** -/
theorem meanPrecision_chance (hn : normal ≠ []) (ha : attack ≠ []) :
    (CaughtLess normal attack → baseRate normal attack ≤ meanPrecision normal attack) ∧
      (CaughtLess attack normal → meanPrecision normal attack ≤ baseRate normal attack) := by
  have hne : attack.map (precisionAt normal attack) ≠ [] := List.map_eq_nil_iff.not.mpr ha
  have hmean : meanPrecision normal attack = mean (attack.map (precisionAt normal attack)) := by
    rw [mean, List.length_map]
    rfl
  rw [hmean]
  constructor
  · intro h
    have hbounds : ∀ x ∈ attack.map (precisionAt normal attack),
        baseRate normal attack ≤ x ∧ x ≤ 1 :=
      List.forall_mem_map.mpr fun w hw =>
        ⟨(precisionAt_chance hn hw).1 h, (precisionAt_eq_one_iff hw).1⟩
    exact (mean_mem_of_bounds hne hbounds).1
  · intro h
    have hbounds : ∀ x ∈ attack.map (precisionAt normal attack),
        0 ≤ x ∧ x ≤ baseRate normal attack :=
      List.forall_mem_map.mpr fun w hw =>
        ⟨precisionAt_nonneg _ _ w, (precisionAt_chance hn hw).2 h⟩
    exact (mean_mem_of_bounds hne hbounds).2

/-! ### The report -/

/-- **What an evaluation reports, compared with chance.** Where every threshold catches at least as
large a fraction of the attacks as of the normal traffic, the area under the curve is at least one
half, the mean precision at least the share of attacks, and the partial area at least half the
rate. Where no threshold catches a larger one, they are at most that, and the rate of attacks that
are found is at most the target. -/
theorem evaluate_chance [ScikitLearn] (hlib : ScikitLearn.Documented) (hn : normal ≠ [])
    (ha : attack ≠ []) (h : 0 < targetFpr ∧ targetFpr ≤ 1) :
    ∃ r, evaluate (realScores normal) (realScores attack) targetFpr = .ok r ∧
      (CaughtLess normal attack → 1 / 2 ≤ r.rocAuc ∧ baseRate normal attack ≤ r.prAuc ∧
        targetFpr / 2 ≤ r.partialAuc) ∧
      (CaughtLess attack normal → r.rocAuc ≤ 1 / 2 ∧ r.prAuc ≤ baseRate normal attack ∧
        r.partialAuc ≤ targetFpr / 2 ∧ r.tprAtFpr ≤ targetFpr) := by
  -- the area under the curve is the partial area for the rate one
  have harea : (reportOf normal attack targetFpr).rocAuc =
      meanHeight (anomalies (realScores normal)) (anomalies (realScores attack)) 1 := by
    rw [meanHeight_one (anomalies_ne_nil hn) (anomalies_ne_nil ha), pairStatistic_anomalies]
    rfl
  obtain ⟨hprecise, himprecise⟩ := meanPrecision_chance hn ha
  refine ⟨_, evaluate_realScores hlib hn ha h, fun hless => ⟨?_, hprecise hless, ?_⟩,
    fun hless => ⟨?_, himprecise hless, ?_, ?_⟩⟩
  · rw [harea]
    exact half_le_meanHeight hn ha hless one_pos le_rfl
  · exact half_le_meanHeight hn ha hless h.1 h.2
  · rw [harea]
    exact meanHeight_le_half hless one_pos
  · exact meanHeight_le_half hless h.1
  · obtain ⟨hfps, htps, hel⟩ :=
      foundPoint_spec h.1.le (anomalies_ne_top normal) (anomalies_ne_top attack)
    have hfound := hless (foundPoint (anomalies (realScores normal))
      (anomalies (realScores attack)) targetFpr).threshold
    have hlength : (anomalies (realScores attack)).length = attack.length := by
      rw [anomalies_realScores, List.length_map]
    rw [caught_eq, caught_eq, ← htps, ← hfps, hlength] at hfound
    exact hfound.trans (of_decide_eq_true hel)

/-- Classes that no threshold tells apart. -/
theorem evaluate_chance_alike :
    let _ : ScikitLearn := .exact
    ∃ r, evaluate (realScores [1, 2]) (realScores [2, 1]) (1 / 10) = .ok r ∧
      r.rocAuc = 1 / 2 ∧ r.prAuc = baseRate [1, 2] [2, 1] ∧ r.partialAuc = 1 / 10 / 2 := by
  intro _
  have hperm : (realScores [1, 2]).Perm (realScores [2, 1]) := (List.Perm.swap 2 1 []).map _
  have hcaught : ∀ t, caught (realScores [1, 2]) t = caught (realScores [2, 1]) t := fun t => by
    rw [caught, caught, hperm.countP_eq, hperm.length_eq]
  obtain ⟨r, hr, hge, hle⟩ := @evaluate_chance [1, 2] [2, 1] (1 / 10) _
    ScikitLearn.documented_exact (List.cons_ne_nil _ _) (List.cons_ne_nil _ _)
    ⟨by norm_num, by norm_num⟩
  obtain ⟨hroc, hpr, hpart⟩ := hge fun t => (hcaught t).le
  obtain ⟨hroc', hpr', hpart', -⟩ := hle fun t => (hcaught t).ge
  exact ⟨r, hr, le_antisymm hroc' hroc, le_antisymm hpr' hpr, le_antisymm hpart' hpart⟩

end Waf
