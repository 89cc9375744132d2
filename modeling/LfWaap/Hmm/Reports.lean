import LfWaap.Hmm.LabeledFlows
import LfWaap.Stats.RocOrder

/-!
# What an evaluation reports

The report of `evaluate` for real scores of both classes, written down without a curve
(`Waf.evaluate_realScores`): the area under the full curve is the fraction of the pairs of a
normal score and one of an attack that are in order, the precision is a mean over the attacks,
and the partial area is the mean height of the full curve.

* Each of the four is a fraction, and an evaluation finds two separated classes: both areas
  over all rates are one exactly if every attack scores lower than all normal traffic, and
  then the other two are one as well (`Waf.evaluate_fractions`).
* The operating point is sound for every target, and a larger target does not find fewer attacks
  (`Waf.tprAtFpr_sound`); as the threshold of a detector it keeps the false positives of a period
  within the target (`Waf.evaluate_alarms`).
* The scale of the scores does not matter: all numbers stay as they are if the scores of both
  classes are mapped by a function that rises strictly, and the threshold is mapped with them
  (`Waf.evaluate_rescaled`).
-/

namespace Waf

open Python Stats

variable {normal attack : List ℝ} {targetFpr : ℝ}

/-! ### The mean precision -/

/-- The fraction of attacks among the scores that are not above one. -/
noncomputable def precisionAt (normal attack : List ℝ) (w : ℝ) : ℝ :=
  (attack.countP fun v => decide (v ≤ w) : ℕ) /
    ((attack.countP fun v => decide (v ≤ w)) + (normal.countP fun v => decide (v ≤ w)) : ℕ)

/-- The mean over the attacks of the precisions at their scores. -/
noncomputable def meanPrecision (normal attack : List ℝ) : ℝ :=
  (attack.map (precisionAt normal attack)).sum / attack.length

theorem weightedPrecisions_eq (positives tps : ℕ) (pts : List (RocPoint EReal)) :
    weightedPrecisions positives tps pts =
      stepSum (fun a => (a.tps : ℝ) / (a.tps + a.fps : ℕ)) tps pts / positives := by
  induction pts generalizing tps with
  | nil => rw [weightedPrecisions, stepSum, zero_div]
  | cons a pts ih =>
    rw [weightedPrecisions, stepSum, ih, add_div]
    congr 1
    ring

/-- **The average precision** is the mean over the attacks. -/
theorem weightedPrecisions_anomalies (normal attack : List ℝ) :
    weightedPrecisions (anomalies (realScores attack)).length 0
        (binaryCurve (anomalies (realScores normal)) (anomalies (realScores attack))) =
      meanPrecision normal attack := by
  rw [weightedPrecisions_eq, stepSum_binaryCurve, meanPrecision, anomalies_realScores,
    anomalies_realScores, List.map_map, List.length_map]
  congr 2
  refine List.map_congr_left fun w _ => ?_
  show ((atLeast (anomaly w) _ : ℕ) : ℝ) / (atLeast (anomaly w) _ + atLeast (anomaly w) _ : ℕ) = _
  rw [atLeast_map strictAnti_anomaly, atLeast_map strictAnti_anomaly]
  rfl

theorem precisionAt_nonneg (normal attack : List ℝ) (w : ℝ) : 0 ≤ precisionAt normal attack w :=
  div_nonneg (Nat.cast_nonneg _) (Nat.cast_nonneg _)

/-- The precision at the score of an attack is one if no normal score is as low. -/
theorem precisionAt_eq_one_iff {w : ℝ} (hw : w ∈ attack) :
    precisionAt normal attack w ≤ 1 ∧
      (precisionAt normal attack w = 1 ↔ ∀ v ∈ normal, w < v) := by
  have hpos : 0 < attack.countP fun v => decide (v ≤ w) :=
    List.countP_pos_iff.mpr ⟨w, hw, decide_eq_true le_rfl⟩
  have hden : (0 : ℝ) < ((attack.countP fun v => decide (v ≤ w)) +
      (normal.countP fun v => decide (v ≤ w)) : ℕ) := by
    exact_mod_cast Nat.add_pos_left hpos _
  rw [precisionAt, div_le_one hden, div_eq_one_iff_eq hden.ne', Nat.cast_le, Nat.cast_inj]
  refine ⟨Nat.le_add_right _ _, ?_⟩
  rw [eq_comm, Nat.add_eq_left, List.countP_eq_zero]
  simp only [decide_eq_true_iff, not_le]

/-- **The mean precision is a fraction**, and one exactly if the classes are separated. -/
theorem meanPrecision_spec (ha : attack ≠ []) :
    0 ≤ meanPrecision normal attack ∧ meanPrecision normal attack ≤ 1 ∧
      (meanPrecision normal attack = 1 ↔ ∀ w ∈ attack, ∀ v ∈ normal, w < v) := by
  have hlen : (0 : ℝ) < attack.length := by exact_mod_cast List.length_pos_of_ne_nil ha
  have hsum := sum_map_eq_iff attack fun w hw =>
    (@precisionAt_eq_one_iff normal attack w hw).1
  rw [mul_one] at hsum
  rw [meanPrecision, div_le_one hlen, div_eq_one_iff_eq hlen.ne', hsum.2]
  refine ⟨div_nonneg (List.sum_nonneg fun x hx => ?_) hlen.le, hsum.1, ?_⟩
  · obtain ⟨w, -, rfl⟩ := List.mem_map.mp hx
    exact precisionAt_nonneg normal attack w
  · exact forall₂_congr fun w hw => (precisionAt_eq_one_iff hw).2

/-! ### The report -/

/-- **The report, without a curve.** -/
noncomputable def reportOf (normal attack : List ℝ) (targetFpr : ℝ) : EvaluationReport :=
  let found := foundPoint (anomalies (realScores normal)) (anomalies (realScores attack)) targetFpr
  { rocAuc := rankedCorrectly normal attack
    prAuc := meanPrecision normal attack
    partialAuc := meanHeight (anomalies (realScores normal)) (anomalies (realScores attack))
      targetFpr
    tprAtFpr := found.tps / attack.length
    targetFpr := targetFpr
    thresholdAtFpr := found.threshold
    nNormal := normal.length
    nAttack := attack.length }

section

variable [ScikitLearn]

/-- **What `evaluate` returns** for real scores of both classes. -/
theorem evaluate_realScores (hlib : ScikitLearn.Documented) (hn : normal ≠ []) (ha : attack ≠ [])
    (h : 0 < targetFpr ∧ targetFpr ≤ 1) :
    evaluate (realScores normal) (realScores attack) targetFpr =
      .ok (reportOf normal attack targetFpr) := by
  have hn' : realScores normal ≠ [] := List.map_eq_nil_iff.not.mpr hn
  have ha' : realScores attack ≠ [] := List.map_eq_nil_iff.not.mpr ha
  have hreal := realScores_append_real normal attack
  obtain ⟨hlen, hfalse, htrue, hreal'⟩ := labels_admissible hn' ha' hreal
  have hlength : ∀ xs : List ℝ, (realScores xs).length = xs.length := fun xs => List.length_map _
  rw [evaluate]
  show (tprAtFpr (realScores normal) (realScores attack) targetFpr >>= _) = _
  rw [tprAtFpr_realScores hlib hn ha h.1.le, ok_bind]
  show (ScikitLearn.rocAucScore (labelsAndAnomalyScores (realScores normal) (realScores attack)).1
    (labelsAndAnomalyScores (realScores normal) (realScores attack)).2 >>= _) = _
  rw [hlib.rocAucScore _ _ hlen hfalse htrue hreal', ok_bind]
  show (ScikitLearn.averagePrecisionScore
    (labelsAndAnomalyScores (realScores normal) (realScores attack)).1
    (labelsAndAnomalyScores (realScores normal) (realScores attack)).2 >>= _) = _
  rw [hlib.averagePrecisionScore _ _ hlen htrue hreal', ok_bind,
    partialAuc_eq hlib hn' ha' hreal h, ok_bind, (scoresOf_labels _ _).1, (scoresOf_labels _ _).2,
    area_curvePoints, pairStatistic_anomalies, weightedPrecisions_anomalies, hlength, hlength,
    reportOf, anomalies_realScores, anomalies_realScores, List.length_map]
  rfl

end

/-! ### Fractions -/

/-- Every attack scores lower than all normal traffic. -/
def Separated (normal attack : List ℝ) : Prop := ∀ w ∈ attack, ∀ v ∈ normal, w < v

theorem separated_iff_anomalies :
    Separated normal attack ↔ ∀ v ∈ anomalies (realScores normal),
      ∀ w ∈ anomalies (realScores attack), v < w := by
  rw [anomalies_realScores, anomalies_realScores, List.forall_mem_map]
  simp only [List.forall_mem_map, strictAnti_anomaly.lt_iff_gt]
  exact ⟨fun h v hv w hw => h w hw v hv, fun h w hw v hv => h v hv w hw⟩

theorem anomalies_ne_nil {scores : List ℝ} (h : scores ≠ []) :
    anomalies (realScores scores) ≠ [] := by
  rw [anomalies_realScores]
  exact List.map_eq_nil_iff.not.mpr h

theorem anomalies_ne_top (scores : List ℝ) : ∀ s ∈ anomalies (realScores scores), s ≠ ⊤ := by
  intro s hs
  obtain ⟨s', hs', rfl⟩ := List.mem_map.mp hs
  exact fun heq => (realScores_real scores s' hs').1 (EReal.neg_eq_top_iff.mp heq)

/-- The pairs are all in order exactly if the classes are separated. -/
theorem rankedCorrectly_spec (hn : normal ≠ []) (ha : attack ≠ []) :
    0 ≤ rankedCorrectly normal attack ∧ rankedCorrectly normal attack ≤ 1 ∧
      (rankedCorrectly normal attack = 1 ↔ Separated normal attack) := by
  have hneg := anomalies_ne_nil hn
  have hpos := anomalies_ne_nil ha
  have hunit := meanHeight_mem_unit (anomalies (realScores normal)) (anomalies (realScores attack))
    one_pos
  rw [meanHeight_one hneg hpos, pairStatistic_anomalies] at hunit
  rw [separated_iff_anomalies, ← pairStatistic_eq_one_iff hneg hpos, pairStatistic_anomalies]
  exact ⟨by exact_mod_cast hunit.1, by exact_mod_cast hunit.2, Iff.rfl⟩

/-- No point is skipped where the classes are separated. -/
theorem not_skipped_of_separated (hsep : Separated normal attack) (h : 0 ≤ targetFpr) :
    ¬ Skipped normal attack targetFpr := by
  rintro ⟨x, x', hadj, -, hcount, -, hx, -, hlt⟩
  -- no normal score is equal to the lower one, and so none to the other one
  have hzero : normal.count x = 0 :=
    List.count_eq_zero_of_not_mem fun hmem => lt_irrefl x (hsep x hx x hmem)
  have hx' : x' ∈ attack := by
    rcases List.mem_append.mp hadj.1 with hmem | hmem
    · rw [hzero] at hcount
      exact absurd hmem (List.count_eq_zero.mp hcount.symm)
    · exact hmem
  have hnone : (normal.countP fun s => decide (s ≤ x')) = 0 := by
    refine List.countP_eq_zero.mpr fun v hv => ?_
    rw [decide_eq_true_iff, not_le]
    exact hsep x' hx' v hv
  rw [hnone, Nat.cast_zero, zero_div] at hlt
  exact absurd hlt (not_lt.mpr h)

/-- **The rate that is found** is a fraction, and one if the classes are separated. -/
theorem foundPoint_tps_spec (ha : attack ≠ []) (h : 0 ≤ targetFpr) :
    let tpr := (reportOf normal attack targetFpr).tprAtFpr
    0 ≤ tpr ∧ tpr ≤ 1 ∧ (Separated normal attack → tpr = 1) := by
  intro tpr
  have hlen : (0 : ℝ) < attack.length := by exact_mod_cast List.length_pos_of_ne_nil ha
  have hlength : (anomalies (realScores attack)).length = attack.length := by
    rw [anomalies_realScores, List.length_map]
  have hle : tpr ≤ 1 := by
    refine (div_le_one hlen).mpr ?_
    rw [(foundPoint_spec h (anomalies_ne_top normal) (anomalies_ne_top attack)).2.1]
    exact_mod_cast hlength ▸ List.countP_le_length
  refine ⟨div_nonneg (Nat.cast_nonneg _) hlen.le, hle, fun hsep => le_antisymm hle ?_⟩
  -- the highest score of an attack is a threshold that catches all attacks and nothing else
  obtain ⟨w, hw, hmax⟩ : ∃ w ∈ attack, ∀ v ∈ attack, v ≤ w := by
    have hne := List.toFinset_nonempty_iff attack |>.mpr ha
    refine ⟨attack.toFinset.max' hne, List.mem_toFinset.mp (Finset.max'_mem _ hne), fun v hv => ?_⟩
    exact Finset.le_max' _ _ (List.mem_toFinset.mpr hv)
  have hbest := (isBest_found_iff ha h).mpr (not_skipped_of_separated hsep h)
  have hnone : caught (realScores normal) (anomaly w) ≤ targetFpr := by
    have hzero : (normal.countP fun v => decide (v ≤ w)) = 0 := by
      refine List.countP_eq_zero.mpr fun v hv => ?_
      rw [decide_eq_true_iff, not_le]
      exact hsep w hw v hv
    rw [caught_eq, anomalies_realScores, atLeast_map strictAnti_anomaly, hzero, Nat.cast_zero,
      zero_div]
    exact h
  have hall := hbest.best (anomaly w) hnone
  have hfull : (attack.countP fun v => decide (v ≤ w)) = attack.length :=
    List.countP_eq_length.mpr fun v hv => decide_eq_true (hmax v hv)
  rw [caught_eq, anomalies_realScores, atLeast_map strictAnti_anomaly, hfull, List.length_map,
    div_self hlen.ne', anomalies_realScores] at hall
  show 1 ≤ ((foundPoint (anomalies (realScores normal)) (anomalies (realScores attack))
    targetFpr).tps : ℝ) / attack.length
  rw [anomalies_realScores, anomalies_realScores]
  exact hall

/-- **The four numbers of a report** are fractions. Both areas over all rates are one exactly
if every attack scores lower than all normal traffic, and then so are the others. -/
theorem evaluate_fractions [ScikitLearn] (hlib : ScikitLearn.Documented) (hn : normal ≠ [])
    (ha : attack ≠ []) (h : 0 < targetFpr ∧ targetFpr ≤ 1) :
    ∃ r, evaluate (realScores normal) (realScores attack) targetFpr = .ok r ∧
      r.rocAuc = rankedCorrectly normal attack ∧ r.prAuc = meanPrecision normal attack ∧
      (∀ x ∈ [r.rocAuc, r.prAuc, r.partialAuc, r.tprAtFpr], 0 ≤ x ∧ x ≤ 1) ∧
      (r.rocAuc = 1 ↔ Separated normal attack) ∧ (r.prAuc = 1 ↔ Separated normal attack) ∧
      (Separated normal attack → r.partialAuc = 1 ∧ r.tprAtFpr = 1) ∧
      r.targetFpr = targetFpr ∧ r.nNormal = normal.length ∧ r.nAttack = attack.length := by
  obtain ⟨hroc0, hroc1, hroc⟩ := rankedCorrectly_spec hn ha
  obtain ⟨hpr0, hpr1, hpr⟩ := @meanPrecision_spec normal attack ha
  obtain ⟨htpr0, htpr1, htpr⟩ := @foundPoint_tps_spec normal attack _ ha h.1.le
  have hpart := meanHeight_mem_unit (anomalies (realScores normal)) (anomalies (realScores attack))
    h.1
  have hauc : (reportOf normal attack targetFpr).rocAuc = (rankedCorrectly normal attack : ℝ) := rfl
  refine ⟨_, evaluate_realScores hlib hn ha h, rfl, rfl, ?_, ?_, hpr, fun hsep => ⟨?_, htpr hsep⟩,
    rfl, rfl, rfl⟩
  · rw [hauc]
    simp only [List.forall_mem_cons]
    refine ⟨⟨?_, ?_⟩, ⟨hpr0, hpr1⟩, hpart, ⟨htpr0, htpr1⟩, List.forall_mem_nil _⟩
    · exact_mod_cast hroc0
    · exact_mod_cast hroc1
  · rw [hauc, ← hroc]
    norm_cast
  · exact meanHeight_of_separated h.1 (anomalies_ne_nil ha) (separated_iff_anomalies.mp hsep)

/-- Two attacks, one of which scores lower than normal traffic. -/
theorem evaluate_fractions_mixed :
    let _ : ScikitLearn := .exact
    ∃ r, evaluate (realScores [3]) (realScores [1, 4]) (1 / 2) = .ok r ∧ r.rocAuc ≠ 1 ∧
      r.prAuc ≠ 1 := by
  intro _
  obtain ⟨r, hr, -, -, -, hroc, hpr, -⟩ := @evaluate_fractions [3] [1, 4] (1 / 2) _
    ScikitLearn.documented_exact (List.cons_ne_nil _ _) (List.cons_ne_nil _ _)
    ⟨by norm_num, by norm_num⟩
  have hnot : ¬ Separated [3] [1, 4] := fun hsep => by
    have := hsep 4 (by simp) 3 (by simp)
    norm_num at this
  exact ⟨r, hr, hroc.not.mpr hnot, hpr.not.mpr hnot⟩

/-! ### The operating point -/

/-- Along a curve the positive values do not get fewer, and the thresholds do not rise. -/
theorem pairwise_keptPoints (neg pos : List EReal) :
    (keptPoints neg pos).Pairwise fun a b => a.tps ≤ b.tps ∧ b.threshold ≤ a.threshold := by
  have hsub := dropIntermediate_sublist (binaryCurve neg pos)
  refine List.pairwise_cons.mpr ⟨fun b _ => ⟨Nat.zero_le _, le_top⟩, ?_⟩
  refine List.Pairwise.sublist hsub (List.pairwise_map.mpr ?_)
  exact (pairwise_distinctScores neg pos).imp fun hgt => ⟨atLeast_anti pos (le_of_lt hgt), hgt.le⟩

/-- **What `tpr_at_fpr` returns is sound**, and does not fall with the target: the rate is that
of the threshold, which does not catch more normal traffic than the target allows, and a
larger target has a threshold that is not higher and catches at least as many attacks. -/
theorem tprAtFpr_sound [ScikitLearn] (hlib : ScikitLearn.Documented) (hn : normal ≠ [])
    (ha : attack ≠ []) {larger : ℝ} (h : 0 ≤ targetFpr) (hle : targetFpr ≤ larger) :
    ∃ point point', tprAtFpr (realScores normal) (realScores attack) targetFpr = .ok point ∧
      tprAtFpr (realScores normal) (realScores attack) larger = .ok point' ∧
      point.1 = caught (realScores attack) point.2 ∧
      caught (realScores normal) point.2 ≤ targetFpr ∧
      point.1 ≤ point'.1 ∧ point'.2 ≤ point.2 := by
  obtain ⟨hfps, htps, hel⟩ := foundPoint_spec h (anomalies_ne_top normal) (anomalies_ne_top attack)
  obtain ⟨hmore, hlower⟩ := lastWhile_rel
    (fun a b : RocPoint EReal => a.tps ≤ b.tps ∧ b.threshold ≤ a.threshold)
    (fun a => eligible (anomalies (realScores normal)).length targetFpr a.fps)
    (fun a => eligible (anomalies (realScores normal)).length larger a.fps)
    (fun a => ⟨le_rfl, le_rfl⟩)
    (fun b hb => decide_eq_true ((of_decide_eq_true hb).trans hle))
    (pairwise_keptPoints (anomalies (realScores normal)) (anomalies (realScores attack)))
    fun a b c hab hbc => ⟨hab.1.trans hbc.1, hbc.2.trans hab.2⟩
  refine ⟨_, _, tprAtFpr_realScores hlib hn ha h, tprAtFpr_realScores hlib hn ha (h.trans hle),
    ?_, ?_, ?_, hlower⟩
  · rw [caught_eq, ← htps]
  · rw [caught_eq, ← hfps]
    exact of_decide_eq_true hel
  · exact div_le_div_of_nonneg_right (by exact_mod_cast hmore) (Nat.cast_nonneg _)

/-- Two targets, for scores with ties. -/
theorem tprAtFpr_sound_two :
    let _ : ScikitLearn := .exact
    ∃ point point',
      tprAtFpr (realScores [2, 3, 3]) (realScores [1, 1, 2]) (1 / 4) = .ok point ∧
      tprAtFpr (realScores [2, 3, 3]) (realScores [1, 1, 2]) (1 / 2) = .ok point' ∧
      point.1 = caught (realScores [1, 1, 2]) point.2 ∧
      caught (realScores [2, 3, 3]) point.2 ≤ 1 / 4 ∧
      point.1 ≤ point'.1 ∧ point'.2 ≤ point.2 := by
  intro _
  exact @tprAtFpr_sound [2, 3, 3] [1, 1, 2] (1 / 4) _ ScikitLearn.documented_exact
    (List.cons_ne_nil _ _) (List.cons_ne_nil _ _) (1 / 2) (by norm_num) (by norm_num)

/-! ### Alarms -/

/-- A threshold of the curve catches what scores below its opposite, and what scores the same. -/
theorem countP_caught (scores : List EReal) (t : EReal) :
    (scores.countP fun s => decide (t ≤ -s)) =
      (scores.countP fun s => decide (s < -t)) + scores.count (-t) := by
  induction scores with
  | nil => rfl
  | cons s scores ih =>
    rw [List.countP_cons, List.countP_cons, List.count_cons, ih]
    have hsplit : (if decide (t ≤ -s) = true then 1 else 0) =
        (if decide (s < -t) = true then 1 else 0) + if (s == -t) = true then 1 else 0 := by
      simp only [decide_eq_true_iff, beq_iff_eq, EReal.le_neg (a := t)]
      rcases lt_trichotomy s (-t) with hlt | rfl | hgt
      · simp [hlt, hlt.le, hlt.ne]
      · simp
      · simp [hgt.not_ge, hgt.not_gt, hgt.ne']
    omega

theorem atLeast_anomalies (scores : List EReal) (t : EReal) :
    atLeast t (anomalies scores) = scores.countP fun s => decide (t ≤ -s) := by
  rw [atLeast, anomalies, List.countP_map]
  rfl

/-- **The false positives of a period** at the opposite of a threshold of the curve are those that
it catches, less those whose score it is. -/
theorem falsePositivesPerPeriod_add {scores : List EReal} (hne : scores ≠ []) (t : EReal)
    (requests : ℝ) :
    falsePositivesPerPeriod scores (-t) requests + scores.count (-t) / scores.length * requests =
      caught scores t * requests := by
  rw [falsePositivesPerPeriod, if_neg (List.length_pos_iff.mpr hne).ne', caught, countP_caught,
    Nat.cast_add, add_div, add_mul]

/-- A lower threshold has no more of them. -/
theorem falsePositivesPerPeriod_mono (scores : List EReal) {t t' : EReal} (h : t ≤ t')
    {requests : ℝ} (hreq : 0 ≤ requests) :
    falsePositivesPerPeriod scores t requests ≤ falsePositivesPerPeriod scores t' requests := by
  rw [falsePositivesPerPeriod, falsePositivesPerPeriod]
  split_ifs with hnil
  · exact le_rfl
  · refine mul_le_mul_of_nonneg_right (div_le_div_of_nonneg_right ?_ (Nat.cast_nonneg _)) hreq
    refine Nat.cast_le.mpr (List.countP_mono_left fun s _ hs => ?_)
    exact decide_eq_true ((of_decide_eq_true hs).trans_le h)

/-- **The reported threshold keeps its promise in a detector**, which blocks what scores below a
threshold and not what scores the same: with it, or with a lower one, the false positives of every
period are within the target, and the attacks below it are those that the report counts, less those
whose score it is. -/
theorem evaluate_alarms [ScikitLearn] (hlib : ScikitLearn.Documented) (hn : normal ≠ [])
    (ha : attack ≠ []) (h : 0 < targetFpr ∧ targetFpr ≤ 1) :
    ∃ r, evaluate (realScores normal) (realScores attack) targetFpr = .ok r ∧
      (∀ t ≤ -r.thresholdAtFpr, ∀ requests, 0 ≤ requests →
        falsePositivesPerPeriod (realScores normal) t requests ≤ targetFpr * requests) ∧
      (((realScores attack).countP fun s => decide (s < -r.thresholdAtFpr)) +
        (realScores attack).count (-r.thresholdAtFpr) : ℕ) = r.tprAtFpr * attack.length := by
  obtain ⟨hfps, htps, hel⟩ :=
    foundPoint_spec h.1.le (anomalies_ne_top normal) (anomalies_ne_top attack)
  have hne : realScores normal ≠ [] := List.map_eq_nil_iff.not.mpr hn
  have hlen : (0 : ℝ) < attack.length := by exact_mod_cast List.length_pos_of_ne_nil ha
  refine ⟨_, evaluate_realScores hlib hn ha h, fun t ht requests hreq => ?_, ?_⟩
  · have hrate : caught (realScores normal) (reportOf normal attack targetFpr).thresholdAtFpr ≤
        targetFpr := by
      rw [caught_eq]
      exact (congrArg (fun k : ℕ => (k : ℝ) / _) hfps).symm.trans_le (of_decide_eq_true hel)
    have hsame : 0 ≤ ((realScores normal).count (-(reportOf normal attack
        targetFpr).thresholdAtFpr) : ℝ) / (realScores normal).length * requests := by positivity
    calc falsePositivesPerPeriod (realScores normal) t requests
        ≤ falsePositivesPerPeriod (realScores normal)
            (-(reportOf normal attack targetFpr).thresholdAtFpr) requests :=
          falsePositivesPerPeriod_mono _ ht hreq
      _ ≤ caught (realScores normal) (reportOf normal attack targetFpr).thresholdAtFpr *
            requests := by
          rw [← falsePositivesPerPeriod_add hne]
          exact le_add_of_nonneg_right hsame
      _ ≤ targetFpr * requests := mul_le_mul_of_nonneg_right hrate hreq
  · have hrate : (reportOf normal attack targetFpr).tprAtFpr * attack.length =
        (foundPoint (anomalies (realScores normal)) (anomalies (realScores attack))
          targetFpr).tps := div_mul_cancel₀ _ hlen.ne'
    rw [hrate, htps, ← countP_caught, atLeast_anomalies]
    rfl

/-- A budget of one alarm in ten, for scores with ties. -/
theorem evaluate_alarms_tenth :
    let _ : ScikitLearn := .exact
    ∃ r, evaluate (realScores [2, 3, 3]) (realScores [1, 1, 2]) (1 / 10) = .ok r ∧
      falsePositivesPerPeriod (realScores [2, 3, 3]) (-r.thresholdAtFpr) 1000 ≤ 1 / 10 * 1000 ∧
      (((realScores [1, 1, 2]).countP fun s => decide (s < -r.thresholdAtFpr)) +
        (realScores [1, 1, 2]).count (-r.thresholdAtFpr) : ℕ) = r.tprAtFpr * 3 := by
  intro _
  obtain ⟨r, hr, hle, hcaught⟩ := @evaluate_alarms [2, 3, 3] [1, 1, 2] (1 / 10) _
    ScikitLearn.documented_exact (List.cons_ne_nil _ _) (List.cons_ne_nil _ _)
    ⟨by norm_num, by norm_num⟩
  exact ⟨r, hr, hle _ le_rfl 1000 (by norm_num), by exact_mod_cast hcaught⟩

/-! ### Other scales -/

section

variable {g : ℝ → ℝ}

theorem rankedCorrectly_map (hg : StrictMono g) (normal attack : List ℝ) :
    rankedCorrectly (normal.map g) (attack.map g) = rankedCorrectly normal attack := by
  rw [rankedCorrectly, rankedCorrectly, List.map_map, List.length_map, List.length_map]
  congr 2
  refine List.map_congr_left fun s _ => ?_
  show ((attack.map g).map _).sum = _
  rw [List.map_map]
  refine congrArg List.sum (List.map_congr_left fun w _ => ?_)
  show (if g w < g s then (1 : ℚ) else if g w = g s then 1 / 2 else 0) = _
  simp only [hg.lt_iff_lt, hg.injective.eq_iff]

theorem meanPrecision_map (hg : StrictMono g) (normal attack : List ℝ) :
    meanPrecision (normal.map g) (attack.map g) = meanPrecision normal attack := by
  have hcount : ∀ (xs : List ℝ) (w : ℝ), ((xs.map g).countP fun v => decide (v ≤ g w)) =
      xs.countP fun v => decide (v ≤ w) := by
    intro xs w
    rw [List.countP_map]
    refine List.countP_congr fun v _ => ?_
    show decide (g v ≤ g w) = true ↔ _
    rw [decide_eq_true_iff, decide_eq_true_iff, hg.le_iff_le]
  rw [meanPrecision, meanPrecision, List.map_map, List.length_map]
  congr 2
  refine List.map_congr_left fun w _ => ?_
  show precisionAt _ _ (g w) = _
  rw [precisionAt, precisionAt, hcount, hcount]

/-- The curve in the unit square does not depend on how the order is turned round. -/
theorem curvePoints_map {φ : ℝ → EReal} (hφ : StrictAnti φ) (normal attack : List ℝ) :
    curvePoints (normal.map φ) (attack.map φ) =
      (0, 0) :: (risingCurve normal attack).map (RocPoint.scaled normal.length attack.length) := by
  rw [curvePoints, binaryCurve_map hφ, List.map_map, List.length_map, List.length_map]
  rfl

/-- The point that is found among the scores from the least one on. Its threshold is a score,
unless it is the point in front of the curve. -/
noncomputable def foundScore (normal attack : List ℝ) (targetFpr : ℝ) : RocPoint (Option ℝ) :=
  lastWhile (fun a => eligible normal.length targetFpr a.fps) ⟨none, 0, 0⟩
    ((dropIntermediate (risingCurve normal attack)).map (RocPoint.map some))

theorem foundPoint_map {φ : ℝ → EReal} (hφ : StrictAnti φ) (normal attack : List ℝ)
    (targetFpr : ℝ) :
    foundPoint (normal.map φ) (attack.map φ) targetFpr =
      (foundScore normal attack targetFpr).map fun x => x.elim ⊤ φ := by
  rw [foundScore, ← lastWhile_map _ (eligible normal.length targetFpr), foundPoint,
    binaryCurve_map hφ, dropIntermediate_map, List.map_map, List.length_map]
  rfl

theorem threshold_foundScore (normal attack : List ℝ) (h : 0 ≤ targetFpr) :
    ∀ x ∈ (foundScore normal attack targetFpr).threshold, x ∈ normal ++ attack := by
  intro x hx
  obtain ⟨hmem, -⟩ := lastWhile_mem
    (q := fun a : RocPoint (Option ℝ) => eligible normal.length targetFpr a.fps)
    (a := ⟨none, 0, 0⟩)
    ((dropIntermediate (risingCurve normal attack)).map (RocPoint.map some)) (eligible_zero h)
  rw [← foundScore] at hmem
  rcases List.mem_cons.mp hmem with heq | hmem
  · rw [heq] at hx
    cases hx
  · obtain ⟨a, ha, heq⟩ := List.mem_map.mp hmem
    obtain ⟨y, hy, rfl⟩ := List.mem_map.mp ((dropIntermediate_sublist _).subset ha)
    rw [← heq] at hx
    obtain rfl := Option.some.inj hx
    exact List.mem_toFinset.mp ((Finset.mem_sort _).mp hy)

/-- **Only the order of the scores matters.** If the scores of both classes are mapped by a
function that rises strictly, the evaluation reports the same numbers, and the threshold that
it reports is that of the same score. -/
theorem evaluate_rescaled [ScikitLearn] (hlib : ScikitLearn.Documented) (hg : StrictMono g)
    (hn : normal ≠ []) (ha : attack ≠ []) (h : 0 < targetFpr ∧ targetFpr ≤ 1) :
    ∃ r r', evaluate (realScores normal) (realScores attack) targetFpr = .ok r ∧
      evaluate (realScores (normal.map g)) (realScores (attack.map g)) targetFpr = .ok r' ∧
      r' = { r with thresholdAtFpr := r'.thresholdAtFpr } ∧
      ∃ x : Option ℝ, (∀ y ∈ x, y ∈ normal ++ attack) ∧
        r.thresholdAtFpr = x.elim ⊤ anomaly ∧
        r'.thresholdAtFpr = x.elim ⊤ fun y => anomaly (g y) := by
  have hrescaled : StrictAnti fun x => anomaly (g x) := strictAnti_anomaly.comp_strictMono hg
  have hmap : ∀ xs : List ℝ, anomalies (realScores (xs.map g)) = xs.map fun x => anomaly (g x) := by
    intro xs
    rw [anomalies_realScores, List.map_map]
    rfl
  have hreport : reportOf (normal.map g) (attack.map g) targetFpr =
      { reportOf normal attack targetFpr with
        thresholdAtFpr :=
          (foundScore normal attack targetFpr).threshold.elim ⊤ fun y => anomaly (g y) } := by
    have hfound := foundPoint_map hrescaled normal attack targetFpr
    have hheight :
        meanHeight (normal.map fun x => anomaly (g x)) (attack.map fun x => anomaly (g x))
          targetFpr = meanHeight (normal.map anomaly) (attack.map anomaly) targetFpr := by
      rw [meanHeight, meanHeight, curvePoints_map hrescaled, curvePoints_map strictAnti_anomaly]
    rw [reportOf, reportOf, hmap, hmap, hfound, hheight, anomalies_realScores,
      anomalies_realScores, foundPoint_map strictAnti_anomaly, rankedCorrectly_map hg,
      meanPrecision_map hg, List.length_map, List.length_map]
    rfl
  refine ⟨_, _, evaluate_realScores hlib hn ha h,
    evaluate_realScores hlib (List.map_eq_nil_iff.not.mpr hn) (List.map_eq_nil_iff.not.mpr ha) h,
    ?_, (foundScore normal attack targetFpr).threshold, threshold_foundScore normal attack h.1.le,
    ?_, ?_⟩
  · rw [hreport]
  · rw [reportOf, anomalies_realScores, anomalies_realScores, foundPoint_map strictAnti_anomaly]
    rfl
  · rw [hreport]

/-- Scores with ties, in other units. -/
theorem evaluate_rescaled_units :
    let _ : ScikitLearn := .exact
    ∃ r r', evaluate (realScores [2, 3, 3]) (realScores [1, 1, 2]) (1 / 2) = .ok r ∧
      evaluate (realScores [8, 10, 10]) (realScores [6, 6, 8]) (1 / 2) = .ok r' ∧
      r' = { r with thresholdAtFpr := r'.thresholdAtFpr } := by
  intro _
  have hg : StrictMono fun x : ℝ => 2 * x + 4 := fun x y hxy => by
    show 2 * x + 4 < 2 * y + 4
    linarith
  obtain ⟨r, r', hr, hr', heq, -⟩ := @evaluate_rescaled [2, 3, 3] [1, 1, 2] (1 / 2) _ _
    ScikitLearn.documented_exact hg (List.cons_ne_nil _ _) (List.cons_ne_nil _ _)
    ⟨by norm_num, by norm_num⟩
  refine ⟨r, r', hr, ?_, heq⟩
  rw [← hr']
  norm_num

end

end Waf
