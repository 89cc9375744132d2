import LfWaap.Hmm.Curves

/-!
# The operating point below a false-positive rate

`tpr_at_fpr` takes the last point of the curve whose false-positive rate is not above the
target. What it reports is a true statement about the scores: the fractions that the threshold
catches are as they are said to be, and the target is kept. Whether a better threshold exists
depends on the points that scikit-learn leaves out of the curve: the last one below the target
may be one of them. This happens where two neighbouring scores occur equally often in both
classes, and the target lies between them (`Waf.Skipped`); then the true-positive rate of an
earlier point is returned, and otherwise the best one (`Waf.isBest_tprAtFpr_iff`).
-/

namespace Waf

open Python Stats

/-- The fraction of scores whose anomaly score is not below a threshold. -/
noncomputable def caught (scores : List EReal) (t : EReal) : ℝ :=
  (scores.countP fun s => decide (t ≤ -s) : ℕ) / scores.length

/-- **The best operating point**: the threshold catches the fraction of attacks that is
reported, and no more than the target of the normal traffic; no other threshold that does so
catches more attacks. -/
structure IsBest (normal attack : List EReal) (targetFpr : ℝ) (point : ℝ × EReal) : Prop where
  tpr_eq : point.1 = caught attack point.2
  fpr_le : caught normal point.2 ≤ targetFpr
  best : ∀ t, caught normal t ≤ targetFpr → caught attack t ≤ point.1

/-- **A point is skipped**: the target lies between two neighbouring scores that occur equally
often in both classes, the lower of which is that of an attack and not the lowest of all. -/
def Skipped (normal attack : List ℝ) (targetFpr : ℝ) : Prop :=
  ∃ x x', Adjacent (normal ++ attack) x' x ∧ (∃ y ∈ normal ++ attack, y < x) ∧
    normal.count x = normal.count x' ∧ attack.count x = attack.count x' ∧ x ∈ attack ∧
    (normal.countP fun s => decide (s ≤ x) : ℕ) / normal.length ≤ targetFpr ∧
    targetFpr < (normal.countP fun s => decide (s ≤ x') : ℕ) / normal.length

/-- A number of normal scores is within the target. -/
noncomputable def eligible (n : ℕ) (targetFpr : ℝ) (fps : ℕ) : Bool :=
  decide ((fps : ℝ) / n ≤ targetFpr)

/-- The point of the curve that is found. -/
noncomputable def foundPoint (neg pos : List EReal) (targetFpr : ℝ) : RocPoint EReal :=
  lastWhile (fun a => eligible neg.length targetFpr a.fps) originPoint
    (dropIntermediate (binaryCurve neg pos))

section

variable {scores normal attack neg pos : List EReal} {targetFpr : ℝ} {n : ℕ}

theorem caught_eq (scores : List EReal) (t : EReal) :
    caught scores t = atLeast t (anomalies scores) / (anomalies scores).length := by
  rw [caught, atLeast, anomalies, List.countP_map, List.length_map]
  rfl

theorem eligible_anti (n : ℕ) (targetFpr : ℝ) : ∀ i j, i ≤ j →
    eligible n targetFpr j = true → eligible n targetFpr i = true := by
  intro i j hij hj
  refine decide_eq_true (le_trans ?_ (of_decide_eq_true hj))
  exact div_le_div_of_nonneg_right (by exact_mod_cast hij) (Nat.cast_nonneg n)

theorem eligible_zero (h : 0 ≤ targetFpr) : eligible n targetFpr 0 = true := by
  refine decide_eq_true ?_
  rw [Nat.cast_zero, zero_div]
  exact h

/-- The counts of the point found are those of its threshold. -/
theorem foundPoint_spec (h : 0 ≤ targetFpr) (hneg : ∀ s ∈ neg, s ≠ ⊤) (hpos : ∀ s ∈ pos, s ≠ ⊤) :
    (foundPoint neg pos targetFpr).fps = atLeast (foundPoint neg pos targetFpr).threshold neg ∧
      (foundPoint neg pos targetFpr).tps = atLeast (foundPoint neg pos targetFpr).threshold pos ∧
      eligible neg.length targetFpr (foundPoint neg pos targetFpr).fps = true := by
  have horigin : eligible neg.length targetFpr originPoint.fps = true := eligible_zero h
  obtain ⟨hmem, hel⟩ := lastWhile_mem (q := fun a => eligible neg.length targetFpr a.fps)
    (dropIntermediate (binaryCurve neg pos)) horigin
  have hnone : ∀ vs : List EReal, (∀ s ∈ vs, s ≠ ⊤) → atLeast ⊤ vs = 0 := by
    intro vs hvs
    refine List.countP_eq_zero.mpr fun s hs => ?_
    rw [decide_eq_true_iff, top_le_iff]
    exact hvs s hs
  rw [foundPoint]
  rcases List.mem_cons.mp hmem with heq | hmem
  · rw [heq] at hel ⊢
    exact ⟨(hnone neg hneg).symm, (hnone pos hpos).symm, hel⟩
  · obtain ⟨t, -, ht⟩ := List.mem_map.mp ((dropIntermediate_sublist _).subset hmem)
    rw [← ht] at hel ⊢
    exact ⟨rfl, rfl, hel⟩

variable [ScikitLearn]

/-- From a curve, what is found at the last eligible index is returned. -/
theorem tprAtFpr_of_rocCurve {roc : RocCurve} {tpr : ℝ} {thr : EReal}
    (hroc : ScikitLearn.rocCurve (labelsAndAnomalyScores normal attack).1
      (labelsAndAnomalyScores normal attack).2 = .ok roc)
    (htpr : roc.tpr[((List.range roc.fpr.length).filter fun i =>
      decide (roc.fpr.getD i 0 ≤ targetFpr)).getLastD 0]? = some tpr)
    (hthr : roc.thresholds[((List.range roc.fpr.length).filter fun i =>
      decide (roc.fpr.getD i 0 ≤ targetFpr)).getLastD 0]? = some thr) :
    tprAtFpr normal attack targetFpr = .ok (tpr, thr) := by
  rw [tprAtFpr]
  show (ScikitLearn.rocCurve (labelsAndAnomalyScores normal attack).1
    (labelsAndAnomalyScores normal attack).2 >>= _) = _
  rw [hroc]
  dsimp only [bind, Except.bind]
  rw [htpr, hthr]
  rfl

/-- **What `tpr_at_fpr` returns** are the rate and the threshold of the point found. -/
theorem tprAtFpr_eq (hlib : ScikitLearn.Documented) (hn : normal ≠ []) (ha : attack ≠ [])
    (hreal : ∀ s ∈ normal ++ attack, s ≠ ⊥ ∧ s ≠ ⊤) (h : 0 ≤ targetFpr) :
    tprAtFpr normal attack targetFpr =
      .ok ((foundPoint (anomalies normal) (anomalies attack) targetFpr).tps /
          (anomalies attack).length,
        (foundPoint (anomalies normal) (anomalies attack) targetFpr).threshold) := by
  -- at each index the mask tells whether the point there is eligible
  have hmask : ∀ i b, (keptPoints (anomalies normal) (anomalies attack))[i]? = some b →
      decide ((RocCurve.ofSamples (anomalies normal) (anomalies attack)).fpr.getD i 0 ≤
        targetFpr) = eligible (anomalies normal).length targetFpr b.fps := by
    intro i b hb
    have hget : (RocCurve.ofSamples (anomalies normal) (anomalies attack)).fpr[i]? =
        some ((b.fps : ℝ) / (anomalies normal).length) := by
      rw [RocCurve.ofSamples, List.getElem?_map, hb]
      rfl
    show decide (_ ≤ targetFpr) = decide (_ ≤ targetFpr)
    rw [List.getD_eq_getElem?_getD, hget]
    rfl
  have hpair : (keptPoints (anomalies normal) (anomalies attack)).Pairwise fun b c =>
      eligible (anomalies normal).length targetFpr c.fps = true →
        eligible (anomalies normal).length targetFpr b.fps = true :=
    (counting_keptPoints _ _).imp fun hab => eligible_anti _ _ _ _ hab.1
  have hindex := getElem?_last_index _
    (q := fun a => eligible (anomalies normal).length targetFpr a.fps) hpair (eligible_zero h) hmask
  have hlen : (RocCurve.ofSamples (anomalies normal) (anomalies attack)).fpr.length =
      (originPoint ::
        dropIntermediate (binaryCurve (anomalies normal) (anomalies attack))).length :=
    List.length_map _
  rw [← hlen] at hindex
  have hmap : ∀ {β : Type} (g : RocPoint EReal → β), (List.map g _)[_]? = some (g _) := fun g =>
    (List.getElem?_map).trans (congrArg (Option.map g) hindex)
  exact tprAtFpr_of_rocCurve (rocCurve_labels hlib hn ha hreal)
    (hmap fun a => (a.tps : ℝ) / (anomalies attack).length) (hmap RocPoint.threshold)

end

/-! ### Real scores -/

section

variable {normal attack : List ℝ} {targetFpr : ℝ}

/-- The anomaly scores of both classes are those of the scores of both. -/
theorem mem_anomalies_append {t : EReal} :
    t ∈ anomalies (realScores normal) ++ anomalies (realScores attack) ↔
      ∃ x ∈ normal ++ attack, anomaly x = t := by
  rw [anomalies_realScores, anomalies_realScores, ← List.map_append, List.mem_map]

theorem mem_anomalies {scores : List ℝ} {x : ℝ} :
    anomaly x ∈ anomalies (realScores scores) ↔ x ∈ scores := by
  rw [anomalies_realScores]
  exact List.mem_map_of_injective strictAnti_anomaly.injective

theorem count_anomalies (scores : List ℝ) (x : ℝ) :
    (anomalies (realScores scores)).count (anomaly x) = scores.count x := by
  rw [anomalies_realScores]
  exact List.count_map_of_injective scores _ strictAnti_anomaly.injective x

/-- Neighbouring anomaly scores are those of neighbouring scores, the other way round. -/
theorem adjacent_anomalies_iff {x x' : ℝ} :
    Adjacent (anomalies (realScores normal) ++ anomalies (realScores attack))
      (anomaly x) (anomaly x') ↔ Adjacent (normal ++ attack) x' x := by
  rw [anomalies_realScores, anomalies_realScores, ← List.map_append]
  exact adjacent_map_iff strictAnti_anomaly

/-- The normal scores that a threshold catches are those not above it. -/
theorem eligible_atLeast_anomaly (normal : List ℝ) (targetFpr x : ℝ) :
    eligible (anomalies (realScores normal)).length targetFpr
      (atLeast (anomaly x) (anomalies (realScores normal))) =
        decide (((normal.countP fun s => decide (s ≤ x) : ℕ) : ℝ) / normal.length ≤ targetFpr) := by
  rw [eligible, anomalies_realScores, atLeast_map strictAnti_anomaly, List.length_map]

/-- **The points that are skipped**, told from the scores. -/
theorem skips_iff_skipped :
    Skips (fun a => eligible (anomalies (realScores normal)).length targetFpr a.fps)
        (binaryCurve (anomalies (realScores normal)) (anomalies (realScores attack))) ↔
      Skipped normal attack targetFpr := by
  have hanti := strictAnti_anomaly
  rw [skips_binaryCurve_iff]
  constructor
  · rintro ⟨t, t', htt', ⟨v, hv, hlt⟩, hneg, hatt, hta, hb, hc⟩
    obtain ⟨x, -, rfl⟩ := mem_anomalies_append.mp htt'.1
    obtain ⟨x', -, rfl⟩ := mem_anomalies_append.mp htt'.2.1
    obtain ⟨y, hy, rfl⟩ := mem_anomalies_append.mp hv
    rw [eligible_atLeast_anomaly, decide_eq_true_iff] at hb
    rw [eligible_atLeast_anomaly, decide_eq_false_iff_not, not_le] at hc
    rw [count_anomalies, count_anomalies] at hneg hatt
    exact ⟨x, x', adjacent_anomalies_iff.mp htt', ⟨y, hy, hanti.lt_iff_gt.mp hlt⟩, hneg, hatt,
      mem_anomalies.mp hta, hb, hc⟩
  · rintro ⟨x, x', hxx', ⟨y, hy, hlt⟩, hneg, hatt, hxa, hb, hc⟩
    refine ⟨anomaly x, anomaly x', adjacent_anomalies_iff.mpr hxx',
      ⟨_, mem_anomalies_append.mpr ⟨y, hy, rfl⟩, hanti hlt⟩, ?_, ?_, mem_anomalies.mpr hxa, ?_, ?_⟩
    · rw [count_anomalies, count_anomalies]
      exact hneg
    · rw [count_anomalies, count_anomalies]
      exact hatt
    · rw [eligible_atLeast_anomaly]
      exact decide_eq_true hb
    · rw [eligible_atLeast_anomaly]
      exact decide_eq_false (not_le.mpr hc)

theorem tprAtFpr_realScores [ScikitLearn] (hlib : ScikitLearn.Documented) (hn : normal ≠ [])
    (ha : attack ≠ []) (h : 0 ≤ targetFpr) :
    tprAtFpr (realScores normal) (realScores attack) targetFpr =
      .ok ((foundPoint (anomalies (realScores normal)) (anomalies (realScores attack))
          targetFpr).tps / (anomalies (realScores attack)).length,
        (foundPoint (anomalies (realScores normal)) (anomalies (realScores attack))
          targetFpr).threshold) := by
  exact tprAtFpr_eq hlib (List.map_eq_nil_iff.not.mpr hn) (List.map_eq_nil_iff.not.mpr ha)
    (realScores_append_real normal attack) h

/-- What is found is best exactly if no point is skipped. -/
theorem isBest_found_iff (ha : attack ≠ []) (h : 0 ≤ targetFpr) :
    IsBest (realScores normal) (realScores attack) targetFpr
        ((foundPoint (anomalies (realScores normal)) (anomalies (realScores attack))
          targetFpr).tps / (anomalies (realScores attack)).length,
        (foundPoint (anomalies (realScores normal)) (anomalies (realScores attack))
          targetFpr).threshold) ↔
      ¬ Skipped normal attack targetFpr := by
  have htop : ∀ xs : List ℝ, ∀ s ∈ anomalies (realScores xs), s ≠ ⊤ := by
    intro xs s hs
    obtain ⟨s', hs', rfl⟩ := List.mem_map.mp hs
    exact fun heq => (realScores_real xs s' hs').1 (EReal.neg_eq_top_iff.mp heq)
  obtain ⟨hfps, htps, hel⟩ := foundPoint_spec h (htop normal) (htop attack)
  have hlen : (0 : ℝ) < (anomalies (realScores attack)).length := by
    have hpos := List.length_pos_of_ne_nil ha
    rw [anomalies_realScores, List.length_map]
    exact_mod_cast hpos
  rw [← skips_iff_skipped, ← best_iff (eligible_anti _ _) (eligible_zero h) ⊤]
  constructor
  · intro hbest t ht
    have hle := hbest.best t (by
      rw [caught_eq]
      exact of_decide_eq_true ht)
    rw [caught_eq, div_le_div_iff_of_pos_right hlen] at hle
    exact_mod_cast hle
  · intro hbest
    refine ⟨?_, ?_, fun t ht => ?_⟩
    · rw [caught_eq, ← htps]
    · rw [caught_eq, ← hfps]
      exact of_decide_eq_true hel
    · rw [caught_eq] at ht
      rw [caught_eq, div_le_div_iff_of_pos_right hlen]
      exact_mod_cast hbest t (decide_eq_true ht)

/-- **The reported operating point** is the best one exactly if no point is skipped. -/
theorem isBest_tprAtFpr_iff [ScikitLearn] (hlib : ScikitLearn.Documented) (hn : normal ≠ [])
    (ha : attack ≠ []) (h : 0 ≤ targetFpr ∧ targetFpr ≤ 1) :
    (∃ point, tprAtFpr (realScores normal) (realScores attack) targetFpr = .ok point ∧
        IsBest (realScores normal) (realScores attack) targetFpr point) ↔
      ¬ Skipped normal attack targetFpr := by
  rw [← isBest_found_iff ha h.1, tprAtFpr_realScores hlib hn ha h.1]
  constructor
  · rintro ⟨point, hpoint, hbest⟩
    rw [Except.ok.inj hpoint]
    exact hbest
  · exact fun hbest => ⟨_, rfl, hbest⟩

/-- Ties within both classes, and between them: the score that they share occurs once in each,
and no other score does. -/
theorem isBest_tprAtFpr_ties :
    let _ : ScikitLearn := .exact
    ∃ point, tprAtFpr (realScores [2, 3, 3]) (realScores [1, 1, 2]) (1 / 2) = .ok point ∧
      IsBest (realScores [2, 3, 3]) (realScores [1, 1, 2]) (1 / 2) point := by
  intro _
  refine (isBest_tprAtFpr_iff ScikitLearn.documented_exact (List.cons_ne_nil _ _)
    (List.cons_ne_nil _ _) ⟨by norm_num, by norm_num⟩).mpr ?_
  rintro ⟨x, x', hadj, ⟨y, hy, hlt⟩, hcount, -, hx, -⟩
  obtain ⟨hx', -, hlt', -⟩ := hadj
  simp only [List.cons_append, List.nil_append, List.mem_cons, List.not_mem_nil, or_false]
    at hx hx' hy
  have hone : (1 : ℝ) ≤ y := by rcases hy with rfl | rfl | rfl | rfl | rfl | rfl <;> norm_num
  rcases hx with rfl | rfl | rfl
  · exact absurd hlt (not_lt.mpr hone)
  · exact absurd hlt (not_lt.mpr hone)
  · -- a score above the one that is shared is 3, which occurs twice in the one class
    have hthree : x' = 3 := by
      rcases hx' with rfl | rfl | rfl | rfl | rfl | rfl
      · exact absurd hlt' (lt_irrefl _)
      · rfl
      · rfl
      · norm_num at hlt'
      · norm_num at hlt'
      · exact absurd hlt' (lt_irrefl _)
    rw [hthree] at hcount
    norm_num [List.count_cons] at hcount

/-- **Both classes score alike**, and the target lies above the second of three scores: the
point of the second score is left out of the curve. -/
theorem not_isBest_tprAtFpr_alike :
    let _ : ScikitLearn := .exact
    ¬ ∃ point, tprAtFpr (realScores [1, 2, 3]) (realScores [1, 2, 3]) (7 / 10) = .ok point ∧
      IsBest (realScores [1, 2, 3]) (realScores [1, 2, 3]) (7 / 10) point := by
  intro _
  rintro ⟨point, hpoint, hbest⟩
  have h : (0 : ℝ) ≤ 7 / 10 := by norm_num
  have hne : ([1, 2, 3] : List ℝ) ≠ [] := List.cons_ne_nil _ _
  rw [tprAtFpr_realScores ScikitLearn.documented_exact hne hne h] at hpoint
  rw [← Except.ok.inj hpoint] at hbest
  refine (isBest_found_iff hne h).mp hbest
    ⟨2, 3, ⟨?_, ?_, ?_, ?_⟩, ⟨1, ?_, ?_⟩, ?_, ?_, ?_, ?_, ?_⟩
  · simp
  · simp
  · norm_num
  · intro v hv
    simp at hv
    rcases hv with rfl | rfl | rfl | rfl | rfl | rfl <;> norm_num
  · simp
  · norm_num
  · norm_num [List.count_cons]
  · norm_num [List.count_cons]
  · simp
  · norm_num [List.countP_cons]
  · norm_num [List.countP_cons]

end

end Waf
