import LfWaap.Hmm.Curves

/-!
# The area below a false-positive rate

`partial_auc` cuts the curve at a false-positive rate: it keeps the points up to the rate,
adds the point on the curve there, and divides the trapezoids by the rate. This is the mean
height of the curve up to the rate (`Waf.partialAuc_eq`), wherever the cut is: on a point, on a
vertical step, or between two points. The points that scikit-learn leaves out lie on the curve
through the others, and so the mean is the one of the full curve.
-/

namespace Waf

open Python Stats

/-! ### Cutting a curve -/

section

variable {a b : ℝ × ℝ} {pts : List (ℝ × ℝ)} {x : ℝ}

/-- The points up to an abscissa are those in front of the first one beyond it. -/
theorem take_searchsortedRight (pts : List (ℝ × ℝ)) (x : ℝ) :
    pts.take (searchsortedRight (pts.map Prod.fst) x) =
      pts.takeWhile fun p => decide (p.1 ≤ x) := by
  rw [List.takeWhile_eq_take_findIdx_not, searchsortedRight, List.findIdx_map]
  congr 2
  funext p
  show decide (x < p.1) = !decide (p.1 ≤ x)
  rw [← decide_not]
  exact decide_eq_decide.mpr not_le.symm

/-- The search goes past a point that is not beyond the abscissa. -/
theorem searchsortedRight_cons {v : ℝ} (h : v ≤ x) (vs : List ℝ) :
    searchsortedRight (v :: vs) x = searchsortedRight vs x + 1 := by
  rw [searchsortedRight, List.findIdx_cons, decide_eq_false (not_lt.mpr h)]
  rfl

theorem searchsortedRight_cons_of_lt {v : ℝ} (h : x < v) (vs : List ℝ) :
    searchsortedRight (v :: vs) x = 0 := by
  rw [searchsortedRight, List.findIdx_cons, decide_eq_true h]
  rfl

/-- Between the first two points, a line is followed. -/
theorem interp_of_lt (hx : a.1 ≤ x) (hlt : x < b.1) (vs ws : List ℝ) :
    interp x (a.1 :: b.1 :: vs) (a.2 :: b.2 :: ws) = line a b x := by
  have hone : searchsortedRight (a.1 :: b.1 :: vs) x = 1 := by
    rw [searchsortedRight_cons hx, searchsortedRight_cons_of_lt hlt]
  have hne : 1 ≠ (a.1 :: b.1 :: vs).length := by simp
  rw [interp, hone]
  show (if 1 = 0 then _ else if 1 = _ then _ else _) = _
  rw [if_neg Nat.one_ne_zero, if_neg hne]
  rfl

/-- Beyond the second point, the first one does not matter. -/
theorem interp_of_le (hx : a.1 ≤ x) (hle : b.1 ≤ x) (vs ws : List ℝ) :
    interp x (a.1 :: b.1 :: vs) (a.2 :: b.2 :: ws) = interp x (b.1 :: vs) (b.2 :: ws) := by
  have hlen : ∀ k, (k + 1 + 1 = (a.1 :: b.1 :: vs).length) = (k + 1 = (b.1 :: vs).length) := by
    intro k
    simp
  rw [interp, interp, searchsortedRight_cons hx, searchsortedRight_cons hle]
  show (if _ = 0 then _ else if _ + 1 + 1 = _ then _ else _) =
    if _ = 0 then _ else if _ + 1 = _ then _ else _
  rw [if_neg (Nat.succ_ne_zero _), if_neg (Nat.succ_ne_zero _)]
  simp only [hlen]
  rfl

/-- **Interpolation** is the polyline through the points. -/
theorem interp_eq_polyline (hx : a.1 ≤ x) :
    interp x ((a :: pts).map Prod.fst) ((a :: pts).map Prod.snd) = polyline (a :: pts) x := by
  induction pts generalizing a with
  | nil =>
    rw [interp, List.map_singleton, searchsortedRight_cons hx]
    rfl
  | cons b pts ih =>
    rcases lt_or_ge x b.1 with hlt | hle
    · rw [polyline_of_lt hlt]
      exact interp_of_lt hx hlt _ _
    · rw [polyline_of_le hle, ← ih hle]
      exact interp_of_le hx hle _ _

end

/-! ### The points that scikit-learn returns -/

/-- The points of the returned curve in the unit square. -/
noncomputable def returnedPoints (neg pos : List EReal) : List (ℝ × ℝ) :=
  (keptPoints neg pos).map (RocPoint.scaled neg.length pos.length)

section

variable {neg pos : List EReal}

/-- They start at the origin. -/
theorem returnedPoints_eq (neg pos : List EReal) :
    returnedPoints neg pos = (0, 0) ::
      (dropIntermediate (binaryCurve neg pos)).map (RocPoint.scaled neg.length pos.length) := by
  rw [returnedPoints, keptPoints, List.map_cons]
  congr 1
  show (((0 : ℕ) : ℝ) / _, ((0 : ℕ) : ℝ) / _) = ((0, 0) : ℝ × ℝ)
  rw [Nat.cast_zero, zero_div, zero_div]

theorem rising_returnedPoints (neg pos : List EReal) : Rising (returnedPoints neg pos) :=
  (counting_keptPoints neg pos).rising _ _

/-- **The curve through them** is that of all points. -/
theorem polyline_returnedPoints (neg pos : List EReal) :
    polyline (returnedPoints neg pos) = polyline (curvePoints neg pos) := by
  funext x
  rw [returnedPoints_eq, curvePoints]
  exact polyline_dropIntermediate (counting_rocPoints neg pos (pairwise_distinctScores neg pos))

theorem getLast?_returnedPoints (hneg : neg ≠ []) (hpos : pos ≠ []) :
    (returnedPoints neg pos).getLast? = some (1, 1) := by
  rw [← getLast?_curvePoints hneg hpos, returnedPoints_eq, curvePoints, List.getLast?_cons,
    List.getLast?_cons, List.getLast?_map, List.getLast?_map, getLast?_dropIntermediate]

/-- The areas of the two curves are the same. -/
theorem area_returnedPoints (hneg : neg ≠ []) (hpos : pos ≠ []) :
    area (returnedPoints neg pos) = area (curvePoints neg pos) := by
  have hreturned : area (returnedPoints neg pos) =
      ∫ t in 0..1, polyline (returnedPoints neg pos) t := by
    have hlast := getLast?_returnedPoints hneg hpos
    have hrise := rising_returnedPoints neg pos
    rw [returnedPoints_eq] at hlast hrise ⊢
    exact area_eq_integral hrise hlast
  have hfull : area (curvePoints neg pos) = ∫ t in 0..1, polyline (curvePoints neg pos) t :=
    area_eq_integral (rising_curvePoints neg pos) (getLast?_curvePoints hneg hpos)
  rw [hreturned, hfull, polyline_returnedPoints]

end

/-! ### The mean height of a curve -/

/-- The mean height of the full curve up to a false-positive rate. -/
noncomputable def meanHeight (neg pos : List EReal) (f : ℝ) : ℝ :=
  1 / f * ∫ x in 0..f, polyline (curvePoints neg pos) x

section

variable {neg pos normal attack : List EReal} {f f' : ℝ}

theorem intervalIntegrable_curve (neg pos : List EReal) (h : 0 ≤ f) :
    IntervalIntegrable (polyline (curvePoints neg pos)) MeasureTheory.volume 0 f :=
  (area_cutAt (rising_curvePoints neg pos) h).1

theorem curve_mem_unit (neg pos : List EReal) {x : ℝ} (h : 0 ≤ x) :
    0 ≤ polyline (curvePoints neg pos) x ∧ polyline (curvePoints neg pos) x ≤ 1 :=
  ⟨le_polyline (rising_curvePoints neg pos) h,
    polyline_le (rising_curvePoints neg pos) h fun _ hp => (curvePoints_le_one hp).2⟩

/-- **The mean height is a fraction.** -/
theorem meanHeight_mem_unit (neg pos : List EReal) (h : 0 < f) :
    0 ≤ meanHeight neg pos f ∧ meanHeight neg pos f ≤ 1 :=
  mean_mem h (fun _ hx => curve_mem_unit neg pos hx) (intervalIntegrable_curve neg pos h.le)

/-- **The mean height rises** with the rate, as the curve does. -/
theorem meanHeight_mono (neg pos : List EReal) (h : 0 < f) (hff : f ≤ f') :
    meanHeight neg pos f ≤ meanHeight neg pos f' :=
  mean_mono h hff (fun _ _ hx hxy => polyline_mono (rising_curvePoints neg pos) hx hxy) fun _ hx =>
    intervalIntegrable_curve neg pos hx

/-- **A perfect ranking** has height one everywhere. -/
theorem meanHeight_of_separated (h : 0 < f) (hpos : pos ≠ [])
    (hsep : ∀ v ∈ neg, ∀ w ∈ pos, v < w) : meanHeight neg pos f = 1 := by
  have hone : ∀ x, 0 ≤ x → 1 ≤ polyline (curvePoints neg pos) x := fun x hx =>
    le_polyline_of_mem (rising_curvePoints neg pos) (mem_curvePoints_of_separated hpos hsep) hx
  have hmean := mean_mem (c := 1) (d := 1) h
    (fun x hx => ⟨hone x hx, (curve_mem_unit neg pos hx).2⟩) (intervalIntegrable_curve neg pos h.le)
  exact le_antisymm hmean.2 hmean.1

/-- **The mean height of the whole curve** is the statistic of the pairs. -/
theorem meanHeight_one (hneg : neg ≠ []) (hpos : pos ≠ []) :
    meanHeight neg pos 1 = pairStatistic neg pos := by
  rw [← area_curvePoints, meanHeight, div_one, one_mul]
  exact (area_eq_integral (rising_curvePoints neg pos) (getLast?_curvePoints hneg hpos)).symm

/-- The area of the cut curve, in parts of the rate, is the mean height. -/
theorem area_cut_returnedPoints (neg pos : List EReal) (h : 0 < f) :
    area (cutAt (returnedPoints neg pos) f) / f = meanHeight neg pos f := by
  have hcut := area_cutAt (returnedPoints_eq neg pos ▸ rising_returnedPoints neg pos) h.le
  rw [← returnedPoints_eq] at hcut
  rw [meanHeight, ← polyline_returnedPoints, hcut.2, div_eq_inv_mul, one_div]

/-- The curve has its first point and its last one. -/
theorem two_le_length_returnedPoints (hneg : neg ≠ []) (hpos : pos ≠ []) :
    2 ≤ (returnedPoints neg pos).length := by
  have hlast := getLast?_returnedPoints hneg hpos
  rw [returnedPoints_eq] at hlast ⊢
  rcases hrest : (dropIntermediate (binaryCurve neg pos)).map _ with _ | ⟨b, rest⟩
  · rw [hrest] at hlast
    simp at hlast
  · simp

variable [ScikitLearn]

/-- The library adds up the trapezoids of points. -/
theorem auc_points (hlib : ScikitLearn.Documented) {pts : List (ℝ × ℝ)}
    (h : (pts.map Prod.fst).Pairwise (· ≤ ·)) (hlen : 2 ≤ pts.length) :
    ScikitLearn.auc (pts.map Prod.fst) (pts.map Prod.snd) = .ok (area pts) := by
  have hzip : (pts.map Prod.fst).zip (pts.map Prod.snd) = pts := by
    rw [List.zip_map']
    exact List.map_id pts
  rw [hlib.auc _ _ (by simp) (by simpa using hlen) h, hzip]

/-- **The points that are added up**, those up to the rate and one on the curve, are the curve
cut there. -/
theorem auc_take_interp (hlib : ScikitLearn.Documented) {pts : List (ℝ × ℝ)}
    (hrise : Rising pts) {rest : List (ℝ × ℝ)} (hcons : pts = (0, 0) :: rest) (h : 0 ≤ f) :
    ScikitLearn.auc
        ((pts.map Prod.fst).take (searchsortedRight (pts.map Prod.fst) f) ++ [f])
        ((pts.map Prod.snd).take (searchsortedRight (pts.map Prod.fst) f) ++
          [interp f (pts.map Prod.fst) (pts.map Prod.snd)]) = .ok (area (cutAt pts f)) := by
  set k := searchsortedRight (pts.map Prod.fst) f with hk
  set v := interp f (pts.map Prod.fst) (pts.map Prod.snd) with hv
  have hcut : pts.take k ++ [(f, v)] = cutAt pts f := by
    rw [hk, hv, take_searchsortedRight, hcons, interp_eq_polyline h]
    rfl
  have hx : (pts.map Prod.fst).take k ++ [f] = (cutAt pts f).map Prod.fst := by
    rw [← hcut, List.map_append, List.map_take]
    rfl
  have hy : (pts.map Prod.snd).take k ++ [v] = (cutAt pts f).map Prod.snd := by
    rw [← hcut, List.map_append, List.map_take]
    rfl
  have hlen : 2 ≤ (cutAt pts f).length := by
    rw [cutAt, hcons, List.takeWhile_cons, if_pos (decide_eq_true h)]
    simp
  rw [hx, hy, auc_points hlib (pairwise_cutAt hrise) hlen]

/-- **What `partial_auc` returns** is the mean height of the full curve. -/
theorem partialAuc_eq (hlib : ScikitLearn.Documented) (hn : normal ≠ []) (ha : attack ≠ [])
    (hreal : ∀ s ∈ normal ++ attack, s ≠ ⊥ ∧ s ≠ ⊤) (h : 0 < f ∧ f ≤ 1) :
    partialAuc normal attack f = .ok (meanHeight (anomalies normal) (anomalies attack) f) := by
  have hneg : anomalies normal ≠ [] := List.map_eq_nil_iff.not.mpr hn
  have hpos : anomalies attack ≠ [] := List.map_eq_nil_iff.not.mpr ha
  set pts := returnedPoints (anomalies normal) (anomalies attack) with hpts
  have hrise : Rising pts := rising_returnedPoints _ _
  have hfpr : (RocCurve.ofSamples (anomalies normal) (anomalies attack)).fpr =
      pts.map Prod.fst := by
    rw [hpts, returnedPoints, List.map_map]
    rfl
  have htpr : (RocCurve.ofSamples (anomalies normal) (anomalies attack)).tpr =
      pts.map Prod.snd := by
    rw [hpts, returnedPoints, List.map_map]
    rfl
  rw [partialAuc, if_pos h]
  show (ScikitLearn.rocCurve (labelsAndAnomalyScores normal attack).1
    (labelsAndAnomalyScores normal attack).2 >>= _) = _
  rw [rocCurve_labels hlib hn ha hreal]
  dsimp only [bind, Except.bind]
  rw [hfpr, htpr]
  split_ifs with hone
  · obtain rfl : f = 1 := le_antisymm h.2 hone
    have hlen : 2 ≤ pts.length := two_le_length_returnedPoints hneg hpos
    rw [auc_points hlib (List.pairwise_map.mpr (hrise.imp fun hab => hab.1)) hlen, hpts,
      area_returnedPoints hneg hpos, area_curvePoints, meanHeight_one hneg hpos]
  · rw [auc_take_interp hlib hrise (returnedPoints_eq _ _) h.1.le]
    show Except.ok (area (cutAt pts f) / f) = _
    rw [hpts, area_cut_returnedPoints _ _ h.1]

end

/-! ### Real scores -/

/-- **The fraction of the pairs** of a normal score and one of an attack that are ranked
correctly, where ties count one half. -/
noncomputable def rankedCorrectly (normal attack : List ℝ) : ℚ :=
  (normal.map fun s =>
    (attack.map fun w => if w < s then (1 : ℚ) else if w = s then 1 / 2 else 0).sum).sum /
      (normal.length * attack.length)

section

variable {normal attack : List ℝ}

/-- A score of an attack is below a normal one exactly if its anomaly score is above. -/
theorem pairStatistic_anomalies (normal attack : List ℝ) :
    pairStatistic (anomalies (realScores normal)) (anomalies (realScores attack)) =
      rankedCorrectly normal attack := by
  have hpair : ∀ s w : ℝ,
      (if anomaly s < anomaly w then (1 : ℚ) else if anomaly s = anomaly w then 1 / 2 else 0) =
        if w < s then 1 else if w = s then 1 / 2 else 0 := by
    intro s w
    simp only [strictAnti_anomaly.lt_iff_gt, strictAnti_anomaly.injective.eq_iff, eq_comm]
  rw [pairStatistic, rankedCorrectly, anomalies_realScores, anomalies_realScores, List.map_map,
    List.length_map, List.length_map]
  congr 2
  refine List.map_congr_left fun s _ => ?_
  show ((attack.map anomaly).map _).sum = _
  rw [List.map_map]
  exact congrArg List.sum (List.map_congr_left fun w _ => hpair s w)

/-- **The partial area is exact**: it is the mean height of the full curve up to the rate, a
fraction that rises with the rate, one for a perfect ranking, and the statistic of the pairs
at rate one. -/
theorem partialAuc_exact [ScikitLearn] (hlib : ScikitLearn.Documented) (hn : normal ≠ [])
    (ha : attack ≠ []) :
    let height := meanHeight (anomalies (realScores normal)) (anomalies (realScores attack))
    (∀ f, 0 < f → f ≤ 1 →
        partialAuc (realScores normal) (realScores attack) f = .ok (height f)) ∧
      (∀ f, 0 < f → f ≤ 1 → 0 ≤ height f ∧ height f ≤ 1) ∧
      (∀ f f', 0 < f → f ≤ f' → f' ≤ 1 → height f ≤ height f') ∧
      ((∀ s ∈ normal, ∀ w ∈ attack, w < s) → ∀ f, 0 < f → f ≤ 1 → height f = 1) ∧
      height 1 = rankedCorrectly normal attack := by
  intro height
  have hn' : realScores normal ≠ [] := List.map_eq_nil_iff.not.mpr hn
  have ha' : realScores attack ≠ [] := List.map_eq_nil_iff.not.mpr ha
  refine ⟨fun f h0 h1 => ?_, fun f h0 _ => meanHeight_mem_unit _ _ h0,
    fun f f' h0 hff _ => meanHeight_mono _ _ h0 hff, fun hsep f h0 _ => ?_, ?_⟩
  · exact partialAuc_eq hlib hn' ha' (realScores_append_real normal attack) ⟨h0, h1⟩
  · refine meanHeight_of_separated h0 (List.map_eq_nil_iff.not.mpr ha') ?_
    rw [anomalies_realScores, anomalies_realScores]
    rw [List.forall_mem_map]
    intro s hs
    rw [List.forall_mem_map]
    exact fun w hw => strictAnti_anomaly (hsep s hs w hw)
  · rw [← pairStatistic_anomalies]
    exact meanHeight_one (List.map_eq_nil_iff.not.mpr hn') (List.map_eq_nil_iff.not.mpr ha')

/-- Attacks that score lower than normal traffic have the full area up to every rate; of nine
pairs, one of which is tied, half a pair is missing. -/
theorem partialAuc_exact_ties :
    let _ : ScikitLearn := .exact
    partialAuc (realScores [3, 3, 5]) (realScores [1, 1, 2]) (1 / 2) = .ok 1 ∧
      partialAuc (realScores [2, 3, 3]) (realScores [1, 1, 2]) 1 = .ok (17 / 18) := by
  intro _
  have hn : ([3, 3, 5] : List ℝ) ≠ [] := List.cons_ne_nil _ _
  have hn' : ([2, 3, 3] : List ℝ) ≠ [] := List.cons_ne_nil _ _
  have ha : ([1, 1, 2] : List ℝ) ≠ [] := List.cons_ne_nil _ _
  constructor
  · obtain ⟨heq, -, -, hsep, -⟩ := partialAuc_exact ScikitLearn.documented_exact hn ha
    have hhalf : (0 : ℝ) < 1 / 2 ∧ (1 / 2 : ℝ) ≤ 1 := by norm_num
    rw [heq _ hhalf.1 hhalf.2, hsep ?_ _ hhalf.1 hhalf.2]
    intro s hs w hw
    simp only [List.mem_cons, List.not_mem_nil, or_false] at hs hw
    rcases hs with rfl | rfl | rfl <;> rcases hw with rfl | rfl | rfl <;> norm_num
  · obtain ⟨heq, -, -, -, hpairs⟩ := partialAuc_exact ScikitLearn.documented_exact hn' ha
    rw [heq 1 one_pos le_rfl, hpairs]
    norm_num [rankedCorrectly]

end

end Waf
