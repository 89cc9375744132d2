import LfWaap.Hmm.Evaluation
import LfWaap.Stats.RocSearch

/-!
# The curves of scikit-learn

What the functions of `Waf.ScikitLearn` are documented to return for two classes of real
scores: `roc_curve` counts the scores of each class from every distinct score on, leaves out
intermediate points, and puts a point in front that no score reaches; `auc` adds up trapezoids;
`roc_auc_score` is the area under the curve, and `average_precision_score` the mean of the
precisions, weighted with the steps of the recall (`Waf.ScikitLearn.Documented`).

None of the three that look at labels depends on the order in which the labelled scores are
given (`Waf.ScikitLearn.Symmetric`), and they refuse scores that are not finite
(`Waf.ScikitLearn.Finite`).

For the labels and scores that the program passes, the two classes are the normal and the attack
scores with their signs changed (`Waf.rocCurve_labels`).
-/

namespace Waf

open Python Stats

/-- The scores of one label. -/
def scoresOf (label : Bool) (yTrue : List Bool) (yScore : List EReal) : List EReal :=
  ((yTrue.zip yScore).filter fun e => e.1 == label).map Prod.snd

/-- The point in front of a curve, which no score reaches. -/
noncomputable def originPoint : RocPoint EReal := ⟨⊤, 0, 0⟩

/-- The points of a curve, as they are returned. -/
noncomputable def keptPoints (neg pos : List EReal) : List (RocPoint EReal) :=
  originPoint :: dropIntermediate (binaryCurve neg pos)

/-- **The curve** of two samples of scores. -/
noncomputable def RocCurve.ofSamples (neg pos : List EReal) : RocCurve where
  fpr := (keptPoints neg pos).map fun a => a.fps / neg.length
  tpr := (keptPoints neg pos).map fun a => a.tps / pos.length
  thresholds := (keptPoints neg pos).map RocPoint.threshold

/-- The precisions at the points of a curve, weighted with the steps of the recall. -/
noncomputable def weightedPrecisions (positives : ℕ) (tps : ℕ) : List (RocPoint EReal) → ℝ
  | [] => 0
  | a :: pts =>
    ((a.tps : ℝ) - tps) / positives * (a.tps / (a.tps + a.fps : ℕ)) +
      weightedPrecisions positives a.tps pts

/-- **What scikit-learn documents**, for real scores of two classes. -/
structure ScikitLearn.Documented [ScikitLearn] : Prop where
  rocCurve : ∀ (yTrue : List Bool) (yScore : List EReal), yTrue.length = yScore.length →
    false ∈ yTrue → true ∈ yTrue → (∀ s ∈ yScore, s ≠ ⊥ ∧ s ≠ ⊤) →
    ScikitLearn.rocCurve yTrue yScore =
      .ok (.ofSamples (scoresOf false yTrue yScore) (scoresOf true yTrue yScore))
  auc : ∀ x y : List ℝ, x.length = y.length → 2 ≤ x.length → x.Pairwise (· ≤ ·) →
    ScikitLearn.auc x y = .ok (area (x.zip y))
  rocAucScore : ∀ (yTrue : List Bool) (yScore : List EReal), yTrue.length = yScore.length →
    false ∈ yTrue → true ∈ yTrue → (∀ s ∈ yScore, s ≠ ⊥ ∧ s ≠ ⊤) →
    ScikitLearn.rocAucScore yTrue yScore =
      .ok (area (curvePoints (scoresOf false yTrue yScore) (scoresOf true yTrue yScore)))
  averagePrecisionScore : ∀ (yTrue : List Bool) (yScore : List EReal),
    yTrue.length = yScore.length → true ∈ yTrue → (∀ s ∈ yScore, s ≠ ⊥ ∧ s ≠ ⊤) →
    ScikitLearn.averagePrecisionScore yTrue yScore =
      .ok (weightedPrecisions (scoresOf true yTrue yScore).length 0
        (binaryCurve (scoresOf false yTrue yScore) (scoresOf true yTrue yScore)))

/-- **Scores that are not finite are refused.** -/
def ScikitLearn.Finite [ScikitLearn] : Prop :=
  ∀ yTrue yScore curve, ScikitLearn.rocCurve yTrue yScore = .ok curve →
    ∀ s ∈ yScore, s ≠ ⊥ ∧ s ≠ ⊤

/-- What is computed from scores, once they have been checked to be finite. -/
noncomputable def ofFinite {α : Type} (yScore : List EReal) (value : α) : Except PyError α :=
  if ∀ s ∈ yScore, s ≠ ⊥ ∧ s ≠ ⊤ then .ok value
  else .error (.valueError "Input contains infinity or a value too large for dtype('float64').")

/-- The functions as they are documented. -/
@[reducible] noncomputable def ScikitLearn.exact : ScikitLearn where
  rocCurve := fun yTrue yScore =>
    ofFinite yScore (.ofSamples (scoresOf false yTrue yScore) (scoresOf true yTrue yScore))
  auc := fun x y => .ok (area (x.zip y))
  rocAucScore := fun yTrue yScore =>
    ofFinite yScore
      (area (curvePoints (scoresOf false yTrue yScore) (scoresOf true yTrue yScore)))
  averagePrecisionScore := fun yTrue yScore =>
    ofFinite yScore (weightedPrecisions (scoresOf true yTrue yScore).length 0
      (binaryCurve (scoresOf false yTrue yScore) (scoresOf true yTrue yScore)))

theorem ScikitLearn.documented_exact : @ScikitLearn.Documented .exact :=
  let _ : ScikitLearn := .exact
  { rocCurve := fun _ _ _ _ _ hreal => if_pos hreal
    auc := fun _ _ _ _ _ => rfl
    rocAucScore := fun _ _ _ _ _ hreal => if_pos hreal
    averagePrecisionScore := fun _ _ _ _ hreal => if_pos hreal }

theorem ScikitLearn.finite_exact : @ScikitLearn.Finite .exact := by
  let _ : ScikitLearn := .exact
  intro yTrue yScore curve h
  by_contra hn
  have hraise : ScikitLearn.rocCurve yTrue yScore = .error _ := if_neg hn
  rw [hraise] at h
  cases h

/-! ### Labelled scores in any order -/

/-- **The order of the labelled scores does not matter.** -/
structure ScikitLearn.Symmetric [ScikitLearn] : Prop where
  rocCurve : ∀ (yTrue yTrue' : List Bool) (yScore yScore' : List EReal),
    yTrue.length = yScore.length → yTrue'.length = yScore'.length →
    (yTrue.zip yScore).Perm (yTrue'.zip yScore') →
    ScikitLearn.rocCurve yTrue yScore = ScikitLearn.rocCurve yTrue' yScore'
  rocAucScore : ∀ (yTrue yTrue' : List Bool) (yScore yScore' : List EReal),
    yTrue.length = yScore.length → yTrue'.length = yScore'.length →
    (yTrue.zip yScore).Perm (yTrue'.zip yScore') →
    ScikitLearn.rocAucScore yTrue yScore = ScikitLearn.rocAucScore yTrue' yScore'
  averagePrecisionScore : ∀ (yTrue yTrue' : List Bool) (yScore yScore' : List EReal),
    yTrue.length = yScore.length → yTrue'.length = yScore'.length →
    (yTrue.zip yScore).Perm (yTrue'.zip yScore') →
    ScikitLearn.averagePrecisionScore yTrue yScore =
      ScikitLearn.averagePrecisionScore yTrue' yScore'

theorem ofSamples_perm {neg neg' pos pos' : List EReal} (hneg : neg.Perm neg')
    (hpos : pos.Perm pos') : RocCurve.ofSamples neg pos = RocCurve.ofSamples neg' pos' := by
  have hkept : keptPoints neg pos = keptPoints neg' pos' := by
    rw [keptPoints, keptPoints, binaryCurve_perm hneg hpos]
  rw [RocCurve.ofSamples, RocCurve.ofSamples, hkept, hneg.length_eq, hpos.length_eq]

/-- Whether scores are finite does not depend on their order. -/
theorem ofFinite_perm {α : Type} {yScore yScore' : List EReal} (h : yScore.Perm yScore')
    (value : α) : ofFinite yScore value = ofFinite yScore' value := by
  rw [ofFinite, ofFinite]
  simp only [h.mem_iff]

/-- The scores of labelled scores are rearranged with them. -/
theorem perm_of_zip {yTrue yTrue' : List Bool} {yScore yScore' : List EReal}
    (hlen : yTrue.length = yScore.length) (hlen' : yTrue'.length = yScore'.length)
    (h : (yTrue.zip yScore).Perm (yTrue'.zip yScore')) : yScore.Perm yScore' := by
  have hmap := h.map Prod.snd
  rwa [List.map_snd_zip hlen.ge, List.map_snd_zip hlen'.ge] at hmap

/-- **The functions as they are documented** count, and so do not depend on the order. -/
theorem ScikitLearn.symmetric_exact : @ScikitLearn.Symmetric .exact := by
  let _ : ScikitLearn := .exact
  have hscores : ∀ {yTrue yTrue' : List Bool} {yScore yScore' : List EReal} (label : Bool),
      (yTrue.zip yScore).Perm (yTrue'.zip yScore') →
        (scoresOf label yTrue yScore).Perm (scoresOf label yTrue' yScore') := fun _ hperm =>
    (hperm.filter _).map _
  refine ⟨fun y y' s s' hlen hlen' hperm => ?_, fun y y' s s' hlen hlen' hperm => ?_,
    fun y y' s s' hlen hlen' hperm => ?_⟩
  · show ofFinite s _ = ofFinite s' _
    rw [ofSamples_perm (hscores false hperm) (hscores true hperm),
      ofFinite_perm (perm_of_zip hlen hlen' hperm)]
  · show ofFinite s (area (curvePoints _ _)) = ofFinite s' (area (curvePoints _ _))
    rw [curvePoints, curvePoints, binaryCurve_perm (hscores false hperm) (hscores true hperm),
      (hscores false hperm).length_eq, (hscores true hperm).length_eq,
      ofFinite_perm (perm_of_zip hlen hlen' hperm)]
  · show ofFinite s (weightedPrecisions _ 0 (binaryCurve _ _)) =
      ofFinite s' (weightedPrecisions _ 0 (binaryCurve _ _))
    rw [binaryCurve_perm (hscores false hperm) (hscores true hperm),
      (hscores true hperm).length_eq, ofFinite_perm (perm_of_zip hlen hlen' hperm)]

theorem counting_keptPoints (neg pos : List EReal) : Counting (keptPoints neg pos) := by
  refine List.pairwise_cons.mpr ⟨fun _ _ => ⟨Nat.zero_le _, Nat.zero_le _⟩, ?_⟩
  exact (counting_rocPoints neg pos (pairwise_distinctScores neg pos)).sublist
    (dropIntermediate_sublist _)

/-! ### The labels and scores of the program -/

/-- The anomaly scores of scores. -/
noncomputable def anomalies (scores : List EReal) : List EReal := scores.map fun s => -s

section

variable {normal attack : List EReal}

theorem zip_labels (normal attack : List EReal) :
    (labelsAndAnomalyScores normal attack).1.zip (labelsAndAnomalyScores normal attack).2 =
      (anomalies normal).map (fun s => (false, s)) ++
        (anomalies attack).map (fun s => (true, s)) := by
  have hclass : ∀ (label : Bool) (scores : List EReal),
      (List.replicate scores.length label).zip (anomalies scores) =
        (anomalies scores).map fun s => (label, s) := by
    intro label scores
    induction scores with
    | nil => rfl
    | cons s scores ih =>
      show (label, -s) :: (List.replicate scores.length label).zip (anomalies scores) = _
      rw [ih]
      rfl
  show (List.replicate _ _ ++ List.replicate _ _).zip ((normal ++ attack).map _) = _
  rw [List.map_append, List.zip_append]
  · show (List.replicate _ _).zip (anomalies normal) ++ (List.replicate _ _).zip
      (anomalies attack) = _
    rw [hclass, hclass]
  · rw [List.length_replicate, List.length_map]

/-- **The two classes** are the normal and the attack scores. -/
theorem scoresOf_labels (normal attack : List EReal) :
    scoresOf false (labelsAndAnomalyScores normal attack).1
        (labelsAndAnomalyScores normal attack).2 = anomalies normal ∧
      scoresOf true (labelsAndAnomalyScores normal attack).1
        (labelsAndAnomalyScores normal attack).2 = anomalies attack := by
  rw [scoresOf, scoresOf, zip_labels]
  constructor
  · simp [List.filter_map, Function.comp_def]
  · simp [List.filter_map, Function.comp_def]

/-- The labels and scores are as the functions require them. -/
theorem labels_admissible (hn : normal ≠ []) (ha : attack ≠ [])
    (hreal : ∀ s ∈ normal ++ attack, s ≠ ⊥ ∧ s ≠ ⊤) :
    (labelsAndAnomalyScores normal attack).1.length =
        (labelsAndAnomalyScores normal attack).2.length ∧
      false ∈ (labelsAndAnomalyScores normal attack).1 ∧
      true ∈ (labelsAndAnomalyScores normal attack).1 ∧
      ∀ s ∈ (labelsAndAnomalyScores normal attack).2, s ≠ ⊥ ∧ s ≠ ⊤ := by
  refine ⟨by simp [labelsAndAnomalyScores], ?_, ?_, ?_⟩
  · refine List.mem_append_left _ (List.mem_replicate.mpr ⟨?_, rfl⟩)
    exact List.length_eq_zero_iff.not.mpr hn
  · refine List.mem_append_right _ (List.mem_replicate.mpr ⟨?_, rfl⟩)
    exact List.length_eq_zero_iff.not.mpr ha
  · intro s hs
    obtain ⟨s', hs', rfl⟩ := List.mem_map.mp hs
    obtain ⟨hbot, htop⟩ := hreal s' hs'
    exact ⟨fun h => htop (EReal.neg_eq_bot_iff.mp h), fun h => hbot (EReal.neg_eq_top_iff.mp h)⟩

variable [ScikitLearn]

/-- **The curve that the program works on.** -/
theorem rocCurve_labels (hlib : ScikitLearn.Documented) (hn : normal ≠ []) (ha : attack ≠ [])
    (hreal : ∀ s ∈ normal ++ attack, s ≠ ⊥ ∧ s ≠ ⊤) :
    ScikitLearn.rocCurve (labelsAndAnomalyScores normal attack).1
        (labelsAndAnomalyScores normal attack).2 =
      .ok (.ofSamples (anomalies normal) (anomalies attack)) := by
  obtain ⟨hlen, hfalse, htrue, hreal'⟩ := labels_admissible hn ha hreal
  rw [hlib.rocCurve _ _ hlen hfalse htrue hreal', (scoresOf_labels normal attack).1,
    (scoresOf_labels normal attack).2]

end

/-! ### Real scores -/

/-- Real numbers as scores. -/
noncomputable def realScores (xs : List ℝ) : List EReal := xs.map Real.toEReal

/-- The anomaly score of a real score. -/
noncomputable def anomaly (x : ℝ) : EReal := -(x : EReal)

theorem realScores_real (xs : List ℝ) : ∀ s ∈ realScores xs, s ≠ ⊥ ∧ s ≠ ⊤ := by
  intro s hs
  obtain ⟨x, -, rfl⟩ := List.mem_map.mp hs
  exact ⟨EReal.coe_ne_bot x, EReal.coe_ne_top x⟩

theorem realScores_append_real (xs ys : List ℝ) :
    ∀ s ∈ realScores xs ++ realScores ys, s ≠ ⊥ ∧ s ≠ ⊤ := by
  intro s hs
  rcases List.mem_append.mp hs with hs | hs
  · exact realScores_real xs s hs
  · exact realScores_real ys s hs

theorem strictAnti_anomaly : StrictAnti anomaly := by
  intro x y hxy
  exact EReal.neg_lt_neg_iff.mpr (EReal.coe_lt_coe_iff.mpr hxy)

theorem anomalies_realScores (xs : List ℝ) : anomalies (realScores xs) = xs.map anomaly := by
  rw [anomalies, realScores, List.map_map]
  rfl

end Waf
