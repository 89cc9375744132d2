import Mathlib
import LfWaap.Python.Loops

/-!
# Evaluation metrics

`waf.infrastructure.hmm.evaluation`: what a detector is measured by. Scores are
likelihoods, so that a *high* score means normal; the anomaly score of the ranking metrics
is the score with its sign changed, and the positive class is the attack.

The curve and the areas under it come from scikit-learn. They are taken as they are
(`Waf.ScikitLearn`); what is computed here is what the program makes of them: the labels
and scores they are given, the operating point below a false-positive rate, and the area
of the first part of a curve.
-/

namespace Waf

open Python

/-! ### The libraries -/

/-- The points of a receiver operating characteristic, from the strictest threshold on. -/
structure RocCurve where
  fpr : List ℝ
  tpr : List ℝ
  thresholds : List EReal

/-- **The functions of scikit-learn** the metrics are computed with. The labels are those of
the positive class. -/
class ScikitLearn where
  /-- `roc_curve(y_true, y_score)`. -/
  rocCurve : (yTrue : List Bool) → (yScore : List EReal) → Except PyError RocCurve
  /-- `auc(x, y)`. -/
  auc : (x y : List ℝ) → Except PyError ℝ
  /-- `roc_auc_score(y_true, y_score)`. -/
  rocAucScore : (yTrue : List Bool) → (yScore : List EReal) → Except PyError ℝ
  /-- `average_precision_score(y_true, y_score)`. -/
  averagePrecisionScore : (yTrue : List Bool) → (yScore : List EReal) → Except PyError ℝ

/-- What the functions give where all scores are equal: the curve is the diagonal, and no
ranking is better than chance. -/
@[reducible] noncomputable def ScikitLearn.ties : ScikitLearn where
  rocCurve := fun _ yScore => .ok ⟨[0, 1], [0, 1], [⊤, yScore.headD 0]⟩
  auc := fun x _ => .ok (x.getLastD 0 ^ 2 / 2)
  rocAucScore := fun _ _ => .ok (1 / 2)
  averagePrecisionScore := fun yTrue _ => .ok ((yTrue.count true : ℝ) / yTrue.length)

/-- `np.searchsorted(xs, v, side="right")`. -/
noncomputable def searchsortedRight (xs : List ℝ) (v : ℝ) : ℕ := xs.findIdx fun x => decide (v < x)

/-- `np.interp(x, xp, fp)`: the value on the line between the last point that is not beyond
`x` and the next one; the first and the last value outside. -/
noncomputable def interp (x : ℝ) (xp fp : List ℝ) : ℝ :=
  let j := searchsortedRight xp x
  if j = 0 then fp.headD 0
  else if j = xp.length then fp.getLastD 0
  else fp.getD (j - 1) 0 + (fp.getD j 0 - fp.getD (j - 1) 0) /
    (xp.getD j 0 - xp.getD (j - 1) 0) * (x - xp.getD (j - 1) 0)

/-! ### Decisions -/

/-- The quality of the decisions at the operating point. -/
structure ClassificationMetrics where
  accuracy : ℚ
  precision : ℚ
  «recall» : ℚ
  f1 : ℚ
  tp : ℕ
  fp : ℕ
  fn : ℕ
  tn : ℕ
  deriving DecidableEq

/-- **The metrics of a confusion matrix.** A quotient without a denominator is zero. -/
def classificationMetrics (tp fp fn tn : ℕ) : ClassificationMetrics :=
  let total := tp + fp + fn + tn
  let accuracy : ℚ := if total ≠ 0 then (tp + tn : ℕ) / (total : ℕ) else 0
  let precision : ℚ := if tp + fp ≠ 0 then tp / (tp + fp : ℕ) else 0
  let «recall» : ℚ := if tp + fn ≠ 0 then tp / (tp + fn : ℕ) else 0
  let f1 : ℚ :=
    if precision + «recall» ≠ 0 then 2 * precision * «recall» / (precision + «recall») else 0
  ⟨accuracy, precision, «recall», f1, tp, fp, fn, tn⟩

example : (classificationMetrics 3 1 2 4).f1 = 2 / 3 := by decide +kernel

/-! ### Rankings -/

/-- What is reported about the scores. -/
structure EvaluationReport where
  rocAuc : ℝ
  prAuc : ℝ
  partialAuc : ℝ
  tprAtFpr : ℝ
  targetFpr : ℝ
  thresholdAtFpr : EReal
  nNormal : ℕ
  nAttack : ℕ

/-- The labels, and the anomaly scores. -/
noncomputable def labelsAndAnomalyScores (normalScores attackScores : List EReal) :
    List Bool × List EReal :=
  (List.replicate normalScores.length false ++ List.replicate attackScores.length true,
    (normalScores ++ attackScores).map fun score => -score)

section

variable [ScikitLearn]

/-- The true-positive rate and the threshold at the largest false-positive rate that is
not above the target. -/
noncomputable def tprAtFpr (normalScores attackScores : List EReal) (targetFpr : ℝ := 1 / 100) :
    Except PyError (ℝ × EReal) := do
  let (yTrue, yAnomaly) := labelsAndAnomalyScores normalScores attackScores
  let roc ← ScikitLearn.rocCurve yTrue yAnomaly
  let eligible := (List.range roc.fpr.length).filter fun i => decide (roc.fpr.getD i 0 ≤ targetFpr)
  let idx := eligible.getLastD 0
  match roc.tpr[idx]?, roc.thresholds[idx]? with
  | some tpr, some threshold => return (tpr, threshold)
  | _, _ => .error (.indexError "index is out of bounds for axis 0")

/-- The area under the curve up to a false-positive rate, in parts of the largest possible
one. -/
noncomputable def partialAuc (normalScores attackScores : List EReal) (maxFpr : ℝ := 1 / 10) :
    Except PyError ℝ :=
  if 0 < maxFpr ∧ maxFpr ≤ 1 then do
    let (yTrue, yAnomaly) := labelsAndAnomalyScores normalScores attackScores
    let roc ← ScikitLearn.rocCurve yTrue yAnomaly
    if 1 ≤ maxFpr then ScikitLearn.auc roc.fpr roc.tpr
    else
      -- a point exactly at the rate is added, on the line between its neighbours
      let stop := searchsortedRight roc.fpr maxFpr
      let area ← ScikitLearn.auc (roc.fpr.take stop ++ [maxFpr])
        (roc.tpr.take stop ++ [interp maxFpr roc.fpr roc.tpr])
      return area / maxFpr
  else .error (.valueError "max_fpr must be in (0, 1]")

/-- The false positives that are expected in a period with so many normal requests. -/
noncomputable def falsePositivesPerPeriod (normalScores : List EReal) (thresholdNormality : EReal)
    (requestsPerPeriod : ℝ) : ℝ :=
  if normalScores.length = 0 then 0
  else
    (normalScores.countP fun score => decide (score < thresholdNormality) : ℕ) /
      normalScores.length * requestsPerPeriod

/-- **The report of an evaluation.** -/
noncomputable def evaluate (normalScores attackScores : List EReal) (targetFpr : ℝ := 1 / 100) :
    Except PyError EvaluationReport := do
  let (yTrue, yAnomaly) := labelsAndAnomalyScores normalScores attackScores
  let (tpr, thr) ← tprAtFpr normalScores attackScores targetFpr
  let rocAuc ← ScikitLearn.rocAucScore yTrue yAnomaly
  let prAuc ← ScikitLearn.averagePrecisionScore yTrue yAnomaly
  let partialArea ← partialAuc normalScores attackScores targetFpr
  return {
    rocAuc := rocAuc
    prAuc := prAuc
    partialAuc := partialArea
    tprAtFpr := tpr
    targetFpr := targetFpr
    thresholdAtFpr := thr
    nNormal := normalScores.length
    nAttack := attackScores.length }

end

/-- Where the curve is the diagonal, there is a report for every rate. -/
theorem exists_evaluate_ties {targetFpr : ℝ} (h : 0 < targetFpr ∧ targetFpr ≤ 1)
    (normalScores attackScores : List EReal) :
    let _ : ScikitLearn := .ties
    ∃ r, evaluate normalScores attackScores targetFpr = .ok r := by
  intro _
  obtain ⟨p, hp⟩ : ∃ p, tprAtFpr normalScores attackScores targetFpr = .ok p := by
    have hidx : ∀ i : ℕ, i < 2 → ∃ p : ℝ × EReal,
        (match ([0, 1] : List ℝ)[i]?,
          ([⊤, (labelsAndAnomalyScores normalScores attackScores).2.headD 0] : List EReal)[i]? with
        | some tpr, some threshold => Except.ok (tpr, threshold)
        | _, _ => .error (PyError.indexError "index is out of bounds for axis 0")) = .ok p := by
      intro i hi
      rcases i with _ | _ | i
      · exact ⟨_, rfl⟩
      · exact ⟨_, rfl⟩
      · omega
    refine hidx _ ?_
    generalize hE : (List.range _).filter _ = E
    rw [List.getLastD_eq_getLast?]
    cases hl : E.getLast? with
    | none => exact Nat.zero_lt_two
    | some i =>
      have hmem := List.mem_of_getLast? hl
      rw [← hE] at hmem
      exact List.mem_range.mp (List.mem_filter.mp hmem).1
  obtain ⟨q, hq⟩ : ∃ q, partialAuc normalScores attackScores targetFpr = .ok q := by
    rw [partialAuc, if_pos h]
    show ∃ q, (if 1 ≤ targetFpr then _ else _) = _
    split_ifs
    · exact ⟨_, rfl⟩
    · exact ⟨_, rfl⟩
  rw [evaluate, hp, hq]
  exact ⟨_, rfl⟩

end Waf
