import LfWaap.Hmm.Evaluation
import LfWaap.Hmm.HmmDetector

/-!
# Scoring labelled flows

`waf.infrastructure.hmm.benchmark.score_labeled_flows`: a trained detector assesses flows
whose label is known. What the loop gathers is a `Waf.Tally`: the scores of each class,
and the confusion matrix of the decisions the detector really takes. Flows without a
calibrated model are counted and left out.

The same tally is kept by the evaluation of the command line, which reads records and
not labelled flows. The metrics look at the scores and the matrix only, so that tallies
that agree on these (`Waf.Tally.Agree`) have the same metrics.
-/

namespace Waf

open Python

/-! ### What a loop gathers -/

/-- **The tally of an evaluation.** The positive class is the attack. -/
structure Tally where
  normalScores : List EReal := []
  attackScores : List EReal := []
  tp : ℕ := 0
  fp : ℕ := 0
  fn : ℕ := 0
  tn : ℕ := 0
  covered : ℕ := 0
  uncovered : ℕ := 0

namespace Tally

/-- One more flow without a model. -/
def addUncovered (t : Tally) : Tally := { t with uncovered := t.uncovered + 1 }

/-- One more flow with a model. -/
def addCovered (t : Tally) : Tally := { t with covered := t.covered + 1 }

/-- One more assessment of normal traffic. -/
def addNormal (t : Tally) (a : Assessment) : Tally :=
  { t with
    normalScores := t.normalScores ++ [a.score]
    fp := t.fp + a.blocked.toNat
    tn := t.tn + (!a.blocked).toNat }

/-- One more assessment of an attack. -/
def addAttack (t : Tally) (a : Assessment) : Tally :=
  { t with
    attackScores := t.attackScores ++ [a.score]
    tp := t.tp + a.blocked.toNat
    fn := t.fn + (!a.blocked).toNat }

/-- The tallies have the same scores and the same confusion matrix; how many flows have
been looked at besides may differ. -/
structure Agree (t u : Tally) : Prop where
  normalScores : t.normalScores = u.normalScores
  attackScores : t.attackScores = u.attackScores
  tp : t.tp = u.tp
  fp : t.fp = u.fp
  fn : t.fn = u.fn
  tn : t.tn = u.tn

variable {t u : Tally}

/-- **The metrics of a tally**: none unless both classes have been covered. -/
noncomputable def metrics [ScikitLearn] (t : Tally) (targetFpr : ℝ) :
    Except PyError (Option EvaluationReport × Option ClassificationMetrics) :=
  if t.normalScores ≠ [] ∧ t.attackScores ≠ [] then do
    let report ← evaluate t.normalScores t.attackScores targetFpr
    return (some report, some (classificationMetrics t.tp t.fp t.fn t.tn))
  else .ok (none, none)

theorem Agree.metrics [ScikitLearn] (h : t.Agree u) (targetFpr : ℝ) :
    t.metrics targetFpr = u.metrics targetFpr := by
  rw [Tally.metrics, Tally.metrics, h.normalScores, h.attackScores, h.tp, h.fp, h.fn, h.tn]

end Tally

/-! ### The loop -/

section

variable [Interpreter] [Libraries]

/-- One labelled flow is scored. -/
noncomputable def scoreStep (detector : HmmDetector) (t : Tally) (labeled : Flow × Bool) :
    Except PyError Tally := do
  let assessment ← detector.assessFlow labeled.1
  if assessment.covered = false then return t.addUncovered
  else if labeled.2 then return t.addCovered.addAttack assessment
  else return t.addCovered.addNormal assessment

/-- The metrics of a detector on labelled data. -/
structure ScoredMetrics where
  report : Option EvaluationReport
  classification : Option ClassificationMetrics
  covered : ℕ
  uncovered : ℕ
  evalNormal : ℕ
  evalAttack : ℕ

/-- **Scoring labelled flows.** -/
noncomputable def scoreLabeledFlows [ScikitLearn] (detector : HmmDetector)
    (labeledEval : List (Flow × Bool)) (targetFpr : ℝ) : Except PyError ScoredMetrics := do
  let t ← labeledEval.foldlM (scoreStep detector) { }
  let (report, classification) ← t.metrics targetFpr
  return {
    report := report
    classification := classification
    covered := t.covered
    uncovered := t.uncovered
    evalNormal := t.normalScores.length
    evalAttack := t.attackScores.length }

end

end Waf
