import LfWaap.Hmm.Accounting
import LfWaap.Hmm.OperatingPoint
import LfWaap.Hmm.PartialAuc
import LfWaap.Hmm.Runs

/-!
# What the metrics of labelled flows account for

`score_labeled_flows` reports how many flows were covered, how many scores of each class there
are, and the confusion matrix. These numbers account for all flows
(`Waf.ScoredMetrics.Accounts`), and the whole result is the same in whatever order the flows
are given, as long as the functions of scikit-learn do not look at the order of their
arguments either. Both hold of every detector.

There is a result only if the flows that are covered can be measured, and the target rate is in
`(0, 1]` where metrics are computed; for a detector whose models give every sequence a number,
this is all that is needed (`Waf.scoreLabeledFlows_accounts`). The extractor of packets measures
no packet with a length beyond the range of floats (`Waf.not_scoreLabeledFlows_flowFeature`).
-/

namespace Waf

open Python Stats

/-- **The classification of a matrix is in order**: its counts are those of the two classes,
its quotients are fractions, and the F-measure is the harmonic mean of precision and recall. -/
structure ClassificationMetrics.Consistent (q : ClassificationMetrics) (normal attack : ℕ) :
    Prop where
  attacks : q.tp + q.fn = attack
  normals : q.fp + q.tn = normal
  accuracy : 0 ≤ q.accuracy ∧ q.accuracy ≤ 1
  precision : 0 ≤ q.precision ∧ q.precision ≤ 1
  «recall» : 0 ≤ q.recall ∧ q.recall ≤ 1
  f1 : 0 ≤ q.f1 ∧ q.f1 ≤ 1
  f1_eq : q.f1 = 2 * q.tp / (2 * q.tp + q.fp + q.fn : ℕ)
  f1_between : min q.precision q.recall ≤ q.f1 ∧ q.f1 ≤ max q.precision q.recall

section

variable [Interpreter]

/-- Some flow of a class is covered. -/
def HmmDetector.CoversClass (d : HmmDetector) (labeled : List (Flow × Bool)) (isAttack : Bool) :
    Prop :=
  ∃ p ∈ labeled, p.2 = isAttack ∧ d.partitioned.Covers p.1

/-- **Every flow is accounted for**, and the metrics are present exactly when flows of both
classes are covered. -/
structure ScoredMetrics.Accounts (m : ScoredMetrics) (d : HmmDetector)
    (labeled : List (Flow × Bool)) : Prop where
  flows : m.covered + m.uncovered = labeled.length
  scores : m.evalNormal + m.evalAttack = m.covered
  report : m.report.isSome ↔ d.CoversClass labeled false ∧ d.CoversClass labeled true
  classification :
    m.classification.isSome ↔ d.CoversClass labeled false ∧ d.CoversClass labeled true
  consistent : ∀ q, m.classification = some q → q.Consistent m.evalNormal m.evalAttack

end

/-! ### The order of the scores -/

section

variable {normal normal' attack attack' : List EReal}

/-- The labelled scores are the same ones. -/
theorem zip_labels_perm (hn : normal.Perm normal') (ha : attack.Perm attack') :
    ((labelsAndAnomalyScores normal attack).1.zip (labelsAndAnomalyScores normal attack).2).Perm
      ((labelsAndAnomalyScores normal' attack').1.zip
        (labelsAndAnomalyScores normal' attack').2) := by
  rw [zip_labels, zip_labels]
  exact ((hn.map _).map _).append ((ha.map _).map _)

theorem length_labels (normal attack : List EReal) :
    (labelsAndAnomalyScores normal attack).1.length =
      (labelsAndAnomalyScores normal attack).2.length := by
  simp [labelsAndAnomalyScores]

variable [ScikitLearn]

/-- **The report** does not depend on the order of the scores. -/
theorem evaluate_perm (hsym : ScikitLearn.Symmetric) (hn : normal.Perm normal')
    (ha : attack.Perm attack') (targetFpr : ℝ) :
    evaluate normal attack targetFpr = evaluate normal' attack' targetFpr := by
  have hzip := zip_labels_perm hn ha
  have hlen := length_labels normal attack
  have hlen' := length_labels normal' attack'
  have hroc := hsym.rocCurve _ _ _ _ hlen hlen' hzip
  have hauc := hsym.rocAucScore _ _ _ _ hlen hlen' hzip
  have hprec := hsym.averagePrecisionScore _ _ _ _ hlen hlen' hzip
  have htpr : tprAtFpr normal attack targetFpr = tprAtFpr normal' attack' targetFpr := by
    rw [tprAtFpr, tprAtFpr]
    show (ScikitLearn.rocCurve (labelsAndAnomalyScores normal attack).1
      (labelsAndAnomalyScores normal attack).2 >>= _) = _
    rw [hroc]
  have hpart : partialAuc normal attack targetFpr = partialAuc normal' attack' targetFpr := by
    rw [partialAuc, partialAuc]
    by_cases h : 0 < targetFpr ∧ targetFpr ≤ 1
    · rw [if_pos h, if_pos h]
      show (ScikitLearn.rocCurve (labelsAndAnomalyScores normal attack).1
        (labelsAndAnomalyScores normal attack).2 >>= _) = _
      rw [hroc]
    · rw [if_neg h, if_neg h]
  rw [evaluate, evaluate]
  show (tprAtFpr normal attack targetFpr >>= _) = (tprAtFpr normal' attack' targetFpr >>= _)
  rw [htpr]
  congr 1
  funext point
  show (ScikitLearn.rocAucScore (labelsAndAnomalyScores normal attack).1
    (labelsAndAnomalyScores normal attack).2 >>= _) = _
  rw [hauc]
  congr 1
  funext rocAuc
  show (ScikitLearn.averagePrecisionScore (labelsAndAnomalyScores normal attack).1
    (labelsAndAnomalyScores normal attack).2 >>= _) = _
  rw [hprec, hpart, hn.length_eq, ha.length_eq]
  rfl

/-- **The metrics of a tally** do not depend on the order of its scores. -/
theorem Tally.Same.metrics {t u : Tally} (hsym : ScikitLearn.Symmetric) (h : t.Same u)
    (targetFpr : ℝ) : t.metrics targetFpr = u.metrics targetFpr := by
  have hnil : (t.normalScores ≠ [] ∧ t.attackScores ≠ []) =
      (u.normalScores ≠ [] ∧ u.attackScores ≠ []) := by
    rw [ne_eq, ne_eq, ne_eq, ne_eq, ← List.length_eq_zero_iff, ← List.length_eq_zero_iff,
      h.normalScores.length_eq, h.attackScores.length_eq, List.length_eq_zero_iff,
      List.length_eq_zero_iff]
  rw [Tally.metrics, Tally.metrics, evaluate_perm hsym h.normalScores h.attackScores, h.tp, h.fp,
    h.fn, h.tn]
  simp only [hnil]

end

/-! ### The result of a scoring -/

section

variable [Interpreter] [Libraries] [ScikitLearn] {d : HmmDetector}
  {labeled labeled' : List (Flow × Bool)} {targetFpr : ℝ} {m : ScoredMetrics}

/-- **A scoring that returns** has assessed all flows, and reports their tally. -/
theorem scoreLabeledFlows_eq_ok (h : scoreLabeledFlows d labeled targetFpr = .ok m) :
    ∃ as r q, labeled.mapM (assessLabeled d) = .ok as ∧
      (tallyOf as).metrics targetFpr = .ok (r, q) ∧
      m = ⟨r, q, (tallyOf as).covered, (tallyOf as).uncovered,
        (tallyOf as).normalScores.length, (tallyOf as).attackScores.length⟩ := by
  obtain ⟨t, ht, h⟩ := exists_of_bind_eq_ok h
  rw [foldlM_scoreStep] at ht
  obtain ⟨as, has, rfl⟩ := exists_of_map_eq_ok ht
  obtain ⟨⟨r, q⟩, hmetrics, h⟩ := exists_of_bind_eq_ok h
  exact ⟨as, r, q, has, hmetrics, (Except.ok.inj h).symm⟩

/-- From the assessments and the metrics of their tally, the result is put together. -/
theorem scoreLabeledFlows_of_mapM {as : List Assessed}
    (has : labeled.mapM (assessLabeled d) = .ok as) {r : Option EvaluationReport}
    {q : Option ClassificationMetrics} (hm : (tallyOf as).metrics targetFpr = .ok (r, q)) :
    scoreLabeledFlows d labeled targetFpr =
      .ok ⟨r, q, (tallyOf as).covered, (tallyOf as).uncovered,
        (tallyOf as).normalScores.length, (tallyOf as).attackScores.length⟩ := by
  rw [scoreLabeledFlows, foldlM_scoreStep, has]
  show ((tallyOf as).metrics targetFpr >>= _) = _
  rw [hm]
  rfl

omit [Interpreter] [Libraries] in
/-- The metrics of a tally: both, or none. -/
theorem Tally.metrics_cases {t : Tally} {r : Option EvaluationReport}
    {q : Option ClassificationMetrics} (h : t.metrics targetFpr = .ok (r, q)) :
    (t.normalScores ≠ [] ∧ t.attackScores ≠ [] ∧ r.isSome ∧
        q = some (classificationMetrics t.tp t.fp t.fn t.tn)) ∨
      (¬ (t.normalScores ≠ [] ∧ t.attackScores ≠ []) ∧ r = none ∧ q = none) := by
  rw [Tally.metrics] at h
  split_ifs at h with hne
  · obtain ⟨report, -, h⟩ := exists_of_bind_eq_ok h
    cases h
    exact Or.inl ⟨hne.1, hne.2, rfl, rfl⟩
  · cases h
    exact Or.inr ⟨hne, rfl, rfl⟩

omit [Interpreter] [Libraries] [ScikitLearn] in
/-- **The metrics of the tally's matrix** are in order. -/
theorem classificationMetrics_consistent (assessed : List Assessed) :
    (classificationMetrics (tallyOf assessed).tp (tallyOf assessed).fp (tallyOf assessed).fn
        (tallyOf assessed).tn).Consistent (tallyOf assessed).normalScores.length
      (tallyOf assessed).attackScores.length := by
  obtain ⟨-, hattack, hnormal⟩ := tallyOf_conserves assessed
  obtain ⟨ha, hp, hr, hf, hb⟩ := classificationMetrics_bounds (tallyOf assessed).tp
    (tallyOf assessed).fp (tallyOf assessed).fn (tallyOf assessed).tn
  exact ⟨hattack, hnormal, ha, hp, hr, hf, (classificationMetrics_eq _ _ _ _).2.2.2, hb⟩

/-- **Every flow is accounted for**, by every detector. -/
theorem accounts_of_scoreLabeledFlows (h : scoreLabeledFlows d labeled targetFpr = .ok m) :
    m.Accounts d labeled := by
  obtain ⟨as, r, q, has, hmetrics, rfl⟩ := scoreLabeledFlows_eq_ok h
  have hcover := tallyOf_scores_ne_nil as
  rw [exists_covered_iff has false, exists_covered_iff has true] at hcover
  have hknown : ∀ e ∈ as, e.1.covered = true → e.2 ≠ none := by
    intro e he _
    obtain ⟨p, -, hp⟩ := exists_of_mem_values has he
    obtain ⟨a, -, rfl⟩ := exists_of_map_eq_ok hp
    exact Option.some_ne_none _
  have hlen : labeled.length = as.length := (length_of_mapM has).symm
  rcases Tally.metrics_cases hmetrics with ⟨hn, ha, hr, rfl⟩ | ⟨hne, rfl, rfl⟩
  · have hboth : d.CoversClass labeled false ∧ d.CoversClass labeled true :=
      ⟨hcover.1.mp hn, hcover.2.mp ha⟩
    refine ⟨hlen ▸ (tallyOf_conserves as).1, (tallyOf_scores_iff as).mpr hknown,
      iff_of_true hr hboth, iff_of_true rfl hboth, fun q hq => ?_⟩
    rw [← Option.some.inj hq]
    exact classificationMetrics_consistent as
  · have hboth : ¬ (d.CoversClass labeled false ∧ d.CoversClass labeled true) := fun hboth =>
      hne ⟨hcover.1.mpr hboth.1, hcover.2.mpr hboth.2⟩
    exact ⟨hlen ▸ (tallyOf_conserves as).1, (tallyOf_scores_iff as).mpr hknown,
      iff_of_false Bool.false_ne_true hboth, iff_of_false Bool.false_ne_true hboth,
      fun q hq => absurd hq.symm (Option.some_ne_none q)⟩

/-- **The order of the flows** does not matter. -/
theorem scoreLabeledFlows_perm (hsym : ScikitLearn.Symmetric) (hperm : labeled.Perm labeled')
    (h : scoreLabeledFlows d labeled targetFpr = .ok m) :
    scoreLabeledFlows d labeled' targetFpr = .ok m := by
  obtain ⟨as, r, q, has, hmetrics, rfl⟩ := scoreLabeledFlows_eq_ok h
  obtain ⟨as', has', hperm'⟩ := mapM_perm hperm has
  have hsame := tallyOf_perm hperm'
  rw [hsame.metrics hsym] at hmetrics
  rw [scoreLabeledFlows_of_mapM has' hmetrics, hsame.covered, hsame.uncovered,
    hsame.normalScores.length_eq, hsame.attackScores.length_eq]

end

/-! ### Trained detectors -/

section

variable [Interpreter] [Libraries] [ScikitLearn] {c : HmmSettings} {targetFpr : ℝ}

omit [Interpreter] [Libraries] in
/-- The partial area of a report is the one that is computed for its scores. -/
theorem partialAuc_of_evaluate {normal attack : List EReal} {r : EvaluationReport}
    (h : evaluate normal attack targetFpr = .ok r) :
    partialAuc normal attack targetFpr = .ok r.partialAuc := by
  obtain ⟨point, -, h⟩ := exists_of_bind_eq_ok h
  obtain ⟨rocAuc, -, h⟩ := exists_of_bind_eq_ok h
  obtain ⟨prAuc, -, h⟩ := exists_of_bind_eq_ok h
  obtain ⟨area, harea, h⟩ := exists_of_bind_eq_ok h
  rw [harea, ← Except.ok.inj h]

omit [Interpreter] [Libraries] in
/-- There is none for other rates. -/
theorem rate_of_evaluate {normal attack : List EReal} {r : EvaluationReport}
    (h : evaluate normal attack targetFpr = .ok r) : 0 < targetFpr ∧ targetFpr ≤ 1 := by
  by_contra hn
  have hpartial := partialAuc_of_evaluate h
  rw [partialAuc, if_neg hn] at hpartial
  cases hpartial

omit [Interpreter] [Libraries] in
/-- **There is a report** for real scores of both classes. -/
theorem exists_evaluate (hlib : ScikitLearn.Documented) {normal attack : List EReal}
    (hn : normal ≠ []) (ha : attack ≠ []) (hreal : ∀ s ∈ normal ++ attack, s ≠ ⊥ ∧ s ≠ ⊤)
    (h : 0 < targetFpr ∧ targetFpr ≤ 1) : ∃ r, evaluate normal attack targetFpr = .ok r := by
  obtain ⟨hlen, hfalse, htrue, hreal'⟩ := labels_admissible hn ha hreal
  rw [evaluate]
  show ∃ r, (tprAtFpr normal attack targetFpr >>= _) = .ok r
  rw [tprAtFpr_eq hlib hn ha hreal h.1.le, ok_bind]
  show ∃ r, (ScikitLearn.rocAucScore (labelsAndAnomalyScores normal attack).1
    (labelsAndAnomalyScores normal attack).2 >>= _) = .ok r
  rw [hlib.rocAucScore _ _ hlen hfalse htrue hreal', ok_bind]
  show ∃ r, (ScikitLearn.averagePrecisionScore (labelsAndAnomalyScores normal attack).1
    (labelsAndAnomalyScores normal attack).2 >>= _) = .ok r
  rw [hlib.averagePrecisionScore _ _ hlen htrue hreal', ok_bind,
    partialAuc_eq hlib hn ha hreal h, ok_bind]
  exact ⟨_, rfl⟩

omit [ScikitLearn] in
/-- **A flow is assessed** if it can be measured or is not covered, and with a real score if it is
covered. -/
theorem PartitionedHmm.exists_assess_of_scores {p : PartitionedHmm c}
    (hp : ∀ k m, p.models.get? k = some m → m.Scores) {f : Flow}
    (hf : p.Covers f → c.extractor.Extracts f) :
    ∃ a, p.assess f = .ok a ∧ (a.covered = true → a.score ∈ realNumbers) := by
  by_cases hc : p.Covers f
  · obtain ⟨m, seq, t, v, hm, hscore, hassess⟩ := assess_of_covers hc (hf hc)
      (accepts_of_scores hp f)
    obtain ⟨v', hv', hscore'⟩ := hp _ m hm seq
    obtain rfl := Except.ok.inj (hscore.symm.trans hscore')
    exact ⟨_, hassess, fun _ => hv'⟩
  · exact ⟨_, assess_of_not_covers hc, fun h => absurd h Bool.false_ne_true⟩

omit [Interpreter] [Libraries] [ScikitLearn] in
/-- Real scores of the covered flows are tallied. -/
theorem tallyOf_scores_real {as : List Assessed}
    (h : ∀ e ∈ as, e.1.covered = true → e.1.score ∈ realNumbers) :
    ∀ s ∈ (tallyOf as).normalScores ++ (tallyOf as).attackScores, s ≠ ⊥ ∧ s ≠ ⊤ := by
  have hclass : ∀ b : Bool, ∀ s ∈ (as.filter (Assessed.inClass b)).map fun e => e.1.score,
      s ≠ ⊥ ∧ s ≠ ⊤ := by
    intro b s hs
    obtain ⟨e, he, rfl⟩ := List.mem_map.mp hs
    obtain ⟨hmem, hin⟩ := List.mem_filter.mp he
    obtain ⟨x, hx⟩ := h e hmem (Bool.and_eq_true_iff.mp hin).1
    rw [hx]
    exact ⟨EReal.coe_ne_bot x, EReal.coe_ne_top x⟩
  rw [tallyOf_eq]
  intro s hs
  rcases List.mem_append.mp hs with hs | hs
  · exact hclass false s hs
  · exact hclass true s hs

omit [Interpreter] [Libraries] in
/-- The metrics of a tally exist for a rate in `(0, 1]`, or where there are none. -/
theorem Tally.exists_metrics (hskl : ScikitLearn.Documented) {t : Tally}
    (hscores : ∀ s ∈ t.normalScores ++ t.attackScores, s ≠ ⊥ ∧ s ≠ ⊤)
    (h : (0 < targetFpr ∧ targetFpr ≤ 1) ∨ ¬(t.normalScores ≠ [] ∧ t.attackScores ≠ [])) :
    ∃ rq, t.metrics targetFpr = .ok rq := by
  rw [Tally.metrics]
  split_ifs with hne
  · obtain ⟨r, hr⟩ := exists_evaluate hskl hne.1 hne.2 hscores (h.resolve_right (absurd hne))
    rw [hr]
    exact ⟨_, rfl⟩
  · exact ⟨_, rfl⟩

omit [ScikitLearn] in
/-- **A detector that gives scores**: every model gives every sequence a number. -/
def HmmDetector.Ready (d : HmmDetector) : Prop :=
  ∀ k m, d.partitioned.models.get? k = some m → m.Scores

/-- What can be scored: the flows that are covered can be measured, and the rate is in `(0, 1]` if
flows of both classes are covered. -/
structure HmmDetector.Scorable (d : HmmDetector) (labeled : List (Flow × Bool)) (targetFpr : ℝ) :
    Prop where
  extracts : ∀ e ∈ labeled, d.partitioned.Covers e.1 → d.settings.extractor.Extracts e.1
  rate : d.CoversClass labeled false → d.CoversClass labeled true → 0 < targetFpr ∧ targetFpr ≤ 1

omit [ScikitLearn] in
/-- The covered flows of a list are scored with real numbers, by a detector whose models score. -/
theorem exists_assessLabeled {d : HmmDetector} (hd : d.Ready) {labeled : List (Flow × Bool)}
    (hf : ∀ e ∈ labeled, d.partitioned.Covers e.1 → d.settings.extractor.Extracts e.1) :
    ∃ as, labeled.mapM (assessLabeled d) = .ok as ∧
      ∀ s ∈ (tallyOf as).normalScores ++ (tallyOf as).attackScores, s ≠ ⊥ ∧ s ≠ ⊤ := by
  obtain ⟨as, has⟩ := exists_mapM_eq_ok (assessLabeled d) labeled fun e he => by
    obtain ⟨a, ha, -⟩ := PartitionedHmm.exists_assess_of_scores hd (hf e he)
    exact ⟨(a, some e.2), congrArg (Except.map _) ha⟩
  refine ⟨as, has, tallyOf_scores_real fun e he => ?_⟩
  obtain ⟨l, hl, hle⟩ := exists_of_mem_values has he
  obtain ⟨a, ha, hreal⟩ := PartitionedHmm.exists_assess_of_scores hd (hf l hl)
  obtain ⟨a', ha', rfl⟩ := exists_of_map_eq_ok hle
  rw [← Except.ok.inj (ha.symm.trans ha')]
  exact hreal

/-- **When scoring returns**, for a detector whose models give every sequence a number. -/
theorem exists_scoreLabeledFlows_iff (hskl : ScikitLearn.Documented) {d : HmmDetector}
    (hd : d.Ready) {labeled : List (Flow × Bool)} :
    (∃ m, scoreLabeledFlows d labeled targetFpr = .ok m) ↔ d.Scorable labeled targetFpr := by
  constructor
  · rintro ⟨m, hm⟩
    obtain ⟨as, r, q, has, hmetrics, rfl⟩ := scoreLabeledFlows_eq_ok hm
    refine ⟨fun e he hc => ?_, fun hnormal hattack => ?_⟩
    · obtain ⟨a', ha'⟩ := exists_of_mem_of_mapM has he
      obtain ⟨a, ha, -⟩ := exists_of_map_eq_ok ha'
      exact (PartitionedHmm.assess_isOk_iff.mp ⟨a, ha⟩).1 hc
    · have hcover := tallyOf_scores_ne_nil as
      rw [exists_covered_iff has false, exists_covered_iff has true] at hcover
      rw [Tally.metrics, if_pos ⟨hcover.1.mpr hnormal, hcover.2.mpr hattack⟩] at hmetrics
      obtain ⟨report, hreport, -⟩ := exists_of_bind_eq_ok hmetrics
      exact rate_of_evaluate hreport
  · rintro ⟨hf, hrate⟩
    obtain ⟨as, has, hreal⟩ := exists_assessLabeled hd hf
    have hcover := tallyOf_scores_ne_nil as
    rw [exists_covered_iff has false, exists_covered_iff has true] at hcover
    obtain ⟨rq, hmetrics⟩ : ∃ rq, (tallyOf as).metrics targetFpr = .ok rq := by
      refine Tally.exists_metrics hskl hreal ?_
      by_cases hboth : (tallyOf as).normalScores ≠ [] ∧ (tallyOf as).attackScores ≠ []
      · exact Or.inl (hrate (hcover.1.mp hboth.1) (hcover.2.mp hboth.2))
      · exact Or.inr hboth
    exact ⟨_, scoreLabeledFlows_of_mapM has hmetrics⟩

/-- **Scoring labelled flows**, after any run of trainings. In every result, every flow is
accounted for, and the result does not depend on the order of the flows. For a detector whose
models give every sequence a number, there is such a result exactly if the covered flows can be
measured, and the rate is in `(0, 1]` where flows of both classes are covered. -/
theorem scoreLabeledFlows_accounts (hskl : ScikitLearn.Documented) (hsym : ScikitLearn.Symmetric)
    (c : HmmSettings) (calls : List (List Flow × List Flow)) :
    let d := ((HmmDetector.mk c { }).trainRun calls).1
    (∀ labeled targetFpr m, scoreLabeledFlows d labeled targetFpr = .ok m →
      m.Accounts d labeled ∧ ∀ labeled' : List (Flow × Bool), labeled.Perm labeled' →
        scoreLabeledFlows d labeled' targetFpr = .ok m) ∧
    (d.Ready → ∀ labeled targetFpr,
      (∃ m, scoreLabeledFlows d labeled targetFpr = .ok m ∧ m.Accounts d labeled ∧
        ∀ labeled' : List (Flow × Bool), labeled.Perm labeled' →
          scoreLabeledFlows d labeled' targetFpr = .ok m) ↔ d.Scorable labeled targetFpr) := by
  intro d
  have hall : ∀ labeled targetFpr m, scoreLabeledFlows d labeled targetFpr = .ok m →
      m.Accounts d labeled ∧ ∀ labeled' : List (Flow × Bool), labeled.Perm labeled' →
        scoreLabeledFlows d labeled' targetFpr = .ok m := fun labeled targetFpr m hm =>
    ⟨accounts_of_scoreLabeledFlows hm, fun labeled' hperm => scoreLabeledFlows_perm hsym hperm hm⟩
  refine ⟨hall, fun hd labeled targetFpr => ?_⟩
  rw [← exists_scoreLabeledFlows_iff hskl hd]
  constructor
  · rintro ⟨m, hm, -⟩
    exact ⟨m, hm⟩
  · rintro ⟨m, hm⟩
    exact ⟨m, hm, hall _ _ _ hm⟩

end

/-- A detector that is trained once, by libraries without memory. -/
theorem HmmDetector.trainRun_memoryless [Interpreter] {c : HmmSettings} (hS : c.nStates ≠ 0)
    (hcap : c.maxFitWindows = none) (hq : 0 < c.targetFpr ∧ c.targetFpr < 1) {f : Flow}
    (hf : c.extractor.Extracts f) :
    let _ : Libraries := .memoryless
    ∃ p : PartitionedHmm c, ((HmmDetector.mk c { }).trainRun [([f], [f])]).1 = ⟨c, p⟩ ∧
      (HmmDetector.mk c p).Ready ∧ ∀ g, p.Covers g ↔ Coverable c [f] [f] (partitionKey g) := by
  intro _
  have hlib := Libraries.documented_memoryless
  have hc : c.Reliable fun _ => True := HmmSettings.reliable_memoryless hS
    (fun cap h => absurd (hcap.symm.trans h) (Option.some_ne_none cap).symm) _
  have hext : ∀ g ∈ [f], c.extractor.Extracts g := fun g hg => List.mem_singleton.mp hg ▸ hf
  have hok : ({ } : PartitionedHmm c).train [f] [f] = (_, .ok ()) :=
    Prod.ext rfl (PartitionedHmm.train_isOk hlib hc hq (fun _ _ => trivial) hext hext { })
  refine ⟨(({ } : PartitionedHmm c).train [f] [f]).1, congrArg Prod.fst (trainRun_eq _ _), ?_, ?_⟩
  · exact fun _ _ => PartitionedHmm.scores_of_train hlib hc (fun _ _ => trivial) hok
  · exact fun _ => PartitionedHmm.covers_train_iff hok

/-- A normal flow and an attack, both covered. -/
theorem scoreLabeledFlows_accounts_two :
    let _ : Interpreter := .ascii
    let _ : Libraries := .memoryless
    let _ : ScikitLearn := .exact
    let c : HmmSettings :=
      { extractor := byteClassExtractor, nStates := 1, minTrain := 1, targetFpr := 1 / 2 }
    let f := Flow.new (text "http") 80 .inbound [71, 69, 84]
    let g := Flow.new (text "http") 80 .inbound [32, 32]
    ∃ m, scoreLabeledFlows ((HmmDetector.mk c { }).trainRun [([f], [f])]).1 [(f, false), (g, true)]
        (1 / 2) = .ok m ∧
      scoreLabeledFlows ((HmmDetector.mk c { }).trainRun [([f], [f])]).1 [(g, true), (f, false)]
        (1 / 2) = .ok m ∧
      m.covered + m.uncovered = 2 ∧ m.evalNormal + m.evalAttack = m.covered ∧ m.report.isSome ∧
      m.classification.isSome := by
  intro _ _ _ c f g
  obtain ⟨p, hp, hscores, hcovers⟩ := HmmDetector.trainRun_memoryless (c := c) one_ne_zero rfl
    half_rate (f := f) ⟨_, rfl⟩
  obtain ⟨-, hiff⟩ := scoreLabeledFlows_accounts ScikitLearn.documented_exact
    ScikitLearn.symmetric_exact c [([f], [f])]
  rw [hp] at hiff ⊢
  have hf : p.Covers f := (hcovers f).mpr (by decide)
  have hg : p.Covers g := (hcovers g).mpr (by decide)
  have hclasses : (HmmDetector.mk c p).CoversClass [(f, false), (g, true)] false ∧
      (HmmDetector.mk c p).CoversClass [(f, false), (g, true)] true :=
    ⟨⟨_, List.mem_cons_self, rfl, hf⟩, ⟨_, List.mem_cons_of_mem _ List.mem_cons_self, rfl, hg⟩⟩
  have hscorable : (HmmDetector.mk c p).Scorable [(f, false), (g, true)] (1 / 2) :=
    ⟨fun e _ _ => ⟨_, rfl⟩, fun _ _ => ⟨half_rate.1, half_rate.2.le⟩⟩
  obtain ⟨m, hm, hacc, hperm⟩ := (hiff hscores _ _).mpr hscorable
  exact ⟨m, hm, hperm _ (List.Perm.swap _ _ _), hacc.flows, hacc.scores, hacc.report.mpr hclasses,
    hacc.classification.mpr hclasses⟩

/-- **A covered flow that is not scored**: a packet with a length beyond the range of floats. -/
theorem not_scoreLabeledFlows_flowFeature :
    let _ : Interpreter := .ascii
    let _ : Libraries := .memoryless
    let _ : ScikitLearn := .exact
    let c : HmmSettings :=
      { extractor := flowFeatureExtractor, nStates := 1, minTrain := 1, targetFpr := 1 / 2 }
    let flow := fun lengths : List ℤ => Flow.new (text "tls") 443 .inbound []
      (lengths.map fun length => ⟨.inbound, length, .finite 0, []⟩)
    let normal := flow [20000, 20000]
    let d := ((HmmDetector.mk c { }).trainRun [([normal], [normal])]).1
    d.isTrained = true ∧ d.Ready ∧
      d.partitioned.Covers (flow [2 ^ 1024]) ∧
      ¬∃ m, scoreLabeledFlows d [(flow [2 ^ 1024], true)] (1 / 2) = .ok m := by
  intro _ _ _ c flow normal
  have hflow : c.extractor.Extracts normal := by
    refine ExtractorChoice.extracts_flowFeature_iff.mpr fun p hp => ?_
    obtain ⟨length, hlength, rfl⟩ := List.mem_map.mp hp
    obtain rfl : length = 20000 := by simpa using hlength
    decide +kernel
  obtain ⟨p, hp, hscores, hcovers⟩ := HmmDetector.trainRun_memoryless (c := c) one_ne_zero rfl
    half_rate hflow
  rw [hp]
  have hkey : partitionKey (flow [2 ^ 1024]) = partitionKey normal := by decide +kernel
  have hc : p.Covers (flow [2 ^ 1024]) := by
    rw [hcovers, hkey]
    decide
  refine ⟨?_, hscores, hc, fun h => ?_⟩
  · obtain ⟨m, hm, hcal⟩ := hc
    exact List.any_eq_true.mpr ⟨_, Dict.mem_entries_iff.mpr hm, hcal⟩
  · have hext := ((exists_scoreLabeledFlows_iff ScikitLearn.documented_exact hscores).mp h).extracts
      _ (List.mem_singleton_self _) hc
    have hlen := ExtractorChoice.extracts_flowFeature_iff.mp hext
      ⟨.inbound, 2 ^ 1024, .finite 0, []⟩ List.mem_cons_self
    exact not_floatRange_two_pow hlen

end Waf
