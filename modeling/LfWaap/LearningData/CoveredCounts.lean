import LfWaap.LearningData.CalibrateCli

/-!
# What the command line counts as covered

`learning_data.calibrate_cli.evaluate_model` counts a record as covered before it looks at
its label. A record without a label adds to no score and to no entry of the confusion
matrix, so the entries add up to the covered records exactly if none of these lacks a label
(`LearningData.EvaluationOutcome.accounts_iff`). With a limit the sampler lets no other
record through; without one it lets all of them through.

`learning_data.calibrate_cli.compare_models` drops records without a label before it scores
anything. Its counts are the same exactly if there is no such record, covered or not.
-/

namespace LearningData

open Python Waf

variable [Interpreter] [Libraries]

/-! ### An outcome and its tally -/

omit [Interpreter] [Libraries] in
theorem scoreStats_count (scores : List EReal) : (scoreStats scores).count = scores.length := by
  rw [scoreStats]
  split
  · next h => exact h.symm
  · rfl

/-- **What an outcome reports** is read off the tally of the records of the file. -/
theorem evaluateModel_eq_ok [ScikitLearn] {evalCsv : CsvFile} {repository : PickleModelRepository}
    {targetFpr : ℝ} {limit : Option ℤ} {outcome : EvaluationOutcome}
    (h : evaluateModel evalCsv repository targetFpr limit = .ok outcome) :
    ∃ as, (iterBalancedPackets evalCsv limit).yields.mapM (assessRecord outcome.detector) = .ok as ∧
      (tallyOf as).metrics targetFpr = .ok (outcome.report, outcome.classification) ∧
      outcome.covered = (tallyOf as).covered ∧ outcome.uncovered = (tallyOf as).uncovered ∧
      outcome.normalStats.count = (tallyOf as).normalScores.length ∧
      outcome.attackStats.count = (tallyOf as).attackScores.length := by
  obtain ⟨d, -, h⟩ := exists_of_bind_eq_ok h
  obtain ⟨t, ht, h⟩ := exists_of_bind_eq_ok h
  obtain ⟨⟨report, classification⟩, hm, h⟩ := exists_of_bind_eq_ok h
  obtain rfl := Except.ok.inj h
  -- the loop returns, so the file has been read to its end
  have hfold : (iterBalancedPackets evalCsv limit).yields.foldlM (evalStep d) { } = .ok t := by
    rw [Generator.foldM] at ht
    split at ht
    · cases ht
    · next s hs =>
      split at ht
      · rw [hs, Except.ok.inj ht]
      · cases ht
  rw [foldlM_evalStep] at hfold
  obtain ⟨as, has, rfl⟩ := exists_of_map_eq_ok hfold
  exact ⟨as, has, hm, rfl, rfl, scoreStats_count _, scoreStats_count _⟩

omit [Interpreter] [Libraries] in
/-- The confusion matrix that is reported is that of the tally. -/
theorem matrix_of_metrics [ScikitLearn] {t : Tally} {targetFpr : ℝ}
    {report : Option EvaluationReport} {m : ClassificationMetrics}
    (h : t.metrics targetFpr = .ok (report, some m)) :
    t.normalScores ≠ [] ∧ t.attackScores ≠ [] ∧ (∃ r, report = some r) ∧
      m = classificationMetrics t.tp t.fp t.fn t.tn := by
  rw [Tally.metrics] at h
  split at h
  · next hne =>
    obtain ⟨r, -, h⟩ := exists_of_bind_eq_ok h
    obtain ⟨hr, hm⟩ := Prod.mk.inj (Except.ok.inj h)
    exact ⟨hne.1, hne.2, ⟨r, hr.symm⟩, (Option.some.inj hm).symm⟩
  · cases (Prod.mk.inj (Except.ok.inj h)).2

/-- **The entries of the confusion matrix are the covered records** exactly if each of these
has a label. -/
theorem tallyOf_assessRecord_iff {d : HmmDetector} {records : List PacketRecord}
    {as : List Assessed} (h : records.mapM (assessRecord d) = .ok as) :
    (tallyOf as).normalScores.length + (tallyOf as).attackScores.length = (tallyOf as).covered ↔
      ∀ record ∈ records, d.partitioned.Covers (recordToFlow record) →
        record.isLabelled = true := by
  rw [tallyOf_scores_iff]
  constructor
  · intro hall record hmem hcov
    obtain ⟨e, he, hrec⟩ := exists_mem_values h hmem
    obtain ⟨a, ha, rfl⟩ := exists_of_map_eq_ok hrec
    by_contra hl
    rw [Bool.not_eq_true] at hl
    exact hall _ he ((HmmDetector.covered_iff ha).mpr hcov)
      (PacketRecord.attack?_eq_none_iff.mpr hl)
  · intro hall e he hc hnone
    obtain ⟨record, hmem, hrec⟩ := exists_of_mem_values h he
    obtain ⟨a, ha, rfl⟩ := exists_of_map_eq_ok hrec
    have hl := hall record hmem ((HmmDetector.covered_iff ha).mp hc)
    rw [PacketRecord.attack?_eq_none_iff.mp hnone] at hl
    exact Bool.false_ne_true hl

/-! ### The population of a comparison -/

/-- The labelled flows on which `compare_models` evaluates its variants. -/
def labeledEval (evalCsv : CsvFile) (limit : Option ℤ) : Generator (Flow × Bool) :=
  ((iterBalancedPackets evalCsv limit).filter PacketRecord.isLabelled).map labeledFlow

theorem mapM_assessRecord {d : HmmDetector} {records : List PacketRecord}
    (h : ∀ record ∈ records, record.isLabelled = true) :
    records.mapM (assessRecord d) = (records.map labeledFlow).mapM (assessLabeled d) := by
  induction records with
  | nil => rfl
  | cons record records ih =>
    rw [List.map_cons, List.mapM_cons, List.mapM_cons,
      assessRecord_of_isLabelled (h record List.mem_cons_self),
      ih fun r hr => h r (List.mem_cons_of_mem _ hr)]

/-- **The scores of a comparison** are those of the outcome; its counts are the same exactly
if every record has a label. -/
theorem scoreLabeledFlows_labeledEval [ScikitLearn] {evalCsv : CsvFile}
    {repository : PickleModelRepository} {targetFpr : ℝ} {limit : Option ℤ}
    {outcome : EvaluationOutcome}
    (h : evaluateModel evalCsv repository targetFpr limit = .ok outcome) :
    ∃ scored, scoreLabeledFlows outcome.detector (labeledEval evalCsv limit).yields targetFpr =
        .ok scored ∧
      scored.report = outcome.report ∧ scored.classification = outcome.classification ∧
      ((outcome.covered = scored.covered ∧ outcome.uncovered = scored.uncovered) ↔
        ∀ record ∈ (iterBalancedPackets evalCsv limit).yields, record.isLabelled = true) := by
  obtain ⟨as, has, hm, hcov, huncov, -, -⟩ := evaluateModel_eq_ok h
  have hyields : (labeledEval evalCsv limit).yields =
      ((iterBalancedPackets evalCsv limit).yields.filter PacketRecord.isLabelled).map
        labeledFlow := rfl
  rw [hyields]
  generalize (iterBalancedPackets evalCsv limit).yields = records at has
  have hbs := mapM_labelled has
  have hagree := tallyOf_agree_filter as
  generalize (as.filter fun e => e.2.isSome) = bs at hbs hagree
  refine ⟨⟨outcome.report, outcome.classification, (tallyOf bs).covered, (tallyOf bs).uncovered,
    (tallyOf bs).normalScores.length, (tallyOf bs).attackScores.length⟩, ?_, rfl, rfl, ?_⟩
  · rw [scoreLabeledFlows, foldlM_scoreStep, hbs]
    show ((tallyOf bs).metrics targetFpr >>= _) = _
    rw [← hagree.metrics, hm]
    rfl
  · rw [hcov, huncov]
    constructor
    · rintro ⟨hc, hu⟩
      -- as many records as labelled ones
      have hlen := (tallyOf_conserves as).1
      rw [hc, hu, (tallyOf_conserves bs).1, length_of_mapM has, length_of_mapM hbs,
        List.length_map] at hlen
      exact fun record hmem => List.length_filter_eq_length_iff.mp hlen record hmem
    · intro hall
      rw [List.filter_eq_self.mpr hall, ← mapM_assessRecord hall, has] at hbs
      rw [Except.ok.inj hbs]
      exact ⟨rfl, rfl⟩

/-! ### Evaluations that return -/

/-- A covered record of a class is assessed as one. -/
theorem exists_assessed_of_covers {d : HmmDetector} {records : List PacketRecord}
    {as : List Assessed} (has : records.mapM (assessRecord d) = .ok as) {b : Bool}
    (h : ∃ record ∈ records, d.partitioned.Covers (recordToFlow record) ∧
      record.attack? = some b) : ∃ e ∈ as, e.1.covered = true ∧ e.2 = some b := by
  obtain ⟨record, hmem, hcov, hb⟩ := h
  obtain ⟨e, he, hrec⟩ := exists_mem_values has hmem
  obtain ⟨a, ha, rfl⟩ := exists_of_map_eq_ok hrec
  exact ⟨_, he, (HmmDetector.covered_iff ha).mpr hcov, hb⟩

/-- **An evaluation returns** if the file is read to its end, hmmlearn's `score` does not raise on
a record, and the libraries report on the scores; with a covered record of each class there are
metrics. -/
theorem exists_evaluateModel [ScikitLearn] {evalCsv : CsvFile} {repository : PickleModelRepository}
    {d : HmmDetector} {targetFpr : ℝ} {limit : Option ℤ} (hd : repository.load = .ok d)
    (hr : (iterBalancedPackets evalCsv limit).raised = none)
    (hacc : ∀ record ∈ (iterBalancedPackets evalCsv limit).yields,
      d.partitioned.Accepts (recordToFlow record))
    (he : ∀ normalScores attackScores,
      ∃ r, Waf.evaluate normalScores attackScores targetFpr = .ok r)
    (hboth : ∀ b : Bool, ∃ record ∈ (iterBalancedPackets evalCsv limit).yields,
      d.partitioned.Covers (recordToFlow record) ∧ record.attack? = some b) :
    ∃ outcome m, evaluateModel evalCsv repository targetFpr limit = .ok outcome ∧
      outcome.detector = d ∧ outcome.classification = some m := by
  obtain ⟨as, has⟩ := exists_mapM_eq_ok (assessRecord d)
    (iterBalancedPackets evalCsv limit).yields fun record hmem =>
      exists_assessRecord_iff.mpr (hacc record hmem)
  have hfold : (iterBalancedPackets evalCsv limit).foldM (evalStep d) { } = .ok (tallyOf as) := by
    rw [Generator.foldM, foldlM_evalStep, has, hr]
    rfl
  have hscores : ∀ b : Bool, ∃ e ∈ as, e.1.covered = true ∧ e.2 = some b := fun b =>
    exists_assessed_of_covers has (hboth b)
  obtain ⟨hn, ha⟩ := tallyOf_scores_ne_nil as
  obtain ⟨r, hreport⟩ := he (tallyOf as).normalScores (tallyOf as).attackScores
  have hm : (tallyOf as).metrics targetFpr = .ok (some r, some (classificationMetrics
      (tallyOf as).tp (tallyOf as).fp (tallyOf as).fn (tallyOf as).tn)) := by
    rw [Tally.metrics, if_pos ⟨hn.mpr (hscores false), ha.mpr (hscores true)⟩, hreport]
    rfl
  rw [evaluateModel, hd, ok_bind, hfold, ok_bind, hm]
  exact ⟨_, _, rfl, rfl, rfl⟩

omit [Interpreter] [Libraries] in
/-- The detector trained on one request has metrics on every file whose records are of its
partition and of both classes. -/
theorem exists_evaluateModel_one :
    let _ : Interpreter := .ascii
    let _ : Libraries := .memoryless
    let _ : ScikitLearn := .ties
    let c : HmmSettings :=
      { extractor := byteClassExtractor, nStates := 1, minTrain := 1, targetFpr := 1 / 2 }
    let flow := Flow.new (text "http") 80 .inbound [71, 69, 84]
    let d := (HmmDetector.train ⟨c, { }⟩ [flow] [flow]).1
    ∀ csv : CsvFile, (iterPackets csv).raised = none →
      (∀ record ∈ (iterPackets csv).yields,
        partitionKey (recordToFlow record) = partitionKey flow) →
      (∀ b : Bool, some b ∈ (iterPackets csv).yields.map PacketRecord.attack?) →
      (∀ record ∈ (iterPackets csv).yields, d.partitioned.Covers (recordToFlow record)) ∧
      ∃ outcome m, evaluateModel csv ⟨some d⟩ (1 / 10) = .ok outcome ∧ outcome.detector = d ∧
        outcome.classification = some m := by
  intro _ _ _ c flow d csv hr hk hboth
  have hcov : ∀ record ∈ (iterPackets csv).yields, d.partitioned.Covers (recordToFlow record) :=
    fun record hmem => HmmDetector.covers_one _ (hk record hmem)
  have hrate : (0 : ℝ) < 1 / 10 ∧ (1 / 10 : ℝ) ≤ 1 := ⟨by norm_num, by norm_num⟩
  refine ⟨hcov, exists_evaluateModel (PickleModelRepository.load_save { } d) hr
    (fun record _ => HmmDetector.accepts_one _) (exists_evaluate_ties hrate) fun b => ?_⟩
  obtain ⟨record, hmem, hb⟩ := List.mem_map.mp (hboth b)
  exact ⟨record, hmem, hcov record hmem, hb⟩

/-! ### What the outcome accounts for -/

/-- **The confusion matrix of an evaluation and its counts.** Whenever there are
classification metrics: the entries of the matrix add up to the covered records, and so do
the scores of the two classes, exactly if each covered record has a label; a comparison on
the same file counts the same records as covered and as uncovered exactly if all records
have; and with a limit all have. -/
theorem EvaluationOutcome.accounts_iff [ScikitLearn] {evalCsv : CsvFile}
    {repository : PickleModelRepository} {targetFpr : ℝ} {limit : Option ℤ}
    {outcome : EvaluationOutcome}
    (h : evaluateModel evalCsv repository targetFpr limit = .ok outcome)
    {m : ClassificationMetrics} (hm : outcome.classification = some m) :
    (m.tp + m.fp + m.fn + m.tn = outcome.covered ∧
        outcome.normalStats.count + outcome.attackStats.count = outcome.covered ↔
      ∀ record ∈ (iterBalancedPackets evalCsv limit).yields,
        outcome.detector.partitioned.Covers (recordToFlow record) → record.isLabelled = true) ∧
    (∃ scored, scoreLabeledFlows outcome.detector (labeledEval evalCsv limit).yields targetFpr =
        .ok scored ∧
      (outcome.covered = scored.covered ∧ outcome.uncovered = scored.uncovered ↔
        ∀ record ∈ (iterBalancedPackets evalCsv limit).yields, record.isLabelled = true)) ∧
    (limit ≠ none →
      ∀ record ∈ (iterBalancedPackets evalCsv limit).yields, record.isLabelled = true) := by
  obtain ⟨scored, hscored, -, -, hcounts⟩ := scoreLabeledFlows_labeledEval h
  refine ⟨?_, ⟨scored, hscored, hcounts⟩, ?_⟩
  · obtain ⟨as, has, hmetrics, hcov, -, hn, ha⟩ := evaluateModel_eq_ok h
    rw [hm] at hmetrics
    obtain ⟨-, -, -, rfl⟩ := matrix_of_metrics hmetrics
    obtain ⟨-, hattack, hnormal⟩ := tallyOf_conserves as
    rw [← tallyOf_assessRecord_iff has, hn, ha, hcov]
    show (tallyOf as).tp + (tallyOf as).fp + (tallyOf as).fn + (tallyOf as).tn = _ ∧ _ ↔ _
    constructor
    · exact And.right
    · intro heq
      exact ⟨by omega, heq⟩
  · intro hlimit
    obtain ⟨l, rfl⟩ := Option.ne_none_iff_exists'.mp hlimit
    exact isLabelled_of_limit

omit [Interpreter] [Libraries] in
/-- A file of a normal and an anomalous record: all that is covered is accounted for. -/
theorem EvaluationOutcome.accounts_two :
    let _ : Interpreter := .ascii
    let _ : Libraries := .memoryless
    let _ : ScikitLearn := .ties
    let c : HmmSettings :=
      { extractor := byteClassExtractor, nStates := 1, minTrain := 1, targetFpr := 1 / 2 }
    let flow := Flow.new (text "http") 80 .inbound [71, 69, 84]
    let d := (HmmDetector.train ⟨c, { }⟩ [flow] [flow]).1
    let csv : CsvFile :=
      { rows := ⟨[[text "URL", text "class"], [text "/", text "normal"],
          [text "/", text "anomalous"]], none⟩
        latin1 := by decide }
    ∃ outcome m, evaluateModel csv ⟨some d⟩ (1 / 10) = .ok outcome ∧
      outcome.classification = some m ∧ m.tp + m.fp + m.fn + m.tn = outcome.covered ∧
      outcome.normalStats.count + outcome.attackStats.count = outcome.covered := by
  intro _ _ _ c flow d csv
  have hlabels : (iterPackets csv).yields.map PacketRecord.attack? = [some false, some true] := by
    decide +kernel
  obtain ⟨-, outcome, m, h, -, hm⟩ := exists_evaluateModel_one csv (by decide +kernel)
    (by decide +kernel) (by rw [hlabels]; decide)
  refine ⟨outcome, m, h, hm, (accounts_iff h hm).1.mpr fun record hmem _ => ?_⟩
  have hall : ∀ record ∈ (iterPackets csv).yields, record.isLabelled = true := by decide +kernel
  exact hall record hmem

/-- If a covered record lacks a label, neither the matrix nor the scores add up to the
covered records. -/
theorem ne_covered_of_unlabelled [ScikitLearn] {evalCsv : CsvFile}
    {repository : PickleModelRepository} {targetFpr : ℝ} {limit : Option ℤ}
    {outcome : EvaluationOutcome}
    (h : evaluateModel evalCsv repository targetFpr limit = .ok outcome)
    {m : ClassificationMetrics} (hm : outcome.classification = some m) {record : PacketRecord}
    (hmem : record ∈ (iterBalancedPackets evalCsv limit).yields)
    (hcov : outcome.detector.partitioned.Covers (recordToFlow record))
    (hl : record.isLabelled = false) :
    m.tp + m.fp + m.fn + m.tn ≠ outcome.covered ∧
      outcome.normalStats.count + outcome.attackStats.count ≠ outcome.covered := by
  obtain ⟨as, has, hmetrics, hcovered, -, hn, ha⟩ := evaluateModel_eq_ok h
  rw [hm] at hmetrics
  obtain ⟨-, -, -, rfl⟩ := matrix_of_metrics hmetrics
  obtain ⟨-, hattack, hnormal⟩ := tallyOf_conserves as
  have hne : (tallyOf as).normalScores.length + (tallyOf as).attackScores.length ≠
      (tallyOf as).covered := by
    intro heq
    have := (tallyOf_assessRecord_iff has).mp heq record hmem hcov
    rw [hl] at this
    exact Bool.false_ne_true this
  rw [hn, ha, hcovered]
  refine ⟨?_, hne⟩
  show (tallyOf as).tp + (tallyOf as).fp + (tallyOf as).fn + (tallyOf as).tn ≠ _
  omega

omit [Interpreter] [Libraries] in
/-- A file with a third record, whose label is unknown. -/
theorem EvaluationOutcome.not_accounts_unlabelled :
    let _ : Interpreter := .ascii
    let _ : Libraries := .memoryless
    let _ : ScikitLearn := .ties
    let c : HmmSettings :=
      { extractor := byteClassExtractor, nStates := 1, minTrain := 1, targetFpr := 1 / 2 }
    let flow := Flow.new (text "http") 80 .inbound [71, 69, 84]
    let d := (HmmDetector.train ⟨c, { }⟩ [flow] [flow]).1
    let csv : CsvFile :=
      { rows := ⟨[[text "URL", text "class"], [text "/", text "normal"],
          [text "/", text "anomalous"], [text "/", text "unknown"]], none⟩
        latin1 := by decide }
    ∃ outcome m, evaluateModel csv ⟨some d⟩ (1 / 10) = .ok outcome ∧
      outcome.classification = some m ∧ m.tp + m.fp + m.fn + m.tn ≠ outcome.covered ∧
      outcome.normalStats.count + outcome.attackStats.count ≠ outcome.covered := by
  intro _ _ _ c flow d csv
  have hlabels : (iterPackets csv).yields.map PacketRecord.attack? =
      [some false, some true, none] := by
    decide +kernel
  obtain ⟨hcov, outcome, m, h, hd, hm⟩ := exists_evaluateModel_one csv (by decide +kernel)
    (by decide +kernel) (by rw [hlabels]; decide)
  obtain ⟨record, hmem, hnone⟩ := List.mem_map.mp (hlabels ▸ by decide :
    none ∈ (iterPackets csv).yields.map PacketRecord.attack?)
  exact ⟨outcome, m, h, hm, ne_covered_of_unlabelled h hm hmem (hd ▸ hcov record hmem)
    (PacketRecord.attack?_eq_none_iff.mp hnone)⟩

end LearningData
