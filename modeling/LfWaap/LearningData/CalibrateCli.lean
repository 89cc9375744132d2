import LfWaap.Application.CalibrateModel
import LfWaap.Hmm.Accounting
import LfWaap.LearningData.BalancedSampler
import LfWaap.LearningData.CsicTrafficSource

/-!
# Evaluation on the command line

`learning_data.calibrate_cli.evaluate_model`: the stored detector scores the packets of a
file, taken in equal shares of both classes. The loop is written out once more here, over
records and their two label predicates; it keeps the same `Waf.Tally` as the scoring of
labelled flows (`LearningData.mapM_labelled`). It asks the detector about a record before it
looks at the label, so that it can also raise over a record without one
(`LearningData.exists_mapM_assessRecord_iff`).
-/

namespace LearningData

open Python Waf

variable [Interpreter] [Libraries]

/-! ### Summaries -/

omit [Interpreter] [Libraries] in
/-- The summary of the scores of one class. -/
structure ScoreStats where
  count : ℕ
  mean : EReal
  std : ℝ
  minimum : EReal
  maximum : EReal

omit [Interpreter] [Libraries] in
/-- The summary of no score is zero throughout. -/
noncomputable def scoreStats (scores : List EReal) : ScoreStats :=
  if scores.length = 0 then ⟨0, 0, 0, 0, 0⟩
  else
    let mean := scores.sum / scores.length
    { count := scores.length
      mean := mean
      std := √((scores.map fun score => (score - mean).toReal ^ 2).sum / scores.length)
      minimum := scores.foldl min ⊤
      maximum := scores.foldl max ⊥ }

/-! ### The evaluation -/

omit [Libraries] in
/-- Everything a report needs. -/
structure EvaluationOutcome where
  detector : HmmDetector
  report : Option EvaluationReport
  classification : Option ClassificationMetrics
  normalStats : ScoreStats
  attackStats : ScoreStats
  covered : ℕ
  uncovered : ℕ
  targetFpr : ℝ

/-- One record is scored. -/
noncomputable def evalStep (detector : HmmDetector) (t : Tally) (record : PacketRecord) :
    Except PyError Tally := do
  let assessment ← detector.assessFlow (recordToFlow record)
  if assessment.covered = false then return t.addUncovered
  else if record.isNormal then return t.addCovered.addNormal assessment
  else if record.isAnomalous then return t.addCovered.addAttack assessment
  else return t.addCovered

/-- **Evaluating the stored detector** on a file. -/
noncomputable def evaluateModel [ScikitLearn] (evalCsv : CsvFile)
    (repository : PickleModelRepository) (targetFpr : ℝ := 1 / 100) (limit : Option ℤ := none) :
    Except PyError EvaluationOutcome := do
  let detector ← repository.load
  let t ← (iterBalancedPackets evalCsv limit).foldM (evalStep detector) { }
  let (report, classification) ← t.metrics targetFpr
  return {
    detector := detector
    report := report
    classification := classification
    normalStats := scoreStats t.normalScores
    attackStats := scoreStats t.attackScores
    covered := t.covered
    uncovered := t.uncovered
    targetFpr := targetFpr }

/-! ### One record -/

omit [Interpreter] [Libraries] in
/-- The record is labelled. -/
def PacketRecord.isLabelled (record : PacketRecord) : Bool := record.isNormal || record.isAnomalous

omit [Interpreter] [Libraries] in
/-- The class of a record, if it has a label. -/
def PacketRecord.attack? (record : PacketRecord) : Option Bool :=
  if record.isNormal = true then some false
  else if record.isAnomalous = true then some true
  else none

omit [Libraries] in
theorem PacketRecord.attack?_eq_none_iff {record : PacketRecord} :
    record.attack? = none ↔ record.isLabelled = false := by
  rw [attack?, isLabelled, Bool.or_eq_false_iff]
  split_ifs <;> simp_all

omit [Libraries] in
theorem PacketRecord.attack?_of_isLabelled {record : PacketRecord}
    (h : record.isLabelled = true) : record.attack? = some record.isAnomalous := by
  rw [attack?]
  rcases Bool.or_eq_true_iff.mp h with hn | ha
  · rw [if_pos hn, PacketRecord.not_isAnomalous_of_isNormal hn]
  · rw [if_neg, if_pos ha, ha]
    rw [PacketRecord.not_isNormal_of_isAnomalous ha]
    exact Bool.false_ne_true

/-- The labelled flow of a record. -/
def labeledFlow (record : PacketRecord) : Flow × Bool := (recordToFlow record, record.isAnomalous)

/-- The assessment of a record. -/
noncomputable def assessRecord (d : HmmDetector) (record : PacketRecord) :
    Except PyError Assessed :=
  (d.assessFlow (recordToFlow record)).map fun a => (a, record.attack?)

theorem evalStep_eq (d : HmmDetector) (t : Tally) (record : PacketRecord) :
    evalStep d t record = (assessRecord d record).map t.add := by
  rw [evalStep, assessRecord]
  cases d.assessFlow (recordToFlow record) with
  | error e => rfl
  | ok a =>
    show _ = Except.ok (t.add (a, record.attack?))
    rw [ok_bind, Tally.add, PacketRecord.attack?]
    split_ifs <;> rfl

/-- A record becomes a flow without packets, which every extractor measures; so it is assessed
unless hmmlearn's `score` raises. -/
theorem exists_assessRecord_iff {d : HmmDetector} {record : PacketRecord} :
    (∃ e, assessRecord d record = .ok e) ↔ d.partitioned.Accepts (recordToFlow record) := by
  have hext : d.settings.extractor.Extracts (recordToFlow record) :=
    d.settings.extractor.extract_isOk _ (Flow.measurable_of_packets_eq_nil rfl)
  have hassess : (∃ a, d.partitioned.assess (recordToFlow record) = .ok a) ↔ _ :=
    PartitionedHmm.assess_isOk_iff
  rw [and_iff_right fun _ => hext] at hassess
  rw [← hassess]
  constructor
  · rintro ⟨e, he⟩
    obtain ⟨a, ha, -⟩ := exists_of_map_eq_ok he
    exact ⟨a, ha⟩
  · rintro ⟨a, ha⟩
    exact ⟨_, congrArg (Except.map _) ha⟩

/-- The assessment of a labelled record is that of its labelled flow. -/
theorem assessRecord_of_isLabelled {d : HmmDetector} {record : PacketRecord}
    (h : record.isLabelled = true) :
    assessRecord d record = assessLabeled d (labeledFlow record) := by
  rw [assessRecord, PacketRecord.attack?_of_isLabelled h]
  rfl

/-! ### All records -/

omit [Libraries] in
/-- With a limit, every record of the sample has a label. -/
theorem isLabelled_of_limit {csv : CsvFile} {limit : ℤ} :
    ∀ record ∈ (iterBalancedPackets csv (some limit)).yields, record.isLabelled = true := by
  intro record hmem
  rw [iterBalancedPackets_eq] at hmem
  exact Bool.or_eq_true_iff.mpr (Words.of_mem_firstOfBoth hmem)

theorem foldlM_evalStep (d : HmmDetector) (records : List PacketRecord) :
    records.foldlM (evalStep d) { } = (records.mapM (assessRecord d)).map tallyOf := by
  rw [show evalStep d = fun t r => (assessRecord d r).map (Tally.add t) from
    funext fun t => funext fun r => evalStep_eq d t r]
  exact foldlM_map_eq (assessRecord d) Tally.add records { }

/-- **The labelled flows are assessed** as their records are. -/
theorem mapM_labelled {d : HmmDetector} {records : List PacketRecord} {as : List Assessed}
    (h : records.mapM (assessRecord d) = .ok as) :
    ((records.filter PacketRecord.isLabelled).map labeledFlow).mapM (assessLabeled d) =
      .ok (as.filter fun e => e.2.isSome) := by
  induction records generalizing as with
  | nil =>
    obtain rfl := Except.ok.inj h
    rfl
  | cons record records ih =>
    obtain ⟨e, as', he, has, rfl⟩ := mapM_cons_eq_ok_iff.mp h
    have hlabel : e.2 = record.attack? := by
      obtain ⟨a, -, rfl⟩ := exists_of_map_eq_ok he
      rfl
    cases hl : record.isLabelled with
    | true =>
      have hsome : e.2.isSome = true := by
        rw [hlabel, PacketRecord.attack?_of_isLabelled hl]
        rfl
      rw [List.filter_cons_of_pos hl,
        List.filter_cons_of_pos (p := fun e : Assessed => e.2.isSome) hsome, List.map_cons]
      exact mapM_cons_eq_ok_iff.mpr ⟨e, _, assessRecord_of_isLabelled hl ▸ he, ih has, rfl⟩
    | false =>
      have hnone : ¬e.2.isSome = true := by
        rw [hlabel, PacketRecord.attack?_eq_none_iff.mpr hl]
        exact Bool.false_ne_true
      rw [List.filter_cons_of_neg (by rw [hl]; exact Bool.false_ne_true),
        List.filter_cons_of_neg (p := fun e : Assessed => e.2.isSome) hnone]
      exact ih has

/-- **All records are assessed** exactly if the labelled flows are, and hmmlearn's `score` does not
raise on a record without a label. -/
theorem exists_mapM_assessRecord_iff {d : HmmDetector} {records : List PacketRecord} :
    (∃ as, records.mapM (assessRecord d) = .ok as) ↔
      (∃ bs, ((records.filter PacketRecord.isLabelled).map labeledFlow).mapM (assessLabeled d) =
        .ok bs) ∧
      ∀ record ∈ records, record.isLabelled = false →
        d.partitioned.Accepts (recordToFlow record) := by
  constructor
  · rintro ⟨as, has⟩
    exact ⟨⟨_, mapM_labelled has⟩, fun record hmem _ =>
      exists_assessRecord_iff.mp (exists_of_mem_of_mapM has hmem)⟩
  · rintro ⟨⟨bs, hbs⟩, hacc⟩
    refine exists_mapM_eq_ok _ _ fun record hmem => ?_
    cases hl : record.isLabelled with
    | true =>
      rw [assessRecord_of_isLabelled hl]
      exact exists_of_mem_of_mapM hbs
        (List.mem_map_of_mem (List.mem_filter.mpr ⟨hmem, hl⟩))
    | false => exact exists_assessRecord_iff.mpr (hacc record hmem hl)

end LearningData
