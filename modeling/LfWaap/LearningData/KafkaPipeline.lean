import LfWaap.LearningData.CalibrateCli
import LfWaap.Streaming.Evaluation

/-!
# Evaluation through the pipe

`learning_data.kafka_pipeline`: the labelled flows of a file are published on a topic, and
a stored detector is evaluated on what the topic holds.

This is the second way to evaluate a detector on a file; the first one reads the file
itself. Between the two lie a filter, the codec, the channel, and a loop over labels in the
place of one over records. Of all these only the filter is seen in the result: a record without a
label is not published, but the first way asks the detector about it, and raises where hmmlearn's
`score` does. Where it does not, the two ways report the same
(`LearningData.evaluateFromPipe_produceEval`).
-/

namespace LearningData

open Python Waf

variable [Interpreter] [Libraries]

omit [Interpreter] [Libraries] in
/-- The topic of labelled flows. -/
def evalTopic : Text := text "waf.eval.labeled"

omit [Libraries] in
/-- The message of a record. -/
def labeledMessage (record : PacketRecord) : Bytes :=
  encodeLabeledFlow (recordToFlow record) record.isAnomalous

omit [Libraries] in
/-- One record is published, if it is labelled. -/
def produceStep (published : InMemoryChannel × ℕ) (record : PacketRecord) : InMemoryChannel × ℕ :=
  if record.isNormal = true ∨ record.isAnomalous = true then
    (published.1.publish evalTopic (labeledMessage record), published.2 + 1)
  else published

omit [Libraries] in
/-- **Publishing a file for evaluation**: the channel it leaves behind, and the number of
messages. -/
def produceEval (channel : InMemoryChannel) (evalCsv : CsvFile) (limit : Option ℤ := none) :
    InMemoryChannel × Except PyError ℕ :=
  match (iterBalancedPackets evalCsv limit).forEach (fun s r => (produceStep s r, none))
    (channel, 0) with
  | ((channel, count), none) => (channel, .ok count)
  | ((channel, _), some e) => (channel, .error e)

/-- **Evaluating the stored detector** on the topic. -/
noncomputable def evaluateFromPipe [ScikitLearn] (channel : InMemoryChannel)
    (repository : PickleModelRepository) (targetFpr : ℝ := 5 / 100) :
    Except PyError ScoredMetrics := do
  let detector ← repository.load
  evaluateStream detector { channel := channel } targetFpr

/-! ### What is published -/

omit [Libraries] in
theorem foldl_produceStep (records : List PacketRecord) (channel : InMemoryChannel) (count : ℕ) :
    records.foldl produceStep (channel, count) =
      (channel.publishAll evalTopic
          ((records.filter PacketRecord.isLabelled).map labeledMessage),
        count + (records.filter PacketRecord.isLabelled).length) := by
  induction records generalizing channel count with
  | nil => rfl
  | cons record records ih =>
    rw [List.foldl_cons, List.filter_cons, produceStep]
    by_cases h : record.isNormal = true ∨ record.isAnomalous = true
    · have hl : record.isLabelled = true := Bool.or_eq_true_iff.mpr h
      rw [if_pos h, ih, if_pos hl, List.map_cons, List.length_cons]
      congr 1
      omega
    · have hl : record.isLabelled = false := by
        rw [not_or, Bool.not_eq_true, Bool.not_eq_true] at h
        exact Bool.or_eq_false_iff.mpr h
      rw [if_neg h, ih, if_neg (by rw [hl]; exact Bool.false_ne_true)]

omit [Libraries] in
/-- **What publishing can do**: it raises where reading the file does, and leaves the
messages of the labelled records behind. -/
theorem produceEval_eq (channel : InMemoryChannel) (evalCsv : CsvFile) (limit : Option ℤ) :
    produceEval channel evalCsv limit =
      let packets := iterBalancedPackets evalCsv limit
      let labelled := packets.yields.filter PacketRecord.isLabelled
      (channel.publishAll evalTopic (labelled.map labeledMessage),
        match packets.raised with
        | none => .ok labelled.length
        | some e => .error e) := by
  unfold produceEval
  rw [Generator.forEach_of_total, foldl_produceStep]
  dsimp only
  cases (iterBalancedPackets evalCsv limit).raised with
  | none => rw [Nat.zero_add]
  | some e => rfl

omit [Libraries] in
/-- Publishing returns exactly if the file is read to its end. -/
theorem exists_produceEval_iff (channel : InMemoryChannel) {evalCsv : CsvFile} {limit : Option ℤ} :
    (∃ n, (produceEval channel evalCsv limit).2 = .ok n) ↔
      (iterBalancedPackets evalCsv limit).raised = none := by
  rw [produceEval_eq]
  dsimp only
  cases (iterBalancedPackets evalCsv limit).raised with
  | none => exact iff_of_true ⟨_, rfl⟩ rfl
  | some e => exact iff_of_false not_exists_error_eq_ok (Option.some_ne_none e)

omit [Libraries] in
/-- The flow of a record survives the codec. -/
theorem transmissible_recordToFlow (record : PacketRecord) :
    (recordToFlow record).Transmissible := by
  have hascii : AsciiText (recordToFlow record).protocol := by
    change AsciiText (lower (text "http"))
    rw [Interpreter.lower_ascii _ (by decide)]
    decide
  exact ⟨noSurrogatePair_of_ascii hascii, nofun⟩

omit [Libraries] in
/-- A topic that held nothing holds the labelled flows of the file. -/
theorem labeled_produceEval {channel : InMemoryChannel} (htopic : channel.poll evalTopic = [])
    (records : List PacketRecord) :
    let source : StreamingLabeledSource :=
      { channel := channel.publishAll evalTopic (records.map labeledMessage) }
    source.labeled.toList = .ok (records.map labeledFlow) := by
  refine StreamingLabeledSource.labeled_of_encoded ?_ ?_
  · intro x hx
    obtain ⟨record, -, rfl⟩ := List.mem_map.mp hx
    exact transmissible_recordToFlow record
  · change (channel.publishAll evalTopic _).poll evalTopic = _
    rw [InMemoryChannel.poll_publishAll, if_pos rfl, htopic, List.nil_append, List.map_map]
    rfl

/-! ### The two ways to evaluate -/

omit [Libraries] in
/-- What both ways report. -/
def metricsOfOutcome (outcome : EvaluationOutcome) :
    Option EvaluationReport × Option ClassificationMetrics :=
  (outcome.report, outcome.classification)

omit [Interpreter] [Libraries] in
/-- What both ways report. -/
def metricsOfScored (scored : ScoredMetrics) :
    Option EvaluationReport × Option ClassificationMetrics :=
  (scored.report, scored.classification)

/-- **The two ways report the same**: what one of them reports, the other one does. -/
def SameMetrics [ScikitLearn] (channel : InMemoryChannel) (repository : PickleModelRepository)
    (evalCsv : CsvFile) (limit : Option ℤ) (targetFpr : ℝ) : Prop :=
  ∀ metrics, (evaluateModel evalCsv repository targetFpr limit).map metricsOfOutcome = .ok metrics ↔
    (∃ n, (produceEval channel evalCsv limit).2 = .ok n) ∧
      (evaluateFromPipe (produceEval channel evalCsv limit).1 repository targetFpr).map
        metricsOfScored = .ok metrics

section

variable [ScikitLearn] {repository : PickleModelRepository} {d : HmmDetector}
  {channel : InMemoryChannel} {evalCsv : CsvFile} {limit : Option ℤ} {targetFpr : ℝ}

/-- Of a file that is read to its end, the metrics of all assessments are reported. -/
theorem evaluateModel_metrics (hload : repository.load = .ok d)
    (hr : (iterBalancedPackets evalCsv limit).raised = none) :
    (evaluateModel evalCsv repository targetFpr limit).map metricsOfOutcome =
      (iterBalancedPackets evalCsv limit).yields.mapM (assessRecord d) >>= fun as =>
        (tallyOf as).metrics targetFpr := by
  rw [evaluateModel, hload, ok_bind, Generator.foldM, foldlM_evalStep, hr]
  cases (iterBalancedPackets evalCsv limit).yields.mapM (assessRecord d) with
  | error e => rfl
  | ok as =>
    show Except.map _ ((tallyOf as).metrics targetFpr >>= _) = (tallyOf as).metrics targetFpr
    cases (tallyOf as).metrics targetFpr with
    | error e => rfl
    | ok m => rfl

/-- Where reading raises, no record having done so, that is raised. -/
theorem evaluateModel_of_raised (hload : repository.load = .ok d) {e : PyError}
    (hr : (iterBalancedPackets evalCsv limit).raised = some e) {as : List Assessed}
    (has : (iterBalancedPackets evalCsv limit).yields.mapM (assessRecord d) = .ok as) :
    evaluateModel evalCsv repository targetFpr limit = .error e := by
  rw [evaluateModel, hload, ok_bind, Generator.foldM, foldlM_evalStep, has, hr]
  rfl

/-- Of a file that is not read to its end, nothing is reported. -/
theorem evaluateModel_ne_ok {e : PyError}
    (hr : (iterBalancedPackets evalCsv limit).raised = some e) (outcome : EvaluationOutcome) :
    evaluateModel evalCsv repository targetFpr limit ≠ .ok outcome := by
  intro h
  obtain ⟨d, -, h⟩ := exists_of_bind_eq_ok h
  obtain ⟨t, ht, -⟩ := exists_of_bind_eq_ok h
  rw [Generator.foldM, hr] at ht
  split at ht
  · cases ht
  · cases ht

/-- On a topic that held nothing, the labelled flows of the file are scored. -/
theorem evaluateFromPipe_metrics (hload : repository.load = .ok d)
    (htopic : channel.poll evalTopic = []) :
    (evaluateFromPipe (produceEval channel evalCsv limit).1 repository targetFpr).map
        metricsOfScored =
      (((iterBalancedPackets evalCsv limit).yields.filter PacketRecord.isLabelled).map
        labeledFlow).mapM (assessLabeled d) >>= fun bs => (tallyOf bs).metrics targetFpr := by
  rw [produceEval_eq, evaluateFromPipe, hload, ok_bind, evaluateStream,
    labeled_produceEval htopic, ok_bind, scoreLabeledFlows, foldlM_scoreStep]
  cases (((iterBalancedPackets evalCsv limit).yields.filter PacketRecord.isLabelled).map
    labeledFlow).mapM (assessLabeled d) with
  | error e => rfl
  | ok bs =>
    show Except.map _ ((tallyOf bs).metrics targetFpr >>= _) = (tallyOf bs).metrics targetFpr
    cases (tallyOf bs).metrics targetFpr with
    | error e => rfl
    | ok m => rfl

/-- If all records are assessed, both ways compute the same metrics. -/
theorem evaluateModel_eq_evaluateFromPipe (hload : repository.load = .ok d)
    (htopic : channel.poll evalTopic = [])
    (hr : (iterBalancedPackets evalCsv limit).raised = none) {as : List Assessed}
    (has : (iterBalancedPackets evalCsv limit).yields.mapM (assessRecord d) = .ok as) :
    (evaluateModel evalCsv repository targetFpr limit).map metricsOfOutcome =
      (evaluateFromPipe (produceEval channel evalCsv limit).1 repository targetFpr).map
        metricsOfScored := by
  rw [evaluateModel_metrics hload hr, evaluateFromPipe_metrics hload htopic, has,
    mapM_labelled has, ok_bind, ok_bind]
  exact (tallyOf_agree_filter as).metrics targetFpr

/-- **The two ways to evaluate a detector**, with a topic that held nothing. Where one of them
reports anything at all, they report the same exactly if hmmlearn's `score` does not raise on a
record without a label; with a limit there is no such record among those that are read. If it
raises on no record, publishing raises exactly what evaluating the file raises while it is read,
and once the file has been published, both evaluations report the same, or raise the same. -/
theorem evaluateFromPipe_produceEval (hload : repository.load = .ok d)
    (htopic : channel.poll evalTopic = []) (evalCsv : CsvFile) (limit : Option ℤ) (targetFpr : ℝ) :
    ((∃ outcome, evaluateModel evalCsv repository targetFpr limit = .ok outcome) ∨
        (∃ n, (produceEval channel evalCsv limit).2 = .ok n) ∧
          (∃ scored, evaluateFromPipe (produceEval channel evalCsv limit).1 repository targetFpr =
            .ok scored) →
      (SameMetrics channel repository evalCsv limit targetFpr ↔
        ∀ record ∈ (iterBalancedPackets evalCsv limit).yields, record.isLabelled = false →
          d.partitioned.Accepts (recordToFlow record))) ∧
    (limit ≠ none →
      ∀ record ∈ (iterBalancedPackets evalCsv limit).yields, record.isLabelled = true) ∧
    ((∀ record ∈ (iterBalancedPackets evalCsv limit).yields,
        d.partitioned.Accepts (recordToFlow record)) →
      (∀ e, (produceEval channel evalCsv limit).2 = .error e →
        evaluateModel evalCsv repository targetFpr limit = .error e) ∧
      ∀ n, (produceEval channel evalCsv limit).2 = .ok n →
        (evaluateModel evalCsv repository targetFpr limit).map metricsOfOutcome =
          (evaluateFromPipe (produceEval channel evalCsv limit).1 repository targetFpr).map
            metricsOfScored) := by
  refine ⟨fun hreports => ?_, fun hlimit => ?_, fun hacc => ?_⟩
  · -- a report is one of a file that has been read to its end
    have hr : (iterBalancedPackets evalCsv limit).raised = none := by
      cases hr : (iterBalancedPackets evalCsv limit).raised with
      | none => rfl
      | some e =>
        rcases hreports with ⟨outcome, h⟩ | ⟨hn, -⟩
        · exact absurd h (evaluateModel_ne_ok hr outcome)
        · rw [exists_produceEval_iff, hr] at hn
          exact absurd hn (Option.some_ne_none e)
    have hn := (exists_produceEval_iff channel).mpr hr
    constructor
    · intro hsame
      obtain ⟨metrics, hmetrics⟩ : ∃ metrics, Except.map metricsOfOutcome
          (evaluateModel evalCsv repository targetFpr limit) = .ok metrics := by
        rcases hreports with ⟨outcome, h⟩ | ⟨-, scored, h⟩
        · exact ⟨_, congrArg (Except.map _) h⟩
        · exact ⟨_, (hsame _).mpr ⟨hn, congrArg (Except.map _) h⟩⟩
      rw [evaluateModel_metrics hload hr] at hmetrics
      obtain ⟨as, has, -⟩ := exists_of_bind_eq_ok hmetrics
      exact (exists_mapM_assessRecord_iff.mp ⟨as, has⟩).2
    · intro hacc metrics
      rw [and_iff_right hn]
      by_cases hall : ∃ as,
          (iterBalancedPackets evalCsv limit).yields.mapM (assessRecord d) = .ok as
      · obtain ⟨as, has⟩ := hall
        rw [evaluateModel_eq_evaluateFromPipe hload htopic hr has]
      · -- a labelled record is not assessed, and neither way reports anything
        rw [evaluateModel_metrics hload hr, evaluateFromPipe_metrics hload htopic]
        refine iff_of_false (fun h => ?_) fun h => ?_
        · obtain ⟨as, has, -⟩ := exists_of_bind_eq_ok h
          exact hall ⟨as, has⟩
        · obtain ⟨bs, hbs, -⟩ := exists_of_bind_eq_ok h
          exact hall (exists_mapM_assessRecord_iff.mpr ⟨⟨bs, hbs⟩, hacc⟩)
  · obtain ⟨l, rfl⟩ := Option.ne_none_iff_exists'.mp hlimit
    exact isLabelled_of_limit
  · obtain ⟨as, has⟩ := exists_mapM_eq_ok (assessRecord d)
      (iterBalancedPackets evalCsv limit).yields
      fun record hmem => exists_assessRecord_iff.mpr (hacc record hmem)
    constructor
    · intro e he
      cases hr : (iterBalancedPackets evalCsv limit).raised with
      | none =>
        obtain ⟨n, hn⟩ := (exists_produceEval_iff channel).mpr hr
        rw [hn] at he
        cases he
      | some e' =>
        rw [produceEval_eq] at he
        dsimp only at he
        rw [hr] at he
        obtain rfl := Except.error.inj he
        exact evaluateModel_of_raised hload hr has
    · intro n hn
      exact evaluateModel_eq_evaluateFromPipe hload htopic
        ((exists_produceEval_iff channel).mp ⟨n, hn⟩) has

end

omit [Interpreter] [Libraries] in
/-- A file with one packet of each class and one without, and a detector that covers them. -/
theorem evaluateFromPipe_produceEval_two :
    let _ : Interpreter := .ascii
    let _ : Libraries := .memoryless
    let _ : ScikitLearn := .ties
    let c : HmmSettings :=
      { extractor := byteClassExtractor, nStates := 1, minTrain := 1, targetFpr := 1 / 2 }
    let flow := Flow.new (text "http") 80 .inbound [71, 69, 84]
    let d := (HmmDetector.train ⟨c, { }⟩ [flow] [flow]).1
    let repository : PickleModelRepository := ⟨some d⟩
    let csv : CsvFile :=
      { rows := ⟨[[text "URL", text "class"], [text "/", text "normal"],
          [text "/", text "anomalous"], [text "/", text "unknown"]], none⟩
        latin1 := by decide }
    let produced := produceEval { } csv
    d.isTrained = true ∧ produced.2 = .ok 2 ∧ SameMetrics { } repository csv none (1 / 10) ∧
      (evaluateModel csv repository (1 / 10)).map metricsOfOutcome =
        (evaluateFromPipe produced.1 repository (1 / 10)).map metricsOfScored := by
  intro _ _ _ c flow d repository csv produced
  have hcount : produced.2 = .ok 2 := by
    change (produceEval { } csv none).2 = _
    rw [produceEval_eq]
    decide +kernel
  have hempty : InMemoryChannel.poll { } evalTopic = [] := rfl
  obtain ⟨hiff, -, hsame⟩ := evaluateFromPipe_produceEval (PickleModelRepository.load_save { } d)
    hempty csv none (1 / 10)
  have heq := (hsame fun record _ => HmmDetector.accepts_one _).2 2 hcount
  refine ⟨HmmDetector.isTrained_one, hcount, (hiff (Or.inr ⟨⟨2, hcount⟩, ?_⟩)).mpr
    fun record _ _ => HmmDetector.accepts_one _, heq⟩
  -- all records are assessed, and where the curve is the diagonal there is a report
  obtain ⟨as, has⟩ := exists_mapM_eq_ok (assessRecord d) (iterBalancedPackets csv none).yields
    fun record _ => exists_assessRecord_iff.mpr (HmmDetector.accepts_one _)
  obtain ⟨metrics, hmetrics⟩ : ∃ metrics,
      (tallyOf (as.filter fun e => e.2.isSome)).metrics (1 / 10) = .ok metrics := by
    rw [Tally.metrics]
    split_ifs
    · have hrate : (0 : ℝ) < 1 / 10 ∧ (1 / 10 : ℝ) ≤ 1 := by norm_num
      obtain ⟨report, hreport⟩ := exists_evaluate_ties hrate _ _
      rw [hreport]
      exact ⟨_, rfl⟩
    · exact ⟨_, rfl⟩
  have hpipe : (evaluateFromPipe produced.1 repository (1 / 10)).map metricsOfScored = _ :=
    evaluateFromPipe_metrics (PickleModelRepository.load_save { } d) hempty
  rw [mapM_labelled has, ok_bind, hmetrics] at hpipe
  obtain ⟨scored, hscored, -⟩ := exists_of_map_eq_ok hpipe
  exact ⟨scored, hscored⟩

omit [Interpreter] [Libraries] in
/-- **A record without a label ends the one way and not the other**: the detector raises over
flows that are not longer than its window, and the only such record has no label. -/
theorem not_sameMetrics_unlabelled :
    let _ : Interpreter := .ascii
    let _ : Libraries := .observing
    let _ : ScikitLearn := .ties
    let c : HmmSettings := {
      extractor := byteClassExtractor
      nStates := 1
      window := 20
      minTrain := 1
      targetFpr := 1 / 2 }
    let byte := Flow.new (text "http") 80 .inbound [71]
    let long := Flow.new (text "http") 80 .inbound (List.replicate 25 71)
    let d := (HmmDetector.train ⟨c, { }⟩ [byte] [long]).1
    let repository : PickleModelRepository := ⟨some d⟩
    let csv : CsvFile :=
      { rows := ⟨[[text "URL", text "class"], [text "/index.html?id=1", text "normal"],
          [text "/", text "unknown"]], none⟩
        latin1 := by decide }
    let produced := produceEval { } csv
    d.isTrained = true ∧ produced.2 = .ok 1 ∧
      (evaluateFromPipe produced.1 repository (1 / 10)).map metricsOfScored = .ok (none, none) ∧
      evaluateModel csv repository (1 / 10) =
        .error (.valueError "transmat_ rows must sum to 1 (got row sums of [0.])") ∧
      ¬SameMetrics { } repository csv none (1 / 10) := by
  intro _ _ _ c byte long d repository csv produced
  obtain ⟨-, htrained, hshort, hlong⟩ := HmmDetector.assess_still
  have hload : repository.load = .ok d := PickleModelRepository.load_save { } d
  have hcount : produced.2 = .ok 1 := by
    change (produceEval { } csv none).2 = _
    rw [produceEval_eq]
    decide +kernel
  -- the two records, of which the first one is labelled, and longer than a window
  obtain ⟨r, r', hyields⟩ := List.length_eq_two.mp
    (by decide +kernel : (iterBalancedPackets csv none).yields.length = 2)
  have hkeys : ∀ record ∈ (iterBalancedPackets csv none).yields,
      partitionKey (recordToFlow record) = partitionKey byte := by decide +kernel
  have hlengths : (iterBalancedPackets csv none).yields.map
      (fun record => (recordToFlow record).payload.length) = [33, 18] := by decide +kernel
  have hlabels : (iterBalancedPackets csv none).yields.map PacketRecord.attack? =
      [some false, none] := by decide +kernel
  rw [hyields] at hkeys hlengths hlabels
  obtain ⟨hr, hr'⟩ : (recordToFlow r).payload.length = 33 ∧
      (recordToFlow r').payload.length = 18 := by
    simpa using hlengths
  obtain ⟨hl, hl'⟩ : r.attack? = some false ∧ r'.attack? = none := by simpa using hlabels
  obtain ⟨a, ha⟩ := hlong (recordToFlow r) (hkeys r List.mem_cons_self) (by omega)
  have hraise := hshort (recordToFlow r') (hkeys r' (List.mem_cons_of_mem _ List.mem_cons_self))
    (by omega)
  have hassess : assessRecord d r = .ok (a, some false) := by
    rw [assessRecord, show d.assessFlow (recordToFlow r) = _ from ha, hl]
    rfl
  have hmap : [r, r'].mapM (assessRecord d) =
      .error (.valueError "transmat_ rows must sum to 1 (got row sums of [0.])") := by
    rw [List.mapM_cons, hassess, List.mapM_cons, assessRecord,
      show d.assessFlow (recordToFlow r') = _ from hraise]
    rfl
  have hmodel : evaluateModel csv repository (1 / 10) =
      .error (.valueError "transmat_ rows must sum to 1 (got row sums of [0.])") := by
    rw [evaluateModel, hload, ok_bind, Generator.foldM, foldlM_evalStep, hyields, hmap]
    rfl
  have hpipe : (evaluateFromPipe produced.1 repository (1 / 10)).map metricsOfScored =
      .ok (none, none) := by
    have hlabelled : r.isLabelled = true := by
      rw [← Bool.not_eq_false, ← PacketRecord.attack?_eq_none_iff, hl]
      exact Option.some_ne_none false
    have hfilter : [r, r'].filter PacketRecord.isLabelled = [r] := by
      rw [List.filter_cons_of_pos hlabelled, List.filter_cons_of_neg, List.filter_nil]
      rw [PacketRecord.attack?_eq_none_iff.mp hl']
      exact Bool.false_ne_true
    have hbs : [labeledFlow r].mapM (assessLabeled d) = .ok [(a, some false)] := by
      rw [List.mapM_cons, ← assessRecord_of_isLabelled hlabelled, hassess]
      rfl
    have h : (evaluateFromPipe produced.1 repository (1 / 10)).map metricsOfScored = _ :=
      evaluateFromPipe_metrics hload rfl
    rw [hyields, hfilter, List.map_singleton, hbs, ok_bind, Tally.metrics, if_neg] at h
    · exact h
    · -- no attack has been scored
      rw [tallyOf_eq]
      exact fun hboth => hboth.2 (by simp [Assessed.inClass])
  refine ⟨htrained, hcount, hpipe, hmodel, fun hsame => ?_⟩
  have h := (hsame (none, none)).mpr ⟨⟨1, hcount⟩, hpipe⟩
  rw [hmodel] at h
  cases h

end LearningData
