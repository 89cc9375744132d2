import LfWaap.Hmm.Fusion
import LfWaap.Hmm.ModelBenchmark
import LfWaap.Hmm.Reports
import LfWaap.LearningData.CoveredCounts

/-!
# The report card

`learning_data.calibrate_cli.evaluate_model` prints three things about the same scores: a summary
of the scores of each class, the metrics of the ranking, and counts. They come from different code
(`learning_data.calibrate_cli._score_stats`, scikit-learn, and the loop), and the reader of a report
will compare them. `LearningData.evaluateModel_consistent` says that they agree, for every file and
every detector that gives scores:

* a summary is that of some sample: the mean is between the least and the greatest score, and the
  deviation is at most half the distance of these, and zero only if there is no distance;
* there are metrics exactly if both summaries count a score, and they are of as many scores as the
  summaries count;
* the area under the curve is one exactly if the ranges that are printed do not meet: the
  greatest score of an attack is below the least score of normal traffic.
-/

namespace LearningData

open Python Stats Waf

/-! ### Summaries -/

/-- **A summary that can be one**: there are three real numbers in order, and the deviation fits
between the outer ones. -/
def ScoreStats.Consistent (s : ScoreStats) : Prop :=
  ∃ low middle high : ℝ, s.minimum = low ∧ s.mean = middle ∧ s.maximum = high ∧
    low ≤ middle ∧ middle ≤ high ∧ 0 ≤ s.std ∧ s.std + s.std ≤ high - low ∧
    (s.std = 0 ↔ low = high)

theorem foldl_min_eq_minScore (scores : List EReal) : scores.foldl min ⊤ = minScore scores :=
  List.foldl_eq_foldr

theorem foldl_max_eq_maxScore (scores : List EReal) : scores.foldl max ⊥ = maxScore scores :=
  List.foldl_eq_foldr

/-- **The summary of real scores.** -/
theorem scoreStats_realScores {xs : List ℝ} (hne : xs ≠ []) :
    scoreStats (realScores xs) =
      { count := xs.length
        mean := (mean xs : ℝ)
        std := √(variance xs)
        minimum := minScore (realScores xs)
        maximum := maxScore (realScores xs) } := by
  have hlen : (realScores xs).length = xs.length := List.length_map _
  have hmean : (realScores xs).sum / (xs.length : EReal) = ((mean xs : ℝ) : EReal) := by
    rw [← meanScore_map_coe, meanScore, List.length_map]
    rfl
  have hdeviations :
      ((realScores xs).map fun score => (score - ((mean xs : ℝ) : EReal)).toReal ^ 2) =
        xs.map fun x => (x - mean xs) ^ 2 := by
    rw [realScores, List.map_map]
    refine List.map_congr_left fun x _ => ?_
    rw [Function.comp_apply, ← EReal.coe_sub, EReal.toReal_coe]
  rw [scoreStats, if_neg (hlen ▸ List.length_eq_zero_iff.not.mpr hne)]
  simp only [foldl_min_eq_minScore, foldl_max_eq_maxScore, hlen, hmean, hdeviations]
  rfl

/-- **The summary of real scores can be one**, also where there are none. -/
theorem consistent_scoreStats (xs : List ℝ) : (scoreStats (realScores xs)).Consistent := by
  by_cases hne : xs = []
  · have hzero : scoreStats (realScores xs) = ⟨0, 0, 0, 0, 0⟩ := if_pos (by rw [hne]; rfl)
    rw [hzero]
    exact ⟨0, 0, 0, rfl, rfl, rfl, le_rfl, le_rfl, le_rfl, by simp, iff_of_true rfl rfl⟩
  · have hne' : realScores xs ≠ [] := List.map_eq_nil_iff.not.mpr hne
    obtain ⟨low, hlowmem, hlow⟩ := List.mem_map.mp (minScore_mem hne')
    obtain ⟨high, hhighmem, hhigh⟩ := List.mem_map.mp (maxScore_mem hne')
    have hbounds : ∀ x ∈ xs, low ≤ x ∧ x ≤ high := fun x hx => by
      have hmem : (x : EReal) ∈ realScores xs := List.mem_map_of_mem hx
      rw [← EReal.coe_le_coe_iff, ← EReal.coe_le_coe_iff, hlow, hhigh]
      exact ⟨minScore_le hmem, le_maxScore hmem⟩
    obtain ⟨hge, hle⟩ := mean_mem_of_bounds hne hbounds
    have hhalf : 0 ≤ (high - low) / 2 := by linarith
    have hstd : √(variance xs) ≤ (high - low) / 2 :=
      (Real.sqrt_le_sqrt (variance_le hne hbounds)).trans_eq (Real.sqrt_sq hhalf)
    rw [scoreStats_realScores hne]
    refine ⟨low, mean xs, high, hlow.symm, rfl, hhigh.symm, hge, hle, Real.sqrt_nonneg _, ?_,
      fun hzero => ?_, ?_⟩
    · exact (add_le_add hstd hstd).trans_eq (add_halves _)
    · -- all scores are the mean, the least and the greatest among them
      have hall := eq_mean_of_variance_eq_zero
        ((Real.sqrt_eq_zero (variance_nonneg xs)).mp hzero)
      exact (hall low hlowmem).trans (hall high hhighmem).symm
    · rintro rfl
      have hle0 : √(variance xs) ≤ 0 := hstd.trans_eq (by ring)
      exact hle0.antisymm (Real.sqrt_nonneg _)

/-! ### The ranges and the ranking -/

/-- **The classes are separated** exactly if the ranges of their scores do not meet. -/
theorem separated_iff_ranges {normal attack : List ℝ} (hn : normal ≠ []) (ha : attack ≠ []) :
    Separated normal attack ↔ maxScore (realScores attack) < minScore (realScores normal) := by
  obtain ⟨low, hlowmem, hlow⟩ :=
    List.mem_map.mp (minScore_mem (List.map_eq_nil_iff.not.mpr hn : realScores normal ≠ []))
  obtain ⟨high, hhighmem, hhigh⟩ :=
    List.mem_map.mp (maxScore_mem (List.map_eq_nil_iff.not.mpr ha : realScores attack ≠ []))
  constructor
  · intro hsep
    have hlt := EReal.coe_lt_coe_iff.mpr (hsep high hhighmem low hlowmem)
    rwa [hlow, hhigh] at hlt
  · intro hlt w hw v hv
    have hle : (w : EReal) ≤ maxScore (realScores attack) := le_maxScore (List.mem_map_of_mem hw)
    have hge : minScore (realScores normal) ≤ (v : EReal) := minScore_le (List.mem_map_of_mem hv)
    exact EReal.coe_lt_coe_iff.mp ((hle.trans_lt hlt).trans_le hge)

/-! ### The report of a detector that gives scores -/

variable [Interpreter] [Libraries]

/-- A detector that gives scores gives the covered records real ones. -/
theorem real_of_assessRecord {d : HmmDetector} (hd : d.Ready) {records : List PacketRecord}
    {as : List Assessed} (has : records.mapM (assessRecord d) = .ok as) :
    ∀ e ∈ as, e.1.covered = true → e.1.score ∈ realNumbers := by
  intro e he
  obtain ⟨record, -, hrec⟩ := exists_of_mem_values has he
  have hext : d.settings.extractor.Extracts (recordToFlow record) :=
    d.settings.extractor.extract_isOk _ (Flow.measurable_of_packets_eq_nil rfl)
  obtain ⟨a, ha, hscore⟩ := PartitionedHmm.exists_assess_of_scores hd fun _ => hext
  obtain ⟨a', ha', rfl⟩ := exists_of_map_eq_ok hrec
  rwa [← Except.ok.inj (ha.symm.trans ha')]

/-- **There is an outcome** if the file can be read to its end. -/
theorem exists_evaluateModel_of_ready [ScikitLearn] (hlib : ScikitLearn.Documented)
    {evalCsv : CsvFile} {repository : PickleModelRepository} {targetFpr : ℝ} {limit : Option ℤ}
    {d : HmmDetector} (hq : 0 < targetFpr ∧ targetFpr ≤ 1) (hload : repository.load = .ok d)
    (hd : d.Ready) (hr : (iterBalancedPackets evalCsv limit).raised = none) :
    ∃ outcome, evaluateModel evalCsv repository targetFpr limit = .ok outcome := by
  obtain ⟨as, has⟩ := exists_mapM_eq_ok (assessRecord d)
    (iterBalancedPackets evalCsv limit).yields fun record _ =>
      exists_assessRecord_iff.mpr (PartitionedHmm.accepts_of_scores hd _)
  have hfold : (iterBalancedPackets evalCsv limit).foldM (evalStep d) { } = .ok (tallyOf as) := by
    rw [Generator.foldM, foldlM_evalStep, has, hr]
    rfl
  obtain ⟨rq, hm⟩ :=
    Tally.exists_metrics hlib (tallyOf_scores_real (real_of_assessRecord hd has)) (Or.inl hq)
  rw [evaluateModel, hload, ok_bind, hfold, ok_bind, hm]
  exact ⟨_, rfl⟩

/-- **What an outcome reports** is read off a tally of real scores. -/
theorem exists_tally_of_evaluateModel [ScikitLearn] {evalCsv : CsvFile}
    {repository : PickleModelRepository} {targetFpr : ℝ} {limit : Option ℤ}
    {outcome : EvaluationOutcome} {d : HmmDetector} (hload : repository.load = .ok d)
    (hd : d.Ready) (h : evaluateModel evalCsv repository targetFpr limit = .ok outcome) :
    ∃ (t : Tally) (normal attack : List ℝ),
      t.normalScores = realScores normal ∧ t.attackScores = realScores attack ∧
      t.metrics targetFpr = .ok (outcome.report, outcome.classification) ∧
      outcome.normalStats = scoreStats t.normalScores ∧
      outcome.attackStats = scoreStats t.attackScores := by
  obtain ⟨d', hd', h⟩ := exists_of_bind_eq_ok h
  obtain rfl := Except.ok.inj (hload.symm.trans hd')
  obtain ⟨t, ht, h⟩ := exists_of_bind_eq_ok h
  obtain ⟨⟨report, classification⟩, hm, h⟩ := exists_of_bind_eq_ok h
  obtain rfl := Except.ok.inj h
  have hfold := Generator.foldlM_of_foldM ht
  rw [foldlM_evalStep] at hfold
  obtain ⟨as, has, rfl⟩ := exists_of_map_eq_ok hfold
  have hclass : ∀ b : Bool, ∃ xs : List ℝ,
      ((as.filter (Assessed.inClass b)).map fun e => e.1.score) = realScores xs := fun b => by
    refine exists_map_coe fun s hs => ?_
    obtain ⟨e, he, rfl⟩ := List.mem_map.mp hs
    obtain ⟨hmem, hin⟩ := List.mem_filter.mp he
    exact real_of_assessRecord hd has e hmem (Bool.and_eq_true_iff.mp hin).1
  obtain ⟨normal, hnormal⟩ := hclass false
  obtain ⟨attack, hattack⟩ := hclass true
  refine ⟨tallyOf as, normal, attack, ?_, ?_, hm, rfl, rfl⟩
  · rw [tallyOf_eq, hnormal]
  · rw [tallyOf_eq, hattack]

/-- **The report card agrees with itself.** For every file and every detector that gives scores:
both summaries can be ones; there are metrics exactly if both count a score; and these are of as
many scores as the summaries count, with an area of one exactly if the greatest score of an attack
is below the least score of normal traffic. -/
theorem evaluateModel_consistent [ScikitLearn] (hlib : ScikitLearn.Documented) {evalCsv : CsvFile}
    {repository : PickleModelRepository} {targetFpr : ℝ} {limit : Option ℤ}
    {outcome : EvaluationOutcome} {d : HmmDetector} (hq : 0 < targetFpr ∧ targetFpr ≤ 1)
    (hload : repository.load = .ok d) (hd : d.Ready)
    (h : evaluateModel evalCsv repository targetFpr limit = .ok outcome) :
    outcome.normalStats.Consistent ∧ outcome.attackStats.Consistent ∧
      (outcome.report = none ↔
        outcome.normalStats.count = 0 ∨ outcome.attackStats.count = 0) ∧
      ∀ r, outcome.report = some r →
        r.nNormal = outcome.normalStats.count ∧ r.nAttack = outcome.attackStats.count ∧
        (r.rocAuc = 1 ↔ outcome.attackStats.maximum < outcome.normalStats.minimum) := by
  obtain ⟨t, normal, attack, hnormal, hattack, hm, hnstats, hastats⟩ :=
    exists_tally_of_evaluateModel hload hd h
  rw [hnormal] at hnstats
  rw [hattack] at hastats
  have hcount : ∀ xs : List ℝ, (scoreStats (realScores xs)).count = xs.length := fun xs =>
    (scoreStats_count _).trans (List.length_map _)
  rw [hnstats, hastats, hcount, hcount, List.length_eq_zero_iff, List.length_eq_zero_iff]
  refine ⟨consistent_scoreStats normal, consistent_scoreStats attack, ?_⟩
  have hnil : ∀ xs : List ℝ, realScores xs ≠ [] ↔ xs ≠ [] := fun xs => List.map_eq_nil_iff.not
  rw [Tally.metrics, hnormal, hattack] at hm
  split at hm
  · next hne =>
    rw [hnil, hnil] at hne
    rw [evaluate_realScores hlib hne.1 hne.2 hq, ok_bind] at hm
    obtain ⟨hreport, -⟩ := Prod.mk.inj (Except.ok.inj hm)
    rw [← hreport]
    refine ⟨iff_of_false (Option.some_ne_none _) (not_or.mpr hne), fun r hr => ?_⟩
    obtain rfl := Option.some.inj hr
    have hroc : (reportOf normal attack targetFpr).rocAuc = (rankedCorrectly normal attack : ℝ) :=
      rfl
    rw [scoreStats_realScores hne.1, scoreStats_realScores hne.2,
      ← separated_iff_ranges hne.1 hne.2, ← (rankedCorrectly_spec hne.1 hne.2).2.2, hroc]
    exact ⟨rfl, rfl, by norm_cast⟩
  · next hne =>
    rw [hnil, hnil] at hne
    obtain ⟨hreport, -⟩ := Prod.mk.inj (Except.ok.inj hm)
    rw [← hreport]
    refine ⟨iff_of_true rfl ?_, fun r hr => absurd hr.symm (Option.some_ne_none r)⟩
    by_contra hor
    exact hne (not_or.mp hor)

omit [Interpreter] [Libraries] in
/-- A detector trained on one request, on a file of a normal and an anomalous record. -/
theorem evaluateModel_consistent_two :
    let _ : Interpreter := .ascii
    let _ : Libraries := .memoryless
    let _ : ScikitLearn := .exact
    let v : ModelVariant :=
      { name := text "v", nStates := 1, targetFpr := 1 / 2, minTrainSequences := 1 }
    let flow := Flow.new (text "http") 80 .inbound [71, 69, 84]
    let csv : CsvFile :=
      { rows := ⟨[[text "URL", text "class"], [text "/", text "normal"],
          [text "/", text "anomalous"]], none⟩
        latin1 := by decide }
    ∃ d trained outcome, v.buildDetector = .ok d ∧
      d.train [flow] [flow] = (trained, .ok ()) ∧
      evaluateModel csv ⟨some trained⟩ (1 / 10) = .ok outcome ∧
      outcome.normalStats.Consistent ∧ outcome.attackStats.Consistent ∧
      ∃ r, outcome.report = some r ∧ r.nNormal = outcome.normalStats.count ∧
        r.nAttack = outcome.attackStats.count ∧
        (r.rocAuc = 1 ↔ outcome.attackStats.maximum < outcome.normalStats.minimum) := by
  intro _ _ _ v flow csv
  have hv : v.Runnable (· ∈ [flow]) := ModelVariant.runnable_memoryless rfl one_ne_zero
    (fun cap h => absurd h.symm (Option.some_ne_none cap)) half_rate _
  obtain ⟨d, trained, hbuild, htrain, hready⟩ :=
    hv.exists_train Libraries.documented_memoryless (fun _ hf => hf) [flow]
  have hq : (0 : ℝ) < 1 / 10 ∧ (1 / 10 : ℝ) ≤ 1 := ⟨by norm_num, by norm_num⟩
  have hload := PickleModelRepository.load_save { } trained
  have hr : (iterBalancedPackets csv none).raised = none := by decide +kernel
  obtain ⟨outcome, h⟩ :=
    exists_evaluateModel_of_ready ScikitLearn.documented_exact hq hload hready hr
  obtain ⟨hn, ha, hnone, hreport⟩ :=
    evaluateModel_consistent ScikitLearn.documented_exact hq hload hready h
  -- both records are covered
  have hcovers : ∀ record ∈ (iterBalancedPackets csv none).yields,
      trained.partitioned.Covers (recordToFlow record) := by
    have hkeys : ∀ record ∈ (iterBalancedPackets csv none).yields,
        partitionKey (recordToFlow record) = partitionKey flow := by decide +kernel
    intro record hmem
    rw [ModelBenchmark.covers_iff (b := ⟨[flow], [flow], []⟩) hbuild htrain, ModelBenchmark.covers,
      hkeys record hmem]
    decide
  have hlabels : (iterBalancedPackets csv none).yields.map PacketRecord.attack? =
      [some false, some true] := by decide +kernel
  obtain ⟨as, has, -, -, -, hncount, hacount⟩ := evaluateModel_eq_ok h
  have hdet : outcome.detector = trained := by
    obtain ⟨d', hd', h⟩ := exists_of_bind_eq_ok h
    obtain ⟨t, -, h⟩ := exists_of_bind_eq_ok h
    obtain ⟨rq, -, h⟩ := exists_of_bind_eq_ok h
    rw [← Except.ok.inj h]
    exact (Except.ok.inj (hload.symm.trans hd')).symm
  rw [hdet] at has
  have hboth : ∀ b : Bool, ∃ e ∈ as, e.1.covered = true ∧ e.2 = some b := fun b => by
    have hmem : some b ∈ (iterBalancedPackets csv none).yields.map PacketRecord.attack? := by
      rw [hlabels]
      cases b <;> decide
    obtain ⟨record, hmem, hb⟩ := List.mem_map.mp hmem
    exact exists_assessed_of_covers has ⟨record, hmem, hcovers record hmem, hb⟩
  have hsome : outcome.report ≠ none := fun hr => by
    rcases hnone.mp hr with h0 | h0
    · exact (tallyOf_scores_ne_nil as).1.mpr (hboth false)
        (List.length_eq_zero_iff.mp (hncount.symm.trans h0))
    · exact (tallyOf_scores_ne_nil as).2.mpr (hboth true)
        (List.length_eq_zero_iff.mp (hacount.symm.trans h0))
  obtain ⟨r, hr⟩ := Option.ne_none_iff_exists'.mp hsome
  exact ⟨d, trained, outcome, hbuild, htrain, h, hn, ha, r, hr, hreport r hr⟩

end LearningData
