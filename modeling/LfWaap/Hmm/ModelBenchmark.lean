import LfWaap.Hmm.LabeledFlows
import LfWaap.Hmm.ModelVariant

/-!
# Comparing versions of the model

`waf.infrastructure.hmm.benchmark`: every version is trained and scored with the same
lists of flows, which the benchmark keeps. What a comparison is worth depends on the
versions being measured on the same flows: a version without a model for a partition
abstains there, and its metrics are those of the other flows only.

They are (`Waf.ModelBenchmark.run_sameFooting`). Which flows are covered depends on the
lists and on the number of flows a partition needs, and on nothing else a version may set.
-/

namespace Waf

open Python

variable [Interpreter]

/-! ### The benchmark -/

omit [Interpreter] in
/-- **The result of one version.** -/
structure VariantResult where
  variant : ModelVariant
  report : Option EvaluationReport
  classification : Option ClassificationMetrics
  trainCount : ℕ
  validationCount : ℕ
  covered : ℕ
  uncovered : ℕ
  evalNormal : ℕ
  evalAttack : ℕ

/-- What a version is trained and scored with. -/
structure ModelBenchmark where
  normal : List Flow
  validation : List Flow
  labeledEval : List (Flow × Bool)

namespace ModelBenchmark

variable [Libraries] [ScikitLearn]

/-- **One version is measured**: a new detector is trained, and scored. -/
noncomputable def evaluateVariant (b : ModelBenchmark) (variant : ModelVariant) :
    Except PyError VariantResult := do
  let detector ← variant.buildDetector
  match detector.train b.normal b.validation with
  | (_, .error e) => .error e
  | (trained, .ok ()) =>
    let scored ← scoreLabeledFlows trained b.labeledEval variant.targetFpr
    return {
      variant := variant
      report := scored.report
      classification := scored.classification
      trainCount := trained.trainCount.getD 0
      validationCount := trained.validationCount.getD 0
      covered := scored.covered
      uncovered := scored.uncovered
      evalNormal := scored.evalNormal
      evalAttack := scored.evalAttack }

/-- Several versions, one after the other. -/
noncomputable def run (b : ModelBenchmark) (variants : List ModelVariant) :
    Except PyError (List VariantResult) :=
  variants.mapM b.evaluateVariant

end ModelBenchmark

/-! ### One version -/

omit [Interpreter] in
/-- The result of a version, from what scoring reports. -/
def VariantResult.of (variant : ModelVariant) (trainCount validationCount : ℕ)
    (scored : ScoredMetrics) : VariantResult where
  variant := variant
  report := scored.report
  classification := scored.classification
  trainCount := trainCount
  validationCount := validationCount
  covered := scored.covered
  uncovered := scored.uncovered
  evalNormal := scored.evalNormal
  evalAttack := scored.evalAttack

omit [Interpreter] in
/-- What scoring has reported. -/
def VariantResult.scored (r : VariantResult) : ScoredMetrics :=
  ⟨r.report, r.classification, r.covered, r.uncovered, r.evalNormal, r.evalAttack⟩

variable [Libraries]

/-- A training records the sizes of its lists. -/
theorem HmmDetector.counts_of_train {d d' : HmmDetector} {normal validation : List Flow}
    {outcome : Except PyError Unit} (h : d.train normal validation = (d', outcome)) :
    d'.trainCount = some normal.length ∧ d'.validationCount = some validation.length := by
  have hd : d' = ⟨d.settings, (d.partitioned.train normal validation).1⟩ :=
    (congrArg Prod.fst h).symm
  subst hd
  rcases d.partitioned.train_cases normal validation with ⟨e, -, he⟩ | ⟨_, _, -, -, he⟩
  · rw [trainCount, validationCount, he]
    exact ⟨rfl, rfl⟩
  · rw [trainCount, validationCount, he]
    exact ⟨rfl, rfl⟩

/-- A training changes the models of a detector only, not its settings. -/
theorem HmmDetector.exists_of_train {d d' : HmmDetector} {normal validation : List Flow}
    (h : d.train normal validation = (d', .ok ())) :
    ∃ p, d.partitioned.train normal validation = (p, .ok ()) ∧ d' = ⟨d.settings, p⟩ := by
  have hok : (d.partitioned.train normal validation).2 = .ok () := congrArg Prod.snd h
  exact ⟨_, Prod.ext rfl hok, (congrArg Prod.fst h).symm⟩

/-- A trained detector of a version extracts a sequence from every flow. -/
theorem HmmDetector.extracts_of_train {v : ModelVariant} {d trained : HmmDetector}
    {normal validation : List Flow} (hbuild : v.buildDetector = .ok d)
    (htrain : d.train normal validation = (trained, .ok ())) (f : Flow) :
    trained.settings.extractor.Extracts f := by
  obtain ⟨p, -, rfl⟩ := exists_of_train htrain
  exact extracts_of_buildDetector hbuild f

/-- A version whose extractor exists, whose target rate is one, and whose libraries do not
raise on flows of the kind. -/
def ModelVariant.Runnable (v : ModelVariant) (kind : Flow → Prop) : Prop :=
  ∃ x, extractorByName v.extractor = .ok x ∧ (v.settings x).Reliable kind ∧
    0 < v.targetFpr ∧ v.targetFpr < 1

/-- **Such a version can be trained** on flows of the kind, and then gives scores. -/
theorem ModelVariant.Runnable.exists_train (hlib : Libraries.Documented) {v : ModelVariant}
    {kind : Flow → Prop} (hv : v.Runnable kind) {normal : List Flow} (hn : ∀ f ∈ normal, kind f)
    (validation : List Flow) :
    ∃ d trained, v.buildDetector = .ok d ∧ d.train normal validation = (trained, .ok ()) ∧
      trained.Ready := by
  obtain ⟨x, hx, hc, hq⟩ := hv
  have hext : ∀ f, (v.settings x).extractor.Extracts f := extracts_of_extractorByName hx
  have hok : (PartitionedHmm.train (c := v.settings x) { } normal validation).2 = .ok () :=
    PartitionedHmm.train_isOk hlib hc hq hn (fun f _ => hext f) (fun f _ => hext f) { }
  exact ⟨_, _, ModelVariant.buildDetector_eq_ok_iff.mpr ⟨x, hx, rfl⟩, Prod.ext rfl hok,
    fun _ _ => PartitionedHmm.scores_of_train hlib hc hn (Prod.ext rfl hok)⟩

omit [Libraries] in
/-- Versions with the default extractor, for libraries without memory. -/
theorem ModelVariant.runnable_memoryless {v : ModelVariant} (hx : v.extractor = text "byte_class")
    (hS : v.nStates ≠ 0) (hcap : ∀ cap, v.maxFitWindows = some cap → 0 ≤ cap)
    (hq : 0 < v.targetFpr ∧ v.targetFpr < 1) (kind : Flow → Prop) :
    @Runnable _ Libraries.memoryless v kind := by
  let _ : Libraries := .memoryless
  exact ⟨byteClassExtractor, hx ▸ extractorByName_byteClass,
    HmmSettings.reliable_memoryless hS hcap kind, hq⟩

variable [ScikitLearn]

/-- **What measuring a version does**: it builds a detector, trains it and scores it, each
of which returns. -/
theorem ModelBenchmark.evaluateVariant_eq_ok_iff {b : ModelBenchmark} {v : ModelVariant}
    {r : VariantResult} :
    b.evaluateVariant v = .ok r ↔
      ∃ d trained scored, v.buildDetector = .ok d ∧
        d.train b.normal b.validation = (trained, .ok ()) ∧
        scoreLabeledFlows trained b.labeledEval v.targetFpr = .ok scored ∧
        r = .of v b.normal.length b.validation.length scored := by
  constructor
  · intro h
    obtain ⟨d, hd, h⟩ := exists_of_bind_eq_ok h
    rcases ht : d.train b.normal b.validation with ⟨trained, e | _⟩
    · rw [ht] at h
      cases h
    · rw [ht] at h
      obtain ⟨scored, hscored, h⟩ := exists_of_bind_eq_ok h
      obtain ⟨hn, hv⟩ := HmmDetector.counts_of_train ht
      rw [hn, hv] at h
      exact ⟨d, trained, scored, hd, ht, hscored, (Except.ok.inj h).symm⟩
  · rintro ⟨d, trained, scored, hd, ht, hscored, rfl⟩
    obtain ⟨hn, hv⟩ := HmmDetector.counts_of_train ht
    rw [evaluateVariant, hd, ok_bind, ht]
    show (scoreLabeledFlows trained b.labeledEval v.targetFpr >>= _) = _
    rw [hscored, ok_bind, hn, hv]
    rfl

/-! ### What is covered -/

omit [Interpreter] [Libraries] [ScikitLearn] in
/-- A comprehension returns as many values of a kind as it has arguments of this kind. -/
theorem countP_of_mapM {α β : Type} {f : α → Except PyError β} {xs : List α} {ys : List β}
    (h : xs.mapM f = .ok ys) {p : α → Bool} {q : β → Bool}
    (hpq : ∀ x ∈ xs, ∀ y, f x = .ok y → q y = p x) : ys.countP q = xs.countP p := by
  induction xs generalizing ys with
  | nil =>
    obtain rfl := Except.ok.inj h
    rfl
  | cons x xs ih =>
    obtain ⟨y, ys', hy, hys', rfl⟩ := mapM_cons_eq_ok_iff.mp h
    rw [List.countP_cons, List.countP_cons, hpq x List.mem_cons_self y hy,
      ih hys' fun x' hx' => hpq x' (List.mem_cons_of_mem _ hx')]

/-- **What scoring counts**: the flows its detector covers, and those of each class among
them. -/
theorem counts_of_scoreLabeledFlows {d : HmmDetector} {labeled : List (Flow × Bool)}
    {targetFpr : ℝ} {m : ScoredMetrics} (h : scoreLabeledFlows d labeled targetFpr = .ok m)
    {cov : Flow → Bool} (hcov : ∀ f, d.partitioned.Covers f ↔ cov f = true) :
    m.covered = labeled.countP (fun e => cov e.1) ∧
      m.uncovered = labeled.countP (fun e => !cov e.1) ∧
      m.evalNormal = labeled.countP (fun e => cov e.1 && !e.2) ∧
      m.evalAttack = labeled.countP (fun e => cov e.1 && e.2) := by
  obtain ⟨as, r, q, has, -, rfl⟩ := scoreLabeledFlows_eq_ok h
  -- an assessment is covered as its flow is, and keeps the class of its flow
  have hassess : ∀ e : Flow × Bool, ∀ a, assessLabeled d e = .ok a →
      a.1.covered = cov e.1 ∧ a.2 = some e.2 := by
    intro e a ha
    obtain ⟨a', ha', rfl⟩ := exists_of_map_eq_ok ha
    refine ⟨?_, rfl⟩
    rw [Bool.eq_iff_iff, HmmDetector.covered_iff ha', hcov]
  have hcount : ∀ (p : Flow × Bool → Bool) (q : Assessed → Bool),
      (∀ e a, a.1.covered = cov e.1 → a.2 = some e.2 → q a = p e) →
        as.countP q = labeled.countP p := fun p q hpq =>
    countP_of_mapM has fun e _ a ha => hpq e a (hassess e a ha).1 (hassess e a ha).2
  rw [tallyOf_eq]
  dsimp only
  simp only [List.length_map, ← List.countP_eq_length_filter]
  refine ⟨hcount _ _ ?_, hcount _ _ ?_, hcount _ _ ?_, hcount _ _ ?_⟩
  · exact fun e a hc _ => hc
  · exact fun e a hc _ => by rw [hc]
  · intro e a hc hl
    rw [Assessed.inClass, hc, hl]
    cases e.2 <;> simp
  · intro e a hc hl
    rw [Assessed.inClass, hc, hl]
    cases e.2 <;> simp

omit [Libraries] [ScikitLearn] in
/-- The partition of a flow has as many flows as are needed to train a model for it, and one
to calibrate it with. -/
def ModelBenchmark.covers (b : ModelBenchmark) (minTrainSequences : ℤ) (f : Flow) : Bool :=
  decide (max 1 minTrainSequences ≤
      ((b.normal.filter fun g => partitionKey g = partitionKey f).length : ℤ) ∧
    1 ≤ (b.validation.filter fun g => partitionKey g = partitionKey f).length)

omit [ScikitLearn] in
/-- What a version covers is told by the number of flows it needs for a partition. -/
theorem ModelBenchmark.covers_iff {b : ModelBenchmark} {v : ModelVariant} {d trained : HmmDetector}
    (hd : v.buildDetector = .ok d) (ht : d.train b.normal b.validation = (trained, .ok ()))
    (f : Flow) : trained.partitioned.Covers f ↔ b.covers v.minTrainSequences f = true := by
  obtain ⟨x, -, rfl⟩ := ModelVariant.buildDetector_eq_ok_iff.mp hd
  obtain ⟨p, hp, rfl⟩ := HmmDetector.exists_of_train ht
  rw [PartitionedHmm.covers_train_iff hp, covers, decide_eq_true_iff]
  rfl

/-! ### All versions -/

omit [Interpreter] [Libraries] [ScikitLearn] in
/-- **The results were obtained on the same footing**: the two versions were trained with
as many flows, and the same numbers of flows of each class were scored. -/
structure VariantResult.SameFooting (r r' : VariantResult) : Prop where
  trainCount : r.trainCount = r'.trainCount
  validationCount : r.validationCount = r'.validationCount
  covered : r.covered = r'.covered
  uncovered : r.uncovered = r'.uncovered
  evalNormal : r.evalNormal = r'.evalNormal
  evalAttack : r.evalAttack = r'.evalAttack
  report : r.report.isSome = r'.report.isSome
  classification : r.classification.isSome = r'.classification.isSome

omit [Libraries] [ScikitLearn] in
/-- **The numbers of a result** are those of the flows of the benchmark. -/
structure VariantResult.Complete (r : VariantResult) (b : ModelBenchmark) : Prop where
  trainCount : r.trainCount = b.normal.length
  validationCount : r.validationCount = b.validation.length
  covered : r.covered =
    b.labeledEval.countP fun e => b.covers r.variant.minTrainSequences e.1
  flows : r.covered + r.uncovered = b.labeledEval.length
  evalNormal : r.evalNormal =
    b.labeledEval.countP fun e => b.covers r.variant.minTrainSequences e.1 && !e.2
  evalAttack : r.evalAttack =
    b.labeledEval.countP fun e => b.covers r.variant.minTrainSequences e.1 && e.2
  report : r.report.isSome ↔ 0 < r.evalNormal ∧ 0 < r.evalAttack
  classification : r.classification.isSome ↔ 0 < r.evalNormal ∧ 0 < r.evalAttack

namespace ModelBenchmark

variable {b : ModelBenchmark} {v : ModelVariant} {r : VariantResult}

/-- There are metrics exactly if both classes have scores. -/
theorem isSome_of_evaluateVariant (h : b.evaluateVariant v = .ok r) :
    (r.report.isSome ↔ 0 < r.evalNormal ∧ 0 < r.evalAttack) ∧
      (r.classification.isSome ↔ 0 < r.evalNormal ∧ 0 < r.evalAttack) := by
  obtain ⟨d, trained, scored, -, -, hscored, rfl⟩ := evaluateVariant_eq_ok_iff.mp h
  obtain ⟨as, rep, q, -, hmetrics, rfl⟩ := scoreLabeledFlows_eq_ok hscored
  simp only [VariantResult.of, List.length_pos_iff]
  rcases Tally.metrics_cases hmetrics with ⟨hn, ha, hr, rfl⟩ | ⟨hne, rfl, rfl⟩
  · exact ⟨iff_of_true hr ⟨hn, ha⟩, iff_of_true rfl ⟨hn, ha⟩⟩
  · exact ⟨iff_of_false Bool.false_ne_true hne, iff_of_false Bool.false_ne_true hne⟩

/-- **The numbers of one version** are those of the flows. -/
theorem complete_of_evaluateVariant (h : b.evaluateVariant v = .ok r) :
    r.variant = v ∧ r.Complete b := by
  obtain ⟨hreport, hclass⟩ := isSome_of_evaluateVariant h
  obtain ⟨d, trained, scored, hd, ht, hscored, rfl⟩ := evaluateVariant_eq_ok_iff.mp h
  obtain ⟨hc, -, hn, ha⟩ := counts_of_scoreLabeledFlows hscored (covers_iff hd ht)
  have hacc := accounts_of_scoreLabeledFlows hscored
  exact ⟨rfl, rfl, rfl, hc, hacc.flows, hn, ha, hreport, hclass⟩

end ModelBenchmark

omit [Libraries] [ScikitLearn] in
/-- **Two versions** that need as many flows for a partition are measured on the same flows. -/
theorem VariantResult.Complete.sameFooting {b : ModelBenchmark} {r r' : VariantResult}
    (h : r.Complete b) (h' : r'.Complete b)
    (hmin : r.variant.minTrainSequences = r'.variant.minTrainSequences) : r.SameFooting r' := by
  have hcovered : r.covered = r'.covered := by rw [h.covered, h'.covered, hmin]
  have hnormal : r.evalNormal = r'.evalNormal := by rw [h.evalNormal, h'.evalNormal, hmin]
  have hattack : r.evalAttack = r'.evalAttack := by rw [h.evalAttack, h'.evalAttack, hmin]
  have hflows := h.flows.trans h'.flows.symm
  refine ⟨h.trainCount.trans h'.trainCount.symm, h.validationCount.trans h'.validationCount.symm,
    hcovered, by omega, hnormal, hattack, ?_, ?_⟩
  · rw [Bool.eq_iff_iff, h.report, h'.report, hnormal, hattack]
  · rw [Bool.eq_iff_iff, h.classification, h'.classification, hnormal, hattack]

namespace ModelBenchmark

variable {b : ModelBenchmark} {v : ModelVariant}

/-- There is a result for each version, in order. -/
theorem variants_of_run {variants : List ModelVariant} {results : List VariantResult}
    (h : b.run variants = .ok results) : results.map VariantResult.variant = variants := by
  have hall := mapM_eq_ok_iff.mp h
  clear h
  induction hall with
  | nil => rfl
  | cons hr _ ih => rw [List.map_cons, (complete_of_evaluateVariant hr).1, ih]

/-- **A comparison is one on the same footing.** A run that returns has one result for each
version, in order, and its numbers are those of the flows of the benchmark; any two versions
that need as many flows for a partition have been measured on the same flows, whatever else
they differ in. -/
theorem run_sameFooting {variants : List ModelVariant} {results : List VariantResult}
    (h : b.run variants = .ok results) :
    results.map VariantResult.variant = variants ∧ (∀ r ∈ results, r.Complete b) ∧
      ∀ r ∈ results, ∀ r' ∈ results,
        r.variant.minTrainSequences = r'.variant.minTrainSequences → r.SameFooting r' := by
  have hcomplete : ∀ r ∈ results, r.Complete b := by
    intro r hr
    obtain ⟨v, -, hv⟩ := exists_of_mem_values h hr
    exact (complete_of_evaluateVariant hv).2
  exact ⟨variants_of_run h, hcomplete,
    fun r hr r' hr' => (hcomplete r hr).sameFooting (hcomplete r' hr')⟩

/-! ### When a comparison returns -/

/-- **One version can be measured** on any flows, if its libraries do not raise on those that it
is trained on. -/
theorem exists_evaluateVariant (hlib : Libraries.Documented) (hskl : ScikitLearn.Documented)
    (b : ModelBenchmark) (hv : v.Runnable (· ∈ b.normal)) : ∃ r, b.evaluateVariant v = .ok r := by
  obtain ⟨d, trained, hbuild, htrain, hready⟩ := hv.exists_train hlib (fun _ hf => hf) b.validation
  obtain ⟨_, -, -, hq⟩ := hv
  have hscorable : trained.Scorable b.labeledEval v.targetFpr :=
    ⟨fun e _ _ => HmmDetector.extracts_of_train hbuild htrain e.1, fun _ _ => ⟨hq.1, hq.2.le⟩⟩
  obtain ⟨scored, hscored⟩ := (exists_scoreLabeledFlows_iff hskl hready).mpr hscorable
  exact ⟨_, evaluateVariant_eq_ok_iff.mpr ⟨d, trained, scored, hbuild, htrain, hscored, rfl⟩⟩

/-- **A comparison returns**, if every version can be measured. -/
theorem exists_run (hlib : Libraries.Documented) (hskl : ScikitLearn.Documented)
    (b : ModelBenchmark) {variants : List ModelVariant}
    (hv : ∀ v ∈ variants, v.Runnable (· ∈ b.normal)) : ∃ results, b.run variants = .ok results :=
  exists_mapM_eq_ok _ _ fun v hmem => exists_evaluateVariant hlib hskl b (hv v hmem)

end ModelBenchmark

/-! ### The presets -/

omit [Libraries] [ScikitLearn] in
/-- **The presets can be measured** by libraries without memory. -/
theorem ModelVariant.runnable_of_mem_ablationMatrix {v : ModelVariant} (hv : v ∈ ablationMatrix)
    (kind : Flow → Prop) : @Runnable _ Libraries.memoryless v kind := by
  let _ : Libraries := .memoryless
  obtain ⟨x, hx⟩ := exists_extractor_of_mem_ablationMatrix hv
  have hpreset : v.nStates ≠ 0 ∧ (∀ cap, v.maxFitWindows = some cap → 0 ≤ cap) ∧
      v.targetFpr = 5 / 100 := by
    simp only [ablationMatrix, List.mem_cons, List.not_mem_nil, or_false] at hv
    rcases hv with rfl | rfl | rfl | rfl | rfl | rfl
    all_goals
      refine ⟨by decide, fun cap hcap => ?_, rfl⟩
      cases hcap
    all_goals decide
  refine ⟨x, hx, HmmSettings.reliable_memoryless hpreset.1 hpreset.2.1 kind, ?_⟩
  rw [hpreset.2.2]
  norm_num

omit [Interpreter] [Libraries] [ScikitLearn] in
theorem minTrainSequences_of_mem_ablationMatrix {v : ModelVariant} (hv : v ∈ ablationMatrix) :
    v.minTrainSequences = 10 := by
  simp only [ablationMatrix, List.mem_cons, List.not_mem_nil, or_false] at hv
  rcases hv with rfl | rfl | rfl | rfl | rfl | rfl <;> rfl

omit [Interpreter] [Libraries] [ScikitLearn] in
/-- The presets, trained on ten flows, and measured on a normal flow and an attack. -/
theorem ModelBenchmark.run_sameFooting_presets :
    let _ : Interpreter := .ascii
    let _ : Libraries := .memoryless
    let _ : ScikitLearn := .exact
    let normal := Flow.new (text "http") 80 .inbound [71, 69, 84, 32, 47, 97]
    let attack := Flow.new (text "http") 80 .inbound [71, 69, 84, 32, 47, 39]
    let b : ModelBenchmark :=
      ⟨List.replicate 10 normal, [normal], [(normal, false), (attack, true)]⟩
    ∃ results, b.run ablationMatrix = .ok results ∧
      results.map VariantResult.variant = ablationMatrix ∧
      (∀ r ∈ results, r.Complete b ∧ r.covered = 2 ∧ r.report.isSome = true) ∧
      ∀ r ∈ results, ∀ r' ∈ results,
        r.variant.minTrainSequences = r'.variant.minTrainSequences → r.SameFooting r' := by
  intro _ _ _ normal attack b
  obtain ⟨results, hrun⟩ := exists_run Libraries.documented_memoryless
    ScikitLearn.documented_exact b fun v hv => ModelVariant.runnable_of_mem_ablationMatrix hv _
  obtain ⟨hvariants, hcomplete, hsame⟩ := run_sameFooting hrun
  have hcovers : b.covers 10 normal = true ∧ b.covers 10 attack = true := by decide
  have hlabeled : b.labeledEval = [(normal, false), (attack, true)] := rfl
  refine ⟨results, hrun, hvariants, fun r hr => ?_, hsame⟩
  have hten : r.variant.minTrainSequences = 10 :=
    minTrainSequences_of_mem_ablationMatrix (hvariants ▸ List.mem_map_of_mem hr)
  obtain ⟨-, -, hcov, -, hn, ha, hreport, -⟩ := hcomplete r hr
  rw [hten, hlabeled] at hcov hn ha
  refine ⟨hcomplete r hr, ?_, ?_⟩
  · simp [hcov, hcovers.1, hcovers.2]
  · rw [hreport, hn, ha]
    simp [hcovers.1, hcovers.2]

end Waf
