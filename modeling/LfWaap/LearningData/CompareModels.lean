import LfWaap.LearningData.Histories

/-!
# Comparing versions on two files

`learning_data.calibrate_cli.compare_models`: the flows of two files are read once, and a list of
versions is measured on them. The same can be done with the pipe: both files are published,
and then each version in turn is trained and evaluated, the stored detector being replaced every
time. The answers are those of the comparison, in order, and there is a comparison exactly if no
answer is an exception (`LearningData.Pipeline.run_compareModels`).

A comparison returns exactly if the two files can be read to their ends
(`LearningData.exists_compareModels_iff`), and every flow of theirs is in the numbers it
reports.
-/

namespace LearningData

open Python Waf Words

variable [Interpreter]

/-- The labelled flows of a file. -/
def labelledFlows (evalCsv : CsvFile) (limit : Option ℤ) : Generator (Flow × Bool) :=
  ((iterBalancedPackets evalCsv limit).filter PacketRecord.isLabelled).map labeledFlow

variable [Libraries] [ScikitLearn]

/-- **Comparing versions** on the flows of two files. -/
noncomputable def compareModels (normalCsv evalCsv : CsvFile) (variants : List ModelVariant)
    (validationRatio : PyFloat := .finite (3602879701896397 / 2 ^ 54))
    (limit : Option ℤ := none) : Except PyError (List VariantResult) := do
  let source ← CsicTrafficSource.new normalCsv validationRatio limit
  let normal ← source.normal.toList
  let validation ← source.validation.toList
  let labeled ← (labelledFlows evalCsv limit).toList
  ModelBenchmark.run ⟨normal, validation, labeled⟩ variants

/-! ### When it returns -/

section

variable {normalCsv evalCsv : CsvFile} {variants : List ModelVariant} {ratio : PyFloat}
  {limit : Option ℤ} {results : List VariantResult}

/-- **What a comparison does**: it reads both files to their ends, and measures the versions. -/
theorem compareModels_eq_ok_iff :
    compareModels normalCsv evalCsv variants ratio limit = .ok results ↔
      ∃ source, CsicTrafficSource.new normalCsv ratio limit = .ok source ∧
        source.benignFlows.raised = none ∧ (iterBalancedPackets evalCsv limit).raised = none ∧
        ModelBenchmark.run ⟨source.normal.yields, source.validation.yields,
          (labelledFlows evalCsv limit).yields⟩ variants = .ok results := by
  constructor
  · intro h
    obtain ⟨source, hsource, h⟩ := exists_of_bind_eq_ok h
    obtain ⟨normal, hnormal, h⟩ := exists_of_bind_eq_ok h
    obtain ⟨validation, hvalidation, h⟩ := exists_of_bind_eq_ok h
    obtain ⟨labeled, hlabeled, h⟩ := exists_of_bind_eq_ok h
    obtain ⟨hraised, rfl⟩ := Generator.toList_eq_ok_iff.mp hnormal
    obtain ⟨-, rfl⟩ := Generator.toList_eq_ok_iff.mp hvalidation
    obtain ⟨heval, rfl⟩ := Generator.toList_eq_ok_iff.mp hlabeled
    exact ⟨source, hsource, hraised, heval, h⟩
  · rintro ⟨source, hsource, hraised, heval, h⟩
    have hnormal : source.normal.toList = .ok source.normal.yields :=
      Generator.toList_eq_ok_iff.mpr ⟨hraised, rfl⟩
    have hvalidation : source.validation.toList = .ok source.validation.yields :=
      Generator.toList_eq_ok_iff.mpr ⟨hraised, rfl⟩
    have hlabeled :
        (labelledFlows evalCsv limit).toList = .ok (labelledFlows evalCsv limit).yields :=
      Generator.toList_eq_ok_iff.mpr ⟨heval, rfl⟩
    rw [compareModels, hsource, ok_bind, hnormal, ok_bind, hvalidation, ok_bind, hlabeled, ok_bind]
    exact h

/-- **When a comparison returns.** With versions that can be trained on the flows that are kept
for training, and a rate that the split accepts, it returns exactly if both files can be read to
their ends; and then all benign records have been used for training, and all labelled records for
scoring, with every version. -/
theorem exists_compareModels_iff {source : CsicTrafficSource} (hlib : Libraries.Documented)
    (hskl : ScikitLearn.Documented) (hv : ∀ v ∈ variants, v.Runnable (· ∈ source.normal.yields))
    (hsource : CsicTrafficSource.new normalCsv ratio limit = .ok source) (evalCsv : CsvFile) :
    ((∃ results, compareModels normalCsv evalCsv variants ratio limit = .ok results) ↔
        source.benignFlows.raised = none ∧ (iterBalancedPackets evalCsv limit).raised = none) ∧
      ∀ results, compareModels normalCsv evalCsv variants ratio limit = .ok results →
        results.map VariantResult.variant = variants ∧ ∀ r ∈ results,
          r.trainCount + r.validationCount = (benign normalCsv limit).length ∧
          r.covered + r.uncovered = (labelledFlows evalCsv limit).yields.length ∧
          r.evalNormal + r.evalAttack = r.covered := by
  refine ⟨⟨?_, ?_⟩, ?_⟩
  · rintro ⟨results, h⟩
    obtain ⟨source', hsource', hraised, heval, -⟩ := compareModels_eq_ok_iff.mp h
    rw [hsource] at hsource'
    exact ⟨Except.ok.inj hsource' ▸ hraised, heval⟩
  · rintro ⟨hraised, heval⟩
    obtain ⟨results, hrun⟩ := ModelBenchmark.exists_run hlib hskl
      ⟨source.normal.yields, source.validation.yields, (labelledFlows evalCsv limit).yields⟩ hv
    exact ⟨results, compareModels_eq_ok_iff.mpr ⟨source, hsource, hraised, heval, hrun⟩⟩
  · intro results h
    obtain ⟨source', hsource', -, -, hrun⟩ := compareModels_eq_ok_iff.mp h
    obtain rfl : source = source' := Except.ok.inj (hsource.symm.trans hsource')
    have hbenign := (perm_benign_of_new hsource).length_eq
    rw [List.length_append, Nat.add_comm] at hbenign
    refine ⟨ModelBenchmark.variants_of_run hrun, fun r hr => ?_⟩
    obtain ⟨v, -, hv⟩ := exists_of_mem_values hrun hr
    obtain ⟨_, _, scored, -, -, hscored, rfl⟩ := ModelBenchmark.evaluateVariant_eq_ok_iff.mp hv
    have hacc := accounts_of_scoreLabeledFlows hscored
    exact ⟨hbenign, hacc.flows, hacc.scores⟩

omit [Interpreter] [Libraries] [ScikitLearn] in
/-- The presets, on a file with twenty benign packets and one with a packet of each class: both
packets are covered, and there are metrics. -/
theorem exists_compareModels_presets :
    let _ : Interpreter := .ascii
    let _ : Libraries := .memoryless
    let _ : ScikitLearn := .exact
    let normalCsv : CsvFile :=
      { rows := ⟨[text "URL", text "class"] :: List.replicate 20 [text "/", text "normal"], none⟩
        latin1 := by decide }
    let evalCsv : CsvFile :=
      { rows := ⟨[[text "URL", text "class"], [text "/", text "normal"],
          [text "/", text "anomalous"]], none⟩
        latin1 := by decide }
    ∃ results, compareModels normalCsv evalCsv ablationMatrix (.finite (1 / 2)) = .ok results ∧
      results.map VariantResult.variant = ablationMatrix ∧
      ∀ r ∈ results, r.trainCount + r.validationCount = 20 ∧ r.covered = 2 ∧ r.uncovered = 0 ∧
        r.report.isSome = true := by
  intro _ _ _ normalCsv evalCsv
  have hsource :
      CsicTrafficSource.new normalCsv (.finite (1 / 2)) none = .ok ⟨normalCsv, none, 2⟩ :=
    CsicTrafficSource.new_eq_ok_iff.mpr ⟨by norm_num, 2, by decide +kernel, rfl⟩
  let b : ModelBenchmark := ⟨(CsicTrafficSource.mk normalCsv none 2).normal.yields,
    (CsicTrafficSource.mk normalCsv none 2).validation.yields, (labelledFlows evalCsv none).yields⟩
  have hbenign : (benign normalCsv none).length = 20 := by decide +kernel
  have hlabelled : (labelledFlows evalCsv none).yields.length = 2 := by decide +kernel
  have hcovered : (b.labeledEval.countP fun e => b.covers 10 e.1) = 2 ∧
      (b.labeledEval.countP fun e => b.covers 10 e.1 && !e.2) = 1 ∧
      (b.labeledEval.countP fun e => b.covers 10 e.1 && e.2) = 1 := by decide +kernel
  obtain ⟨hiff, hall⟩ := exists_compareModels_iff Libraries.documented_memoryless
    ScikitLearn.documented_exact (fun v hv => ModelVariant.runnable_of_mem_ablationMatrix hv _)
    hsource evalCsv
  obtain ⟨results, hresults⟩ := hiff.mpr ⟨by decide +kernel, by decide +kernel⟩
  obtain ⟨hvariants, hcounts⟩ := hall results hresults
  obtain ⟨source, hnew, -, -, hrun⟩ := compareModels_eq_ok_iff.mp hresults
  obtain rfl := Except.ok.inj (hsource.symm.trans hnew)
  refine ⟨results, hresults, hvariants, fun r hr => ?_⟩
  obtain ⟨v, hv, hmeasured⟩ := exists_of_mem_values hrun hr
  obtain ⟨rfl, hcomplete⟩ := ModelBenchmark.complete_of_evaluateVariant hmeasured
  obtain ⟨-, -, hcov, -, hn, ha, hreport, -⟩ := hcomplete
  rw [minTrainSequences_of_mem_ablationMatrix hv] at hcov hn ha
  obtain ⟨htrain, heval, -⟩ := hcounts r hr
  have htwo : r.covered = 2 := hcov.trans hcovered.1
  refine ⟨htrain.trans hbenign, htwo, ?_, ?_⟩
  · have hflows : r.covered + r.uncovered = 2 := heval.trans hlabelled
    omega
  · rw [hreport, hn.trans hcovered.2.1, ha.trans hcovered.2.2]
    exact ⟨one_pos, one_pos⟩

end

/-! ### The same through the pipe -/

/-- The commands that measure one version. -/
def measure (v : ModelVariant) : List Command := [.train v, .evaluate v.targetFpr]

/-- The commands that compare versions on two files. -/
def comparison (normalCsv evalCsv : CsvFile) (variants : List ModelVariant) (ratio : PyFloat)
    (limit : Option ℤ) : List Command :=
  .produceTrain normalCsv ratio limit :: .produceEval evalCsv limit :: variants.flatMap measure

/-- The answers that tell the result of one version. -/
def answersOf (r : VariantResult) : List Answer :=
  [.counts r.trainCount r.validationCount, .metrics r.scored]

omit [Interpreter] [Libraries] [ScikitLearn] in
theorem length_answersOf (r : VariantResult) : (answersOf r).length = 2 := rfl

/-- The benchmark on what is put down. -/
def Ledger.benchmark (l : Ledger) : ModelBenchmark := ⟨l.normal, l.validation, l.labeled⟩

variable [WordTable]

/-- A version is measured on the flows of the ledger, and leaves them alone. -/
theorem Ledger.benchmark_measure (l : Ledger) (v : ModelVariant) :
    (Ledger.machine.run l (measure v)).1.benchmark = l.benchmark := by
  show (l.train v).1.benchmark = l.benchmark
  rcases l.train_cases v with ⟨d, trained, -, -, heq⟩ | ⟨⟨e, heq⟩, -⟩
  · rw [heq]
    rfl
  · rw [heq]

/-- **One version**: the answers are those of a result exactly if it is the result of the
benchmark. -/
theorem Ledger.run_measure (l : Ledger) (v : ModelVariant) (r : VariantResult) :
    (Ledger.machine.run l (measure v)).2 = answersOf r ∧ r.variant = v ↔
      l.benchmark.evaluateVariant v = .ok r := by
  have hlabeled : (l.train v).1.labeled = l.labeled :=
    congrArg ModelBenchmark.labeledEval (l.benchmark_measure v)
  have hone := fun n k scored => l.measured_iff v (List.forall_mem_nil _) n k scored
  simp only [Machine.run] at hone
  constructor
  · rintro ⟨hanswers, rfl⟩
    obtain ⟨hcounts, htail⟩ := List.cons.inj hanswers
    have h := (hone _ _ _).mp ⟨hcounts, (List.cons.inj htail).1⟩
    exact (congrArg (fun labeled => ModelBenchmark.evaluateVariant ⟨_, _, labeled⟩ r.variant)
      hlabeled.symm).trans h
  · intro h
    obtain ⟨-, -, scored, -, -, -, rfl⟩ := ModelBenchmark.evaluateVariant_eq_ok_iff.mp h
    have h' := (congrArg (fun labeled => ModelBenchmark.evaluateVariant ⟨_, _, labeled⟩ v)
      hlabeled).trans h
    obtain ⟨hcounts, hmetrics⟩ := (hone _ _ _).mpr h'
    exact ⟨congrArg₂ (fun a b => [a, b]) hcounts hmetrics, rfl⟩

/-- **All versions**, one after the other: no detector is left over from one version to the
next. -/
theorem Ledger.run_flatMap_measure (l : Ledger) (variants : List ModelVariant)
    (results : List VariantResult) :
    (Ledger.machine.run l (variants.flatMap measure)).2 = results.flatMap answersOf ∧
        results.map VariantResult.variant = variants ↔
      l.benchmark.run variants = .ok results := by
  induction variants generalizing l results with
  | nil =>
    constructor
    · rintro ⟨-, h⟩
      rw [List.map_eq_nil_iff.mp h]
      rfl
    · intro h
      obtain rfl := Except.ok.inj h
      exact ⟨rfl, rfl⟩
  | cons v variants ih =>
    rw [List.flatMap_cons, Machine.run_append]
    refine Iff.trans ?_ mapM_cons_eq_ok_iff.symm
    constructor
    · rintro ⟨hanswers, hvariants⟩
      obtain ⟨r, results', rfl, hr, hvariants'⟩ := List.map_eq_cons_iff.mp hvariants
      rw [List.flatMap_cons] at hanswers
      obtain ⟨hhead, htail⟩ := List.append_inj hanswers
        ((Machine.length_run _ _ _).trans (length_answersOf r).symm)
      have hrest := (ih _ results').mp ⟨htail, hvariants'⟩
      rw [l.benchmark_measure v] at hrest
      exact ⟨r, results', (l.run_measure v r).mp ⟨hhead, hr⟩, hrest, rfl⟩
    · rintro ⟨r, results', hr, hrest, rfl⟩
      obtain ⟨hhead, rfl⟩ := (l.run_measure v r).mpr hr
      have hrest' : (Ledger.machine.run l (measure r.variant)).1.benchmark.run variants =
          .ok results' := by
        rw [l.benchmark_measure]
        exact hrest
      obtain ⟨htail, hvariants⟩ := (ih _ results').mpr hrest'
      rw [hhead, htail, List.flatMap_cons, List.map_cons, hvariants]
      exact ⟨rfl, rfl⟩

omit [Libraries] [ScikitLearn] [WordTable] in
/-- Publishing a file for training returns exactly if the file is read to its end. -/
theorem Ledger.produceTrain_eq_counts_iff {l : Ledger} {normalCsv : CsvFile} {ratio : PyFloat}
    {limit : Option ℤ} {nNormal nVal : ℕ} :
    (l.produceTrain normalCsv ratio limit).2 = .counts nNormal nVal ↔
      ∃ source, CsicTrafficSource.new normalCsv ratio limit = .ok source ∧
        source.benignFlows.raised = none ∧
        source.normal.yields.length = nNormal ∧ source.validation.yields.length = nVal := by
  rw [produceTrain]
  cases CsicTrafficSource.new normalCsv ratio limit with
  | error e =>
    constructor
    · intro h
      cases h
    · rintro ⟨source, h, -⟩
      cases h
  | ok source =>
    dsimp only
    cases hraised : source.benignFlows.raised with
    | some e =>
      refine iff_of_false (fun h => by cases h) ?_
      rintro ⟨source', hsource, h, -⟩
      rw [← Except.ok.inj hsource, hraised] at h
      cases h
    | none =>
      constructor
      · intro h
        obtain ⟨hn, hk⟩ := Answer.counts.inj h
        exact ⟨source, rfl, hraised, hn, hk⟩
      · rintro ⟨source', hsource, -, hn, hk⟩
        rw [← Except.ok.inj hsource] at hn hk
        exact congrArg₂ Answer.counts hn hk

omit [Libraries] [ScikitLearn] [WordTable] in
/-- Publishing a file for evaluation does. -/
theorem Ledger.produceEval_eq_count_iff {l : Ledger} {evalCsv : CsvFile} {limit : Option ℤ}
    {n : ℕ} : (l.produceEval evalCsv limit).2 = .count n ↔
      (iterBalancedPackets evalCsv limit).raised = none ∧
        (labelledFlows evalCsv limit).yields.length = n := by
  rw [produceEval]
  dsimp only
  cases (iterBalancedPackets evalCsv limit).raised with
  | some e =>
    constructor
    · intro h
      cases h
    · rintro ⟨h, -⟩
      cases h
  | none => exact ⟨fun h => ⟨rfl, Answer.count.inj h⟩, fun h => congrArg Answer.count h.2⟩

omit [Libraries] [ScikitLearn] [WordTable] in
/-- What a ledger that was empty then holds. -/
theorem Ledger.benchmark_produced {normalCsv evalCsv : CsvFile} {ratio : PyFloat}
    {limit : Option ℤ} {source : CsicTrafficSource}
    (hsource : CsicTrafficSource.new normalCsv ratio limit = .ok source)
    (hraised : source.benignFlows.raised = none) :
    ((Ledger.produceTrain { } normalCsv ratio limit).1.produceEval evalCsv limit).1.benchmark =
      ⟨source.normal.yields, source.validation.yields, (labelledFlows evalCsv limit).yields⟩ := by
  rw [produceTrain_of_ok hsource hraised]
  rfl

/-- **A comparison is what the pipe answers.** Both files are published on an empty pipe, and
every version is trained and evaluated in turn. Comparing the versions on the files returns some
results exactly if publishing returns, and the answers that follow are those of the results,
with the versions in order. -/
theorem Pipeline.run_compareModels (normalCsv evalCsv : CsvFile) (variants : List ModelVariant)
    (ratio : PyFloat) (limit : Option ℤ) (results : List VariantResult) :
    compareModels normalCsv evalCsv variants ratio limit = .ok results ↔
      results.map VariantResult.variant = variants ∧
        ∃ nNormal nVal n,
          (Pipeline.machine.run { } (comparison normalCsv evalCsv variants ratio limit)).2 =
            .counts nNormal nVal :: .count n :: results.flatMap answersOf := by
  have htrans : ∀ command ∈ comparison normalCsv evalCsv variants ratio limit,
      command.Transmissible := by
    refine List.forall_mem_cons.mpr ⟨trivial, List.forall_mem_cons.mpr ⟨trivial, ?_⟩⟩
    intro command hcommand
    obtain ⟨v, -, hv⟩ := List.mem_flatMap.mp hcommand
    rcases List.mem_pair.mp hv with rfl | rfl
    · trivial
    · trivial
  -- the ledger gives the same answers, and says what is read
  rw [(simulates.run holds_empty htrans).2, compareModels_eq_ok_iff]
  let l := ((Ledger.produceTrain { } normalCsv ratio limit).1.produceEval evalCsv limit).1
  have hrun : (Ledger.machine.run { } (comparison normalCsv evalCsv variants ratio limit)).2 =
      (Ledger.produceTrain { } normalCsv ratio limit).2 ::
        ((Ledger.produceTrain { } normalCsv ratio limit).1.produceEval evalCsv limit).2 ::
          (Ledger.machine.run l (variants.flatMap measure)).2 := rfl
  rw [hrun]
  constructor
  · rintro ⟨source, hsource, hraised, heval, h⟩
    rw [← Ledger.benchmark_produced hsource hraised] at h
    obtain ⟨hanswers, hvariants⟩ := (l.run_flatMap_measure variants results).mpr h
    have hcounts : (Ledger.produceTrain { } normalCsv ratio limit).2 = _ :=
      Ledger.produceTrain_eq_counts_iff.mpr ⟨source, hsource, hraised, rfl, rfl⟩
    have hcount : ((Ledger.produceTrain { } normalCsv ratio limit).1.produceEval evalCsv limit).2 =
      _ := Ledger.produceEval_eq_count_iff.mpr ⟨heval, rfl⟩
    exact ⟨hvariants, _, _, _, congrArg₂ List.cons hcounts (congrArg₂ List.cons hcount hanswers)⟩
  · rintro ⟨hvariants, nNormal, nVal, n, h⟩
    obtain ⟨hcounts, htail⟩ := List.cons.inj h
    obtain ⟨hcount, hanswers⟩ := List.cons.inj htail
    obtain ⟨source, hsource, hraised, -, -⟩ := Ledger.produceTrain_eq_counts_iff.mp hcounts
    refine ⟨source, hsource, hraised, (Ledger.produceEval_eq_count_iff.mp hcount).1, ?_⟩
    rw [← Ledger.benchmark_produced hsource hraised]
    exact (l.run_flatMap_measure variants results).mp ⟨hanswers, hvariants⟩

end LearningData
