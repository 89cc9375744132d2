import LfWaap.Hmm.ModelBenchmark
import LfWaap.LearningData.KafkaPipeline
import LfWaap.Streaming.TrafficSource

/-!
# Training through the pipe

`learning_data.kafka_pipeline` and `learning_data.calibrate_cli`: a detector is trained on the
benign records of a file, either directly (`LearningData.trainModel`), or after the flows have
been published on the two training topics (`LearningData.produceTrain`,
`LearningData.trainFromPipe`).

The two ways leave the same detector in the repository, and raise the same where they raise
(`LearningData.trainFromPipe_produceTrain`). A file that cannot be read to its end leaves the
first half of its flows behind: a training on the topics then returns, reports no validation
flow, and stores a detector without a model (`LearningData.trainFromPipe_interrupted`).
-/

namespace LearningData

open Python Waf

variable [Interpreter]

/-! ### The two ways to train -/

/-- The flows of a loop are published on a topic, and counted. -/
def publishFlows (topic : Text) (flows : Generator Flow) (channel : InMemoryChannel) :
    InMemoryChannel × Except PyError ℕ :=
  match flows.forEach (fun s f => ((s.1.publish topic (encodeFlow f), s.2 + 1), none))
    (channel, 0) with
  | ((channel, count), none) => (channel, .ok count)
  | ((channel, _), some e) => (channel, .error e)

/-- **Publishing a file for training**: the channel it leaves behind, and the numbers of normal
and of validation flows. -/
def produceTrain (channel : InMemoryChannel) (normalCsv : CsvFile)
    (validationRatio : PyFloat := .finite (3602879701896397 / 2 ^ 54))
    (limit : Option ℤ := none) : InMemoryChannel × Except PyError (ℕ × ℕ) :=
  match CsicTrafficSource.new normalCsv validationRatio limit with
  | .error e => (channel, .error e)
  | .ok source =>
    match publishFlows defaultNormalTopic source.normal channel with
    | (channel, .error e) => (channel, .error e)
    | (channel, .ok nNormal) =>
      match publishFlows defaultValidationTopic source.validation channel with
      | (channel, .error e) => (channel, .error e)
      | (channel, .ok nVal) => (channel, .ok (nNormal, nVal))

section

variable [Libraries]

/-- **Training on the topics**, and storing: the repository it leaves behind, and the numbers
of flows. -/
noncomputable def trainFromPipe (channel : InMemoryChannel) (repository : PickleModelRepository)
    (variant : ModelVariant) : PickleModelRepository × Except PyError (ℕ × ℕ) :=
  match variant.buildDetector with
  | .error e => (repository, .error e)
  | .ok detector =>
    match calibrateModel (StreamingTrafficSource.toTrafficSource { channel := channel })
      repository detector with
    | (repository, .error e) => (repository, .error e)
    | (repository, .ok report) => (repository, .ok (report.normalCount, report.validationCount))

/-- **Training on a file**, and storing. -/
noncomputable def trainModel (normalCsv : CsvFile) (repository : PickleModelRepository)
    (validationRatio : PyFloat := .finite (3602879701896397 / 2 ^ 54))
    (extractor : Text := text "byte_class") (nStates : ℕ := 8) (window : ℤ := 0)
    (ensembleSize : ℤ := 1) (maxFitWindows : Option ℤ := none) (targetFpr : ℝ := 1 / 100)
    (nIter : ℤ := 100) (limit : Option ℤ := none) :
    PickleModelRepository × Except PyError CalibrationReport :=
  match CsicTrafficSource.new normalCsv validationRatio limit with
  | .error e => (repository, .error e)
  | .ok source =>
    match extractorByName extractor with
    | .error e => (repository, .error e)
    | .ok x =>
      let settings : HmmSettings :=
        { extractor := x, nStates := nStates, window := window, ensembleSize := ensembleSize,
          maxFitWindows := maxFitWindows, targetFpr := targetFpr, nIter := nIter }
      calibrateModel ⟨source.normal, source.validation⟩ repository ⟨settings, { }⟩

end

/-! ### What is published -/

theorem publishFlows_eq (topic : Text) (flows : Generator Flow) (channel : InMemoryChannel) :
    publishFlows topic flows channel =
      (channel.publishAll topic (flows.yields.map encodeFlow),
        flows.toList.map List.length) := by
  have hfold : ∀ (fs : List Flow) (channel : InMemoryChannel) (count : ℕ),
      fs.foldl (fun s f => (s.1.publish topic (encodeFlow f), s.2 + 1)) (channel, count) =
        (channel.publishAll topic (fs.map encodeFlow), count + fs.length) := by
    intro fs
    induction fs with
    | nil => exact fun _ _ => rfl
    | cons f fs ih =>
      intro channel count
      rw [List.foldl_cons, ih, List.map_cons, List.length_cons, Nat.add_right_comm, Nat.add_assoc]
      rfl
  rw [publishFlows, Generator.forEach_of_total, hfold, Generator.toList]
  cases flows.raised with
  | none =>
    show (_, Except.ok (0 + flows.yields.length)) = _
    rw [Nat.zero_add]
    rfl
  | some e => rfl

section

variable {channel : InMemoryChannel} {normalCsv : CsvFile} {ratio : PyFloat} {limit : Option ℤ}
  {source : CsicTrafficSource}

/-- A file that is read to its end: both topics receive their flows. -/
theorem produceTrain_complete (hsource : CsicTrafficSource.new normalCsv ratio limit = .ok source)
    (hraised : source.benignFlows.raised = none) (channel : InMemoryChannel) :
    produceTrain channel normalCsv ratio limit =
      ((channel.publishAll defaultNormalTopic (source.normal.yields.map encodeFlow)).publishAll
          defaultValidationTopic (source.validation.yields.map encodeFlow),
        .ok (source.normal.yields.length, source.validation.yields.length)) := by
  have hlist : ∀ flows : Generator Flow, flows.raised = none → flows.toList = .ok flows.yields := by
    intro flows h
    rw [Generator.toList, h]
  rw [produceTrain, hsource]
  simp only [publishFlows_eq, hlist source.normal hraised, hlist source.validation hraised,
    Except.map]

/-- A file that is not: the first topic receives the flows that are read, the other one
nothing. -/
theorem produceTrain_interrupted
    (hsource : CsicTrafficSource.new normalCsv ratio limit = .ok source) {e : PyError}
    (hraised : source.benignFlows.raised = some e) (channel : InMemoryChannel) :
    produceTrain channel normalCsv ratio limit =
      (channel.publishAll defaultNormalTopic (source.normal.yields.map encodeFlow),
        .error e) := by
  have hlist : source.normal.toList = .error e := by
    rw [Generator.toList, show source.normal.raised = some e from hraised]
  rw [produceTrain, hsource]
  simp only [publishFlows_eq, hlist, Except.map]

/-- The flows of records survive the codec. -/
theorem transmissible_of_mem_benign {f : Flow} (hf : f ∈ benign normalCsv limit) :
    f.Transmissible := by
  obtain ⟨record, -, rfl⟩ := List.mem_map.mp hf
  exact transmissible_recordToFlow record

/-- Both topics together receive the flows of the benign records. -/
theorem perm_benign_of_new (hsource : CsicTrafficSource.new normalCsv ratio limit = .ok source) :
    (source.validation.yields ++ source.normal.yields).Perm (benign normalCsv limit) := by
  have hfields : source.csv = normalCsv ∧ source.limit = limit := by
    cases ratio with
    | finite r =>
      obtain ⟨-, s, -, rfl⟩ := CsicTrafficSource.new_eq_ok_iff.mp hsource
      exact ⟨rfl, rfl⟩
    | _ => cases hsource
  rw [CsicTrafficSource.normal_yields, CsicTrafficSource.validation_yields, hfields.1, hfields.2]
  exact Words.atPositions_append_perm _ _

/-- All flows of a source survive the codec. -/
theorem transmissible_of_new (hsource : CsicTrafficSource.new normalCsv ratio limit = .ok source) :
    (∀ f ∈ source.normal.yields, f.Transmissible) ∧
      ∀ f ∈ source.validation.yields, f.Transmissible := by
  have hperm := perm_benign_of_new hsource
  exact ⟨fun f hf => transmissible_of_mem_benign
      (hperm.subset (List.mem_append_right _ hf)),
    fun f hf => transmissible_of_mem_benign (hperm.subset (List.mem_append_left _ hf))⟩

/-- Flows that are published on a topic that held nothing are read from it. -/
theorem flows_of_poll {pipe : StreamingTrafficSource} {topic : Text} {flows : List Flow}
    (hpoll : pipe.channel.poll topic = flows.map encodeFlow)
    (hflows : ∀ f ∈ flows, f.Transmissible) : pipe.flows topic = ⟨flows, none⟩ := by
  have hdecode : mapUntil decodeFlow (flows.map encodeFlow) = (flows.map id, none) :=
    mapUntil_map_of_ok fun f hf => decodeFlow_encodeFlow (hflows f hf)
  rw [StreamingTrafficSource.flows, hpoll, hdecode, List.map_id]

end

/-! ### The two ways agree -/

section

variable [Libraries] {channel : InMemoryChannel} {normalCsv : CsvFile} {ratio : PyFloat}
  {limit : Option ℤ} {variant : ModelVariant}

/-- Training on a file with the hyperparameters of a version. -/
noncomputable def trainVariant (normalCsv : CsvFile) (repository : PickleModelRepository)
    (ratio : PyFloat) (variant : ModelVariant) (limit : Option ℤ) :
    PickleModelRepository × Except PyError CalibrationReport :=
  trainModel normalCsv repository ratio variant.extractor variant.nStates variant.window
    variant.ensembleSize variant.maxFitWindows variant.targetFpr variant.nIter limit

omit [Interpreter] in
/-- The counts that a calibration reports. -/
def countsOf (report : CalibrationReport) : ℕ × ℕ := (report.normalCount, report.validationCount)

/-- A training on the topics is a calibration. -/
theorem trainFromPipe_eq {d : HmmDetector} (hbuild : variant.buildDetector = .ok d)
    (channel : InMemoryChannel) (repository : PickleModelRepository) :
    trainFromPipe channel repository variant =
      let source := StreamingTrafficSource.toTrafficSource { channel := channel }
      ((calibrateModel source repository d).1,
        (calibrateModel source repository d).2.map countsOf) := by
  rw [trainFromPipe, hbuild]
  dsimp only
  rcases calibrateModel (StreamingTrafficSource.toTrafficSource { channel := channel })
    repository d with ⟨r, e | report⟩
  · rfl
  · rfl

omit [Libraries] in
/-- What is read from two topics that received the flows of a file. -/
theorem toTrafficSource_produced {source : CsicTrafficSource}
    (hsource : CsicTrafficSource.new normalCsv ratio limit = .ok source)
    (hraised : source.benignFlows.raised = none) (hnormal : channel.poll defaultNormalTopic = [])
    (hvalidation : channel.poll defaultValidationTopic = []) :
    StreamingTrafficSource.toTrafficSource
        { channel := (channel.publishAll defaultNormalTopic
          (source.normal.yields.map encodeFlow)).publishAll defaultValidationTopic
            (source.validation.yields.map encodeFlow) } =
      ⟨source.normal, source.validation⟩ := by
  have hne : defaultNormalTopic ≠ defaultValidationTopic := by decide
  obtain ⟨hn, hv⟩ := transmissible_of_new hsource
  refine congrArg₂ TrafficSource.mk ?_ ?_
  · refine (flows_of_poll ?_ hn).trans (congrArg (Generator.mk _) hraised.symm)
    show (InMemoryChannel.publishAll _ _ _).poll defaultNormalTopic = _
    rw [InMemoryChannel.poll_publishAll, if_neg hne.symm, InMemoryChannel.poll_publishAll,
      if_pos rfl, hnormal, List.nil_append]
  · refine (flows_of_poll ?_ hv).trans (congrArg (Generator.mk _) hraised.symm)
    show (InMemoryChannel.publishAll _ _ _).poll defaultValidationTopic = _
    rw [InMemoryChannel.poll_publishAll, if_pos rfl, InMemoryChannel.poll_publishAll, if_neg hne,
      hvalidation, List.nil_append]

/-- **The two ways to train agree.** Where publishing a file on two empty topics raises,
training on the file raises the same; and once it has been published, training on the topics
leaves the same detector in the repository as training on the file, or raises the same, and
reports the numbers of flows that were published. Together these are the benign records. -/
theorem trainFromPipe_produceTrain (hnormal : channel.poll defaultNormalTopic = [])
    (hvalidation : channel.poll defaultValidationTopic = []) (repository : PickleModelRepository)
    {x : FeatureExtractor} (hx : extractorByName variant.extractor = .ok x)
    (hmin : variant.minTrainSequences = 10) (normalCsv : CsvFile) (ratio : PyFloat)
    (limit : Option ℤ) :
    (∀ e, (produceTrain channel normalCsv ratio limit).2 = .error e →
        trainVariant normalCsv repository ratio variant limit = (repository, .error e)) ∧
      ∀ n k, (produceTrain channel normalCsv ratio limit).2 = .ok (n, k) →
        n + k = (benign normalCsv limit).length ∧
        trainFromPipe (produceTrain channel normalCsv ratio limit).1 repository variant =
          ((trainVariant normalCsv repository ratio variant limit).1,
            (trainVariant normalCsv repository ratio variant limit).2.map countsOf) ∧
        ∀ report, (trainVariant normalCsv repository ratio variant limit).2 = .ok report →
          countsOf report = (n, k) := by
  have hsettings : variant.settings x =
      { extractor := x, nStates := variant.nStates, window := variant.window,
        ensembleSize := variant.ensembleSize, maxFitWindows := variant.maxFitWindows,
        targetFpr := variant.targetFpr, nIter := variant.nIter } := by
    rw [ModelVariant.settings, hmin]
  have hbuild : variant.buildDetector = .ok ⟨variant.settings x, { }⟩ :=
    ModelVariant.buildDetector_eq_ok_iff.mpr ⟨x, hx, rfl⟩
  cases hsource : CsicTrafficSource.new normalCsv ratio limit with
  | error e =>
    have hproduce : produceTrain channel normalCsv ratio limit = (channel, .error e) := by
      rw [produceTrain, hsource]
    have htrain :
        trainVariant normalCsv repository ratio variant limit = (repository, .error e) := by
      rw [trainVariant, trainModel, hsource]
    rw [hproduce, htrain]
    exact ⟨fun e' he' => by rw [Except.error.inj he'], fun n k h => by cases h⟩
  | ok source =>
    have htrain : trainVariant normalCsv repository ratio variant limit =
        calibrateModel ⟨source.normal, source.validation⟩ repository ⟨variant.settings x, { }⟩ := by
      rw [trainVariant, trainModel, hsource, hsettings]
      simp only [hx]
    cases hraised : source.benignFlows.raised with
    | some e =>
      rw [produceTrain_interrupted hsource hraised, htrain]
      refine ⟨fun e' he' => ?_, fun n k h => by cases h⟩
      rw [← Except.error.inj he', calibrateModel, Generator.toList,
        show source.normal.raised = some e from hraised]
    | none =>
      rw [produceTrain_complete hsource hraised, htrain]
      refine ⟨fun e h => (by cases h), fun n k h => ?_⟩
      obtain ⟨rfl, rfl⟩ := Prod.mk.inj (Except.ok.inj h)
      have hlength := (perm_benign_of_new hsource).length_eq
      rw [List.length_append] at hlength
      rw [trainFromPipe_eq hbuild, toTrafficSource_produced hsource hraised hnormal hvalidation]
      refine ⟨by omega, rfl, fun report hreport => ?_⟩
      rcases calibrateModel_cases ⟨source.normal, source.validation⟩ repository
        ⟨variant.settings x, { }⟩ with ⟨e, heq, -⟩ | ⟨normal, validation, trained, hn, hv, -, heq⟩
      · rw [heq] at hreport
        cases hreport
      · rw [Generator.toList, show source.normal.raised = none from hraised] at hn
        rw [Generator.toList, show source.validation.raised = none from hraised] at hv
        rw [heq] at hreport
        rw [← Except.ok.inj hreport, ← Except.ok.inj hn, ← Except.ok.inj hv]
        rfl

omit [Interpreter] [Libraries] in
/-- A file with two benign packets, one of which is held out. -/
theorem trainFromPipe_produceTrain_two :
    let _ : Interpreter := .ascii
    let _ : Libraries := .memoryless
    let csv : CsvFile :=
      { rows := ⟨[[text "URL", text "class"], [text "/", text "normal"],
          [text "/", text "normal"]], none⟩
        latin1 := by decide }
    let produced := produceTrain { } csv (.finite (1 / 2))
    let variant : ModelVariant := { name := text "cli" }
    produced.2 = .ok (1, 1) ∧
      trainFromPipe produced.1 { } variant =
        ((trainVariant csv { } (.finite (1 / 2)) variant none).1,
          (trainVariant csv { } (.finite (1 / 2)) variant none).2.map countsOf) := by
  intro _ _ csv produced variant
  have hsource : CsicTrafficSource.new csv (.finite (1 / 2)) none = .ok ⟨csv, none, 2⟩ :=
    CsicTrafficSource.new_eq_ok_iff.mpr ⟨by norm_num, 2, by decide +kernel, rfl⟩
  have hcount : produced.2 = .ok (1, 1) := by
    show (produceTrain { } csv (.finite (1 / 2)) none).2 = _
    rw [produceTrain_complete hsource (by decide +kernel)]
    decide +kernel
  have hextractor : extractorByName variant.extractor = .ok byteClassExtractor :=
    extractorByName_byteClass
  have hempty : ∀ topic, InMemoryChannel.poll { } topic = [] := fun _ => rfl
  have hagree := trainFromPipe_produceTrain (hempty _) (hempty _) { } hextractor rfl csv
    (.finite (1 / 2)) none
  exact ⟨hcount, (hagree.2 1 1 hcount).2.1⟩

/-! ### A file that is not read to its end -/

/-- Groups without validation sequences are skipped. -/
theorem trainLoop_of_not_eligible {c : HmmSettings} {valGroups : Groups c}
    {groups : List (PartitionKey × List (List (Fin c.nSymbols)))}
    (h : ∀ g ∈ groups, ¬ Eligible c valGroups g.1 g.2) (models : Models c) :
    trainLoop valGroups groups models = (models, .ok ()) := by
  induction groups with
  | nil => rfl
  | cons g groups ih =>
    obtain ⟨hg, hgroups⟩ := List.forall_mem_cons.mp h
    rw [trainLoop, if_neg hg]
    exact ih hgroups

/-- **Training without validation flows** returns, whatever the libraries do, and leaves no
model. -/
theorem HmmDetector.train_nil (c : HmmSettings) {normal : List Flow}
    (hn : ∀ f ∈ normal, c.extractor.Extracts f) :
    HmmDetector.train ⟨c, { }⟩ normal [] =
      (⟨c, ⟨.empty, some normal.length, some 0⟩⟩, .ok ()) := by
  obtain ⟨trainGroups, htrain⟩ := exists_groupSequences (c := c) hn .empty
  have hgroups : groupSequences c normal = .ok trainGroups := htrain
  have hnone : groupSequences c [] = .ok .empty := rfl
  have hloop : trainLoop .empty trainGroups.entries .empty = (.empty, .ok ()) :=
    trainLoop_of_not_eligible (fun g _ he => he (Or.inr rfl)) .empty
  rw [HmmDetector.train]
  simp only [PartitionedHmm.train, hgroups, hnone, hloop]
  rfl

/-- **Half a file**: where the file of the normal traffic cannot be read to its end, publishing
raises, and leaves flows on the first topic only. A training on the topics then returns,
whatever the libraries do; it reports no validation flow, and replaces what the repository
held by a detector without a model. -/
theorem trainFromPipe_interrupted (hnormal : channel.poll defaultNormalTopic = [])
    (hvalidation : channel.poll defaultValidationTopic = []) (repository : PickleModelRepository)
    {source : CsicTrafficSource}
    (hsource : CsicTrafficSource.new normalCsv ratio limit = .ok source)
    {e : PyError} (hraised : (iterPackets source.csv source.limit).raised = some e)
    {x : FeatureExtractor} (hx : extractorByName variant.extractor = .ok x) :
    (produceTrain channel normalCsv ratio limit).2 = .error e ∧
      ∃ d, d.isTrained = false ∧
        trainFromPipe (produceTrain channel normalCsv ratio limit).1 repository variant =
          (repository.save d, .ok (source.normal.yields.length, 0)) := by
  have hne : defaultNormalTopic ≠ defaultValidationTopic := by decide
  have hbuild : variant.buildDetector = .ok ⟨variant.settings x, { }⟩ :=
    ModelVariant.buildDetector_eq_ok_iff.mpr ⟨x, hx, rfl⟩
  rw [produceTrain_interrupted hsource hraised]
  refine ⟨rfl, ⟨variant.settings x, ⟨.empty, some source.normal.yields.length, some 0⟩⟩, rfl, ?_⟩
  have hsplit : StreamingTrafficSource.toTrafficSource
      { channel := channel.publishAll defaultNormalTopic (source.normal.yields.map encodeFlow) } =
        ⟨⟨source.normal.yields, none⟩, ⟨[], none⟩⟩ := by
    refine congrArg₂ TrafficSource.mk ?_ ?_
    · refine flows_of_poll ?_ (transmissible_of_new hsource).1
      show (InMemoryChannel.publishAll _ _ _).poll defaultNormalTopic = _
      rw [InMemoryChannel.poll_publishAll, if_pos rfl, hnormal, List.nil_append]
    · refine flows_of_poll ?_ nofun
      show (InMemoryChannel.publishAll _ _ _).poll defaultValidationTopic = _
      rw [InMemoryChannel.poll_publishAll, if_neg hne, hvalidation]
      rfl
  have hextracts : ∀ f ∈ source.normal.yields, (variant.settings x).extractor.Extracts f :=
    fun f _ => extracts_of_extractorByName hx f
  have htrain := HmmDetector.train_nil (variant.settings x) hextracts
  rw [trainFromPipe_eq hbuild, hsplit]
  simp only [calibrateModel, Generator.toList, htrain]
  rfl

omit [Interpreter] [Libraries] in
/-- A file that ends with an error after its first packet. -/
theorem trainFromPipe_interrupted_one :
    let _ : Interpreter := .ascii
    let _ : Libraries := .memoryless
    let e : PyError := .valueError "truncated"
    let csv : CsvFile :=
      { rows := ⟨[[text "URL", text "class"], [text "/", text "normal"]], some e⟩
        latin1 := by decide }
    let produced := produceTrain { } csv (.finite 0)
    let variant : ModelVariant := { name := text "cli" }
    produced.2 = .error e ∧
      ∃ d, d.isTrained = false ∧
        trainFromPipe produced.1 { } variant = (PickleModelRepository.save { } d, .ok (1, 0)) := by
  intro _ _ e csv produced variant
  have hsource : CsicTrafficSource.new csv (.finite 0) none = .ok ⟨csv, none, 0⟩ :=
    CsicTrafficSource.new_eq_ok_iff.mpr ⟨by norm_num, 0, if_neg (lt_irrefl 0), rfl⟩
  have hempty : ∀ topic, InMemoryChannel.poll { } topic = [] := fun _ => rfl
  have hextractor : extractorByName variant.extractor = .ok byteClassExtractor :=
    extractorByName_byteClass
  have hraised : (iterPackets csv none).raised = some e := by decide +kernel
  have hcount : (CsicTrafficSource.mk csv none 0).normal.yields.length = 1 := by decide +kernel
  have h := trainFromPipe_interrupted (hempty _) (hempty _) { } hsource hraised hextractor
  rw [hcount] at h
  exact h

end

end LearningData
