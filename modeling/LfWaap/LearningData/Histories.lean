import LfWaap.LearningData.Operations

/-!
# Histories of the pipe

What holds over any word of commands, because of what every command does.

* Topics are only ever added to (`LearningData.Pipeline.poll_extends`). So a message that cannot
  be decoded stays: from then on no training returns, and the stored detector is never replaced
  (`LearningData.Pipeline.stored_of_poisoned`).
* An evaluation is a benchmark. The flows for training count that were published before the
  last training, the labelled flows that were published before the evaluation, and nothing
  else (`LearningData.Pipeline.evaluate_eq_benchmark`).
-/

namespace LearningData

open Python Waf Words

variable [Interpreter] [WordTable] [Libraries] [ScikitLearn]

/-! ### Topics that grow -/

omit [Interpreter] [WordTable] [Libraries] [ScikitLearn] in
theorem poll_publishAll_extends (channel : InMemoryChannel) (topic topic' : Text)
    (messages : List Bytes) :
    channel.poll topic' <+: (channel.publishAll topic messages).poll topic' := by
  rw [InMemoryChannel.poll_publishAll]
  split_ifs
  · exact List.prefix_append _ _
  · exact List.prefix_refl _

omit [WordTable] [Libraries] [ScikitLearn] in
theorem poll_produceTrain_extends (channel : InMemoryChannel) (normalCsv : CsvFile)
    (ratio : PyFloat) (limit : Option ℤ) (topic : Text) :
    channel.poll topic <+: (produceTrain channel normalCsv ratio limit).1.poll topic := by
  cases hsource : CsicTrafficSource.new normalCsv ratio limit with
  | error e =>
    rw [produceTrain, hsource]
  | ok source =>
    cases hraised : source.benignFlows.raised with
    | some e =>
      rw [produceTrain_interrupted hsource hraised]
      exact poll_publishAll_extends _ _ _ _
    | none =>
      rw [produceTrain_complete hsource hraised]
      exact (poll_publishAll_extends _ _ _ _).trans (poll_publishAll_extends _ _ _ _)

/-- One command adds to topics. -/
theorem poll_step_extends (p : Pipeline) (command : Command) (topic : Text) :
    p.channel.poll topic <+: (p.step command).1.channel.poll topic := by
  cases command with
  | publish purpose f => exact poll_publishAll_extends p.channel _ topic [encodeFlow f]
  | publishLabeled f isAttack =>
    exact poll_publishAll_extends p.channel _ topic [encodeLabeledFlow f isAttack]
  | publishRequest r => exact poll_publishAll_extends p.channel _ topic [encodeRequest r]
  | produceTrain normalCsv ratio limit =>
    exact poll_produceTrain_extends p.channel normalCsv ratio limit topic
  | produceEval evalCsv limit =>
    show p.channel.poll topic <+: (produceEval p.channel evalCsv limit).1.poll topic
    rw [produceEval_eq]
    exact poll_publishAll_extends _ _ _ _
  | train variant => exact List.prefix_refl _
  | evaluate targetFpr => exact List.prefix_refl _
  | inspect =>
    rw [Pipeline.step]
    cases p.repository.load with
    | error e => exact List.prefix_refl _
    | ok d =>
      show p.channel.poll topic <+: (StreamingInspector.run _ p.channel).1.poll topic
      rw [StreamingInspector.run_eq]
      exact poll_publishAll_extends _ _ _ _

/-- **No message is taken back**: whatever is done, a topic starts as it was. -/
theorem Pipeline.poll_extends (p : Pipeline) (commands : List Command) (topic : Text) :
    p.channel.poll topic <+: (Pipeline.machine.run p commands).1.channel.poll topic :=
  Machine.run_invariant (fun p' => p.channel.poll topic <+: p'.channel.poll topic) (fun _ => True)
    (fun p' command h _ => h.trans (poll_step_extends p' command topic)) (List.prefix_refl _)
    fun _ _ => trivial

/-! ### Messages that cannot be decoded -/

section

variable {p : Pipeline} {e : PyError}

omit [Interpreter] in
/-- An answer that is an exception. -/
def Answer.IsRaised (answer : Answer) : Prop := ∃ e, answer = .raised e

/-- What ends the reading of a topic ends it for ever. -/
theorem mapUntil_of_poisoned {α : Type} {decode : Bytes → Except PyError α} {topic : Text}
    (h : (mapUntil decode (p.channel.poll topic)).2 = some e) (commands : List Command) :
    mapUntil decode ((Pipeline.machine.run p commands).1.channel.poll topic) =
      mapUntil decode (p.channel.poll topic) := by
  obtain ⟨rest, hrest⟩ := p.poll_extends commands topic
  rw [← hrest, mapUntil_append_of_raised h]

/-- A training raises, and leaves the repository alone, if one of its topics cannot be read. -/
theorem train_of_poisoned {topic : Text}
    (ht : topic = defaultNormalTopic ∨ topic = defaultValidationTopic)
    (h : (mapUntil decodeFlow (p.channel.poll topic)).2 = some e) (variant : ModelVariant) :
    (p.step (.train variant)).1.repository = p.repository ∧
      (p.step (.train variant)).2.IsRaised := by
  have hread : ∀ topic, (mapUntil decodeFlow (p.channel.poll topic)).2 = some e →
      (StreamingTrafficSource.flows { channel := p.channel } topic).toList = .error e := by
    intro topic h
    rw [StreamingTrafficSource.flows, Generator.toList]
    simp only [h]
  have hcal : ∀ d, ∃ e', calibrateModel
      (StreamingTrafficSource.toTrafficSource { channel := p.channel }) p.repository d =
        (p.repository, .error e') := by
    intro d
    rcases calibrateModel_cases (StreamingTrafficSource.toTrafficSource { channel := p.channel })
      p.repository d with ⟨e', he', -⟩ | ⟨normal, validation, trained, hn, hv, -, -⟩
    · exact ⟨e', he'⟩
    · rcases ht with rfl | rfl
      · cases (hread _ h).symm.trans hn
      · cases (hread _ h).symm.trans hv
  rw [Pipeline.step]
  cases hbuild : variant.buildDetector with
  | error e' =>
    rw [trainFromPipe, hbuild]
    exact ⟨rfl, e', rfl⟩
  | ok d =>
    obtain ⟨e', he'⟩ := hcal d
    rw [trainFromPipe_eq hbuild]
    dsimp only
    rw [he']
    exact ⟨rfl, e', rfl⟩

/-- No other command writes to the repository. -/
theorem repository_of_not_train (p : Pipeline) {command : Command}
    (h : ∀ variant, command ≠ .train variant) : (p.step command).1.repository = p.repository := by
  cases command with
  | train variant => exact absurd rfl (h variant)
  | inspect =>
    rw [Pipeline.step]
    cases p.repository.load with
    | error e => rfl
    | ok d => rfl
  | _ => rfl

/-- **A training topic with a message that cannot be decoded** stays useless: whatever is done,
no training returns any more, and the stored detector is never replaced. -/
theorem Pipeline.stored_of_poisoned {topic : Text}
    (ht : topic = defaultNormalTopic ∨ topic = defaultValidationTopic)
    (h : (mapUntil decodeFlow (p.channel.poll topic)).2 = some e) (commands : List Command) :
    (Pipeline.machine.run p commands).1.repository = p.repository ∧
      ∀ variant, ((Pipeline.machine.run p commands).1.step (.train variant)).2.IsRaised := by
  refine ⟨?_, fun variant => ?_⟩
  · -- the two are kept together: the message stays, so that the repository does
    have hstep : ∀ (p' : Pipeline) (command : Command),
        p'.repository = p.repository ∧ (mapUntil decodeFlow (p'.channel.poll topic)).2 = some e →
        True → (p'.step command).1.repository = p.repository ∧
          (mapUntil decodeFlow ((p'.step command).1.channel.poll topic)).2 = some e := by
      intro p' command hp' _
      have hstays := mapUntil_of_poisoned hp'.2 [command]
      refine ⟨?_, (congrArg Prod.snd hstays).trans hp'.2⟩
      by_cases htrain : ∃ variant, command = .train variant
      · obtain ⟨variant, rfl⟩ := htrain
        exact (train_of_poisoned ht hp'.2 variant).1.trans hp'.1
      · exact (repository_of_not_train p' fun variant heq => htrain ⟨variant, heq⟩).trans hp'.1
    exact (Machine.run_invariant (m := Pipeline.machine) _ (fun _ => True) hstep ⟨rfl, h⟩
      fun _ (_ : _ ∈ commands) => trivial).1
  · have hstays := mapUntil_of_poisoned h commands
    exact (train_of_poisoned ht ((congrArg Prod.snd hstays).trans h) variant).2

omit [Interpreter] [WordTable] [Libraries] [ScikitLearn] in
/-- A topic with one byte that is not JSON: a flow is published, and a training is tried. -/
theorem Pipeline.stored_of_poisoned_byte :
    let _ : Interpreter := .ascii
    let _ : WordTable := .ascii
    let _ : Libraries := .memoryless
    let _ : ScikitLearn := .exact
    let p : Pipeline := { channel := InMemoryChannel.publish { } defaultNormalTopic [0] }
    let flow := Flow.new (text "http") 80 .inbound [71, 69, 84]
    let variant : ModelVariant := { name := text "demo", minTrainSequences := 1 }
    let commands : List Command :=
      [.publish .fitting flow, .publish .calibrating flow, .train variant]
    (Pipeline.machine.run p commands).1.repository = { } ∧
      ((Pipeline.machine.run p commands).1.step (.train variant)).2.IsRaised := by
  intro _ _ _ _ p flow variant commands
  have hraised : ∃ e, (mapUntil decodeFlow (p.channel.poll defaultNormalTopic)).2 = some e :=
    Option.isSome_iff_exists.mp (by decide +kernel)
  obtain ⟨e, he⟩ := hraised
  obtain ⟨hkept, hraises⟩ := stored_of_poisoned (.inl rfl) he commands
  exact ⟨hkept, hraises variant⟩

/-- **An evaluation topic with such a message**: no evaluation returns any more. -/
theorem Pipeline.evaluate_of_poisoned
    (h : (mapUntil decodeLabeledFlow (p.channel.poll evalTopic)).2 = some e)
    (commands : List Command) (targetFpr : ℝ) :
    ((Pipeline.machine.run p commands).1.step (.evaluate targetFpr)).2.IsRaised := by
  have hstays := (congrArg Prod.snd (mapUntil_of_poisoned h commands)).trans h
  set p' := (Pipeline.machine.run p commands).1
  have hread : (StreamingLabeledSource.labeled { channel := p'.channel }).toList = .error e := by
    have hpoll : (mapUntil decodeLabeledFlow (p'.channel.poll (text "waf.eval.labeled"))).2 =
      some e := hstays
    rw [StreamingLabeledSource.labeled, Generator.toList]
    simp only [hpoll]
  show (Answer.of .metrics (evaluateFromPipe p'.channel p'.repository targetFpr)).IsRaised
  rw [evaluateFromPipe]
  cases p'.repository.load with
  | error e' => exact ⟨e', rfl⟩
  | ok d =>
    refine ⟨e, ?_⟩
    show Answer.of .metrics
      ((StreamingLabeledSource.labeled { channel := p'.channel }).toList >>= _) = _
    rw [hread]
    rfl

end

/-! ### Evaluations are benchmarks -/

section

variable {l : Ledger} {v : ModelVariant}

omit [ScikitLearn] in
/-- Without a detector, nothing is inspected. -/
theorem Ledger.inspect_of_none (h : l.detector = none) :
    l.inspect = (l, .raised (.fileNotFoundError "no model saved")) := by
  rw [Ledger.inspect, h]

omit [ScikitLearn] in
/-- With a detector, the requests are decided up to the first one that cannot be. -/
theorem Ledger.inspect_of_some {d : HmmDetector} (h : l.detector = some d) :
    l.inspect =
      ({ l with
          verdicts := l.verdicts ++ (mapUntil (decisionService d).decide l.requests).1 },
        (mapUntil (decisionService d).decide l.requests).2.elim
          (.count (mapUntil (decisionService d).decide l.requests).1.length) .raised) := by
  rw [Ledger.inspect, h]
  dsimp only
  rw [← h]
  cases (mapUntil (decisionService d).decide l.requests).2 with
  | none => rfl
  | some e => rfl

/-- No other command writes to the detector of the ledger. -/
theorem Ledger.detector_of_not_train (l : Ledger) {command : Command}
    (h : ∀ variant, command ≠ .train variant) : (l.step command).1.detector = l.detector := by
  cases command with
  | publish purpose f => cases purpose <;> rfl
  | produceTrain normalCsv ratio limit =>
    rw [Ledger.step, Ledger.produceTrain]
    cases CsicTrafficSource.new normalCsv ratio limit with
    | error e => rfl
    | ok source =>
      dsimp only
      cases source.benignFlows.raised with
      | some e => rfl
      | none => rfl
  | train variant => exact absurd rfl (h variant)
  | inspect =>
    show l.inspect.1.detector = l.detector
    cases hd : l.detector with
    | none => rw [inspect_of_none hd, hd]
    | some d => rw [inspect_of_some hd, hd]
  | _ => rfl

/-- The detector that is trained stays until the next training. -/
theorem Ledger.detector_of_run (l : Ledger) {middle : List Command}
    (h : ∀ command ∈ middle, ∀ variant, command ≠ .train variant) :
    (Ledger.machine.run l middle).1.detector = l.detector :=
  Machine.run_invariant (m := Ledger.machine) (fun l' => l'.detector = l.detector)
    (fun command => ∀ variant, command ≠ .train variant)
    (fun l' _ hl' hcommand => (l'.detector_of_not_train hcommand).trans hl') rfl h

omit [WordTable] [ScikitLearn] in
/-- A training that returns. -/
theorem Ledger.train_of_ok {d trained : HmmDetector} (hbuild : v.buildDetector = .ok d)
    (htrain : d.train l.normal l.validation = (trained, .ok ())) :
    l.train v =
      ({ l with detector := some trained }, .counts l.normal.length l.validation.length) := by
  rw [Ledger.train, hbuild]
  simp only [htrain]

omit [WordTable] [Libraries] [ScikitLearn] in
/-- A file that is read to its end. -/
theorem Ledger.produceTrain_of_ok {normalCsv : CsvFile} {ratio : PyFloat} {limit : Option ℤ}
    {source : CsicTrafficSource}
    (hsource : CsicTrafficSource.new normalCsv ratio limit = .ok source)
    (hraised : source.benignFlows.raised = none) (l : Ledger) :
    l.produceTrain normalCsv ratio limit =
      ({ l with
          normal := l.normal ++ source.normal.yields
          validation := l.validation ++ source.validation.yields },
        .counts source.normal.yields.length source.validation.yields.length) := by
  rw [Ledger.produceTrain, hsource]
  simp only [hraised]

omit [WordTable] [ScikitLearn] in
/-- **What a training does** to the ledger: it returns, and replaces the detector, or it raises
and changes nothing. -/
theorem Ledger.train_cases (l : Ledger) (v : ModelVariant) :
    (∃ d trained, v.buildDetector = .ok d ∧ d.train l.normal l.validation = (trained, .ok ()) ∧
        l.train v =
          ({ l with detector := some trained }, .counts l.normal.length l.validation.length)) ∨
      (∃ e, l.train v = (l, .raised e)) ∧
        ∀ d trained, v.buildDetector = .ok d →
          d.train l.normal l.validation ≠ (trained, .ok ()) := by
  cases hbuild : v.buildDetector with
  | error e =>
    refine .inr ⟨⟨e, ?_⟩, fun _ _ h => by cases h⟩
    rw [Ledger.train, hbuild]
  | ok d =>
    rcases htrain : d.train l.normal l.validation with ⟨trained, e | _⟩
    · refine .inr ⟨⟨e, ?_⟩, fun d' trained' hd' h => ?_⟩
      · rw [Ledger.train, hbuild]
        simp only [htrain]
      · obtain rfl := Except.ok.inj hd'
        rw [htrain] at h
        cases h
    · exact .inl ⟨d, trained, rfl, htrain, train_of_ok hbuild htrain⟩

/-- The same on the ledger: a training, other commands, and an evaluation. -/
theorem Ledger.measured_iff (l : Ledger) (v : ModelVariant) {middle : List Command}
    (hmiddle : ∀ command ∈ middle, ∀ variant, command ≠ .train variant) (n k : ℕ)
    (scored : ScoredMetrics) :
    let l' := (Ledger.machine.run l (.train v :: middle)).1
    (l.step (.train v)).2 = .counts n k ∧
        (l'.step (.evaluate v.targetFpr)).2 = .metrics scored ↔
      ModelBenchmark.evaluateVariant ⟨l.normal, l.validation, l'.labeled⟩ v =
        .ok (.of v n k scored) := by
  intro l'
  have hl' : l' = (Ledger.machine.run (l.train v).1 middle).1 := rfl
  have hstays : l'.detector = (l.train v).1.detector := by
    rw [hl', Ledger.detector_of_run _ hmiddle]
  rw [ModelBenchmark.evaluateVariant_eq_ok_iff]
  show (l.train v).2 = _ ∧ l'.evaluate v.targetFpr = _ ↔ _
  rcases l.train_cases v with ⟨d, trained, hbuild, htrain, heq⟩ | ⟨⟨e, heq⟩, hnone⟩
  · rw [Ledger.evaluate, hstays, heq]
    dsimp only
    constructor
    · rintro ⟨hcounts, hmetrics⟩
      obtain ⟨rfl, rfl⟩ := Answer.counts.inj hcounts
      cases hscored : scoreLabeledFlows trained l'.labeled v.targetFpr with
      | error e =>
        rw [hscored] at hmetrics
        cases hmetrics
      | ok scored' =>
        rw [hscored] at hmetrics
        obtain rfl := Answer.metrics.inj hmetrics
        exact ⟨d, trained, _, hbuild, htrain, hscored, rfl⟩
    · rintro ⟨d', trained', scored', hbuild', htrain', hscored, hresult⟩
      obtain rfl := Except.ok.inj (hbuild.symm.trans hbuild')
      obtain rfl := congrArg Prod.fst (htrain.symm.trans htrain')
      rw [hscored]
      have hn : n = l.normal.length := congrArg VariantResult.trainCount hresult
      have hk : k = l.validation.length := congrArg VariantResult.validationCount hresult
      have hm : scored = scored' := congrArg VariantResult.scored hresult
      exact ⟨by rw [hn, hk], by rw [hm]; rfl⟩
  · rw [heq]
    refine iff_of_false (fun h => by cases h.1) ?_
    rintro ⟨d, trained, _, hbuild, htrain, -⟩
    exact hnone d trained hbuild htrain

/-- **An evaluation is a benchmark.** After any commands, a version is trained; then come any
commands but trainings, and an evaluation. The training returns with some counts, and the
evaluation with some metrics, exactly if the benchmark returns with these for this version, on
the flows that had been published for training before, and on all labelled flows that have been
published by then. -/
theorem Pipeline.evaluate_eq_benchmark {before middle : List Command} (v : ModelVariant)
    (hbefore : ∀ command ∈ before, command.Transmissible)
    (hmiddle : ∀ command ∈ middle,
      command.Transmissible ∧ ∀ variant, command ≠ .train variant)
    (n k : ℕ) (scored : ScoredMetrics) :
    let p := (Pipeline.machine.run { } before).1
    let p' := (Pipeline.machine.run p (.train v :: middle)).1
    let l := (Ledger.machine.run { } before).1
    let l' := (Ledger.machine.run l (.train v :: middle)).1
    (p.step (.train v)).2 = .counts n k ∧
        (p'.step (.evaluate v.targetFpr)).2 = .metrics scored ↔
      ModelBenchmark.evaluateVariant ⟨l.normal, l.validation, l'.labeled⟩ v =
        .ok (.of v n k scored) := by
  intro p p' l l'
  have hp : p.Holds l := (simulates.run Pipeline.holds_empty hbefore).1
  have htrans : ∀ command ∈ .train v :: middle, command.Transmissible :=
    List.forall_mem_cons.mpr ⟨trivial, fun command h => (hmiddle command h).1⟩
  have hp' : p'.Holds l' := (simulates.run hp htrans).1
  rw [(agrees_train hp v).2, (agrees_evaluate hp' v.targetFpr).2]
  exact l.measured_iff v (fun command h => (hmiddle command h).2) n k scored

omit [Interpreter] [WordTable] [Libraries] [ScikitLearn] in
/-- One flow for each purpose, and labelled flows between the training and the evaluation. -/
theorem Pipeline.evaluate_eq_benchmark_two :
    let _ : Interpreter := .ascii
    let _ : WordTable := .ascii
    let _ : Libraries := .memoryless
    let _ : ScikitLearn := .exact
    let flow := Flow.new (text "http") 80 .inbound [71, 69, 84]
    let variant : ModelVariant := { name := text "demo", minTrainSequences := 1 }
    let p := (Pipeline.machine.run { } [.publish .fitting flow, .publish .calibrating flow]).1
    let p' := (Pipeline.machine.run p
      [.train variant, .publishLabeled flow false, .publishLabeled flow true]).1
    ∃ scored, (p.step (.train variant)).2 = .counts 1 1 ∧
      (p'.step (.evaluate variant.targetFpr)).2 = .metrics scored := by
  intro _ _ _ _ flow variant p p'
  have hflow : flow.Transmissible := ⟨noSurrogatePair_of_ascii (by decide), nofun⟩
  have hrunnable : variant.Runnable (· ∈ [flow]) :=
    ModelVariant.runnable_memoryless rfl (Nat.succ_ne_zero 7)
      (fun cap h => absurd h.symm (Option.some_ne_none cap)) (by
        show (0 : ℝ) < 5 / 100 ∧ (5 / 100 : ℝ) < 1
        norm_num) _
  have hbefore : ∀ command ∈ [Command.publish .fitting flow, .publish .calibrating flow],
      command.Transmissible := by
    simp only [List.forall_mem_cons]
    exact ⟨hflow, hflow, List.forall_mem_nil _⟩
  have hmiddle : ∀ command ∈ [Command.publishLabeled flow false, .publishLabeled flow true],
      command.Transmissible ∧ ∀ v, command ≠ .train v := by
    simp only [List.forall_mem_cons]
    exact ⟨⟨hflow, nofun⟩, ⟨hflow, nofun⟩, List.forall_mem_nil _⟩
  have hbench := evaluate_eq_benchmark variant hbefore hmiddle 1 1
  obtain ⟨r, hr⟩ := ModelBenchmark.exists_evaluateVariant Libraries.documented_memoryless
    ScikitLearn.documented_exact ⟨[flow], [flow], (Ledger.machine.run (Ledger.machine.run { }
      [.publish .fitting flow, .publish .calibrating flow]).1
        [.train variant, .publishLabeled flow false, .publishLabeled flow true]).1.labeled⟩
    hrunnable
  obtain ⟨-, -, scored, -, -, -, rfl⟩ := ModelBenchmark.evaluateVariant_eq_ok_iff.mp hr
  exact ⟨scored, (hbench scored).mpr hr⟩

end

end LearningData
