import LfWaap.LearningData.TrainingPipe
import LfWaap.Ruleset.RuleSetDetector
import LfWaap.Streaming.Inference
import LfWaap.Words.Machine

/-!
# Operating the pipe

The commands of `learning_data.kafka_pipeline`, and the steps of its demonstration, are given in
any order on one channel and one repository: flows are published for training and for
evaluation, singly or from a file, requests are published, a detector is trained and stored,
the stored one is evaluated, or inspects the requests together with the rule set.

All of this goes through encoded messages on topics, codecs, and a file. What it does is said
without any of them by a ledger: lists of flows, of labelled flows, of requests and of verdicts,
and the last detector whose training has returned. The pipe answers every word of commands as
the ledger does (`LearningData.Pipeline.run_answers`).
-/

namespace LearningData

open Python Waf Words

/-! ### Topics -/

/-- The topics of the pipe. -/
inductive Topic where
  | normal
  | validation
  | labeled
  | requests
  | verdicts
  deriving DecidableEq

/-- The name of a topic. -/
def Topic.name : Topic → Text
  | .normal => defaultNormalTopic
  | .validation => defaultValidationTopic
  | .labeled => evalTopic
  | .requests => text "waf.inspect.requests"
  | .verdicts => text "waf.inspect.verdicts"

/-- The topic of the flows for a purpose. -/
def Topic.ofPurpose : Purpose → Topic
  | .fitting => .normal
  | .calibrating => .validation

theorem Topic.name_inj {t t' : Topic} : t.name = t'.name ↔ t = t' := by
  cases t <;> cases t' <;> decide

theorem poll_publishAll_name (channel : InMemoryChannel) (t t' : Topic) (messages : List Bytes) :
    (channel.publishAll t.name messages).poll t'.name =
      channel.poll t'.name ++ if t = t' then messages else [] := by
  rw [InMemoryChannel.poll_publishAll]
  by_cases h : t = t'
  · rw [if_pos (Topic.name_inj.mpr h), if_pos h]
  · rw [if_neg fun hn => h (Topic.name_inj.mp hn), if_neg h, List.append_nil]

variable [Interpreter]

/-! ### Commands -/

/-- **What is done with the pipe.** -/
inductive Command where
  | publish (purpose : Purpose) (flow : Flow)
  | publishLabeled (flow : Flow) (isAttack : Bool)
  | publishRequest (request : HttpRequest)
  | produceTrain (normalCsv : CsvFile) (validationRatio : PyFloat) (limit : Option ℤ)
  | produceEval (evalCsv : CsvFile) (limit : Option ℤ)
  | train (variant : ModelVariant)
  | evaluate (targetFpr : ℝ)
  | inspect

omit [Interpreter] in
/-- What a command prints: that it is done, numbers of messages, metrics, or an exception. -/
inductive Answer where
  | done
  | count (n : ℕ)
  | counts (nNormal nVal : ℕ)
  | metrics (scored : ScoredMetrics)
  | raised (e : PyError)

omit [Interpreter] in
/-- The answer of a call. -/
def Answer.of {α : Type} (answer : α → Answer) : Except PyError α → Answer
  | .ok a => answer a
  | .error e => .raised e

/-- **The pipe**: a channel, and the file of the detector. -/
structure Pipeline where
  channel : InMemoryChannel := { }
  repository : PickleModelRepository := { }

/-- **The ledger**: what has been published, and the last detector that was trained. -/
structure Ledger where
  normal : List Flow := []
  validation : List Flow := []
  labeled : List (Flow × Bool) := []
  requests : List HttpRequest := []
  verdicts : List Verdict := []
  detector : Option HmmDetector := none

section

variable [WordTable] [Libraries]

/-- The service that inspects requests: the rule set, and the stored detector. -/
noncomputable def decisionService (detector : HmmDetector) : BlockDecisionService where
  detectors := [RuleSetDetector.default.toDetector, detector.toDetector]
  policy := .any
  nonempty := List.cons_ne_nil _ _

variable [ScikitLearn]

/-- **A command is carried out** on the pipe. -/
noncomputable def Pipeline.step (p : Pipeline) : Command → Pipeline × Answer
  | .publish purpose flow =>
    ({ p with channel := p.channel.publish (Topic.ofPurpose purpose).name (encodeFlow flow) },
      .done)
  | .publishLabeled flow isAttack =>
    ({ p with channel := p.channel.publish evalTopic (encodeLabeledFlow flow isAttack) }, .done)
  | .publishRequest request =>
    ({ p with channel := p.channel.publish (text "waf.inspect.requests") (encodeRequest request) },
      .done)
  | .produceTrain normalCsv validationRatio limit =>
    let (channel, outcome) := LearningData.produceTrain p.channel normalCsv validationRatio limit
    ({ p with channel := channel }, .of (fun n => .counts n.1 n.2) outcome)
  | .produceEval evalCsv limit =>
    let (channel, outcome) := LearningData.produceEval p.channel evalCsv limit
    ({ p with channel := channel }, .of .count outcome)
  | .train variant =>
    let (repository, outcome) := trainFromPipe p.channel p.repository variant
    ({ p with repository := repository }, .of (fun n => .counts n.1 n.2) outcome)
  | .evaluate targetFpr => (p, .of .metrics (evaluateFromPipe p.channel p.repository targetFpr))
  | .inspect =>
    match p.repository.load with
    | .error e => (p, .raised e)
    | .ok detector =>
      let inspector : StreamingInspector := { decider := decisionService detector }
      let (channel, outcome) := inspector.run p.channel
      ({ p with channel := channel }, .of .count outcome)

/-- The flows of a file are put down: those of the first half of a file that is not read to its
end, and both halves otherwise. -/
def Ledger.produceTrain (l : Ledger) (normalCsv : CsvFile) (validationRatio : PyFloat)
    (limit : Option ℤ) : Ledger × Answer :=
  match CsicTrafficSource.new normalCsv validationRatio limit with
  | .error e => (l, .raised e)
  | .ok source =>
    match source.benignFlows.raised with
    | some e => ({ l with normal := l.normal ++ source.normal.yields }, .raised e)
    | none =>
      ({ l with
          normal := l.normal ++ source.normal.yields
          validation := l.validation ++ source.validation.yields },
        .counts source.normal.yields.length source.validation.yields.length)

/-- The labelled flows of a file are put down. -/
def Ledger.produceEval (l : Ledger) (evalCsv : CsvFile) (limit : Option ℤ) : Ledger × Answer :=
  let packets := iterBalancedPackets evalCsv limit
  let labelled := (packets.yields.filter PacketRecord.isLabelled).map labeledFlow
  ({ l with labeled := l.labeled ++ labelled },
    match packets.raised with
    | some e => .raised e
    | none => .count labelled.length)

/-- A detector is trained with the flows that are put down. -/
noncomputable def Ledger.train (l : Ledger) (variant : ModelVariant) : Ledger × Answer :=
  match variant.buildDetector with
  | .error e => (l, .raised e)
  | .ok detector =>
    match detector.train l.normal l.validation with
    | (_, .error e) => (l, .raised e)
    | (trained, .ok ()) =>
      ({ l with detector := some trained }, .counts l.normal.length l.validation.length)

/-- The detector scores the labelled flows that are put down. -/
noncomputable def Ledger.evaluate (l : Ledger) (targetFpr : ℝ) : Answer :=
  match l.detector with
  | none => .raised (.fileNotFoundError "no model saved")
  | some detector => .of .metrics (scoreLabeledFlows detector l.labeled targetFpr)

/-- All requests that are put down are decided, up to the first one that cannot be. -/
noncomputable def Ledger.inspect (l : Ledger) : Ledger × Answer :=
  match l.detector with
  | none => (l, .raised (.fileNotFoundError "no model saved"))
  | some detector =>
    let decided := mapUntil (decisionService detector).decide l.requests
    ({ l with verdicts := l.verdicts ++ decided.1 },
      match decided.2 with
      | some e => .raised e
      | none => .count decided.1.length)

/-- **A command is carried out** on the ledger. -/
noncomputable def Ledger.step (l : Ledger) : Command → Ledger × Answer
  | .publish .fitting flow => ({ l with normal := l.normal ++ [flow] }, .done)
  | .publish .calibrating flow => ({ l with validation := l.validation ++ [flow] }, .done)
  | .publishLabeled flow isAttack =>
    ({ l with labeled := l.labeled ++ [(flow, isAttack)] }, .done)
  | .publishRequest request => ({ l with requests := l.requests ++ [request] }, .done)
  | .produceTrain normalCsv validationRatio limit => l.produceTrain normalCsv validationRatio limit
  | .produceEval evalCsv limit => l.produceEval evalCsv limit
  | .train variant => l.train variant
  | .evaluate targetFpr => (l, l.evaluate targetFpr)
  | .inspect => l.inspect

/-- The pipe, as a machine. -/
noncomputable def Pipeline.machine : Machine Pipeline Command Answer := ⟨Pipeline.step⟩

/-- The ledger, as a machine. -/
noncomputable def Ledger.machine : Machine Ledger Command Answer := ⟨Ledger.step⟩

end

/-! ### What the topics hold -/

/-- The messages of the topics. -/
def Ledger.messages (l : Ledger) : Topic → List Bytes
  | .normal => l.normal.map encodeFlow
  | .validation => l.validation.map encodeFlow
  | .labeled => l.labeled.map fun x => encodeLabeledFlow x.1 x.2
  | .requests => l.requests.map encodeRequest
  | .verdicts => l.verdicts.map encodeVerdict

/-- Everything that is put down survives its codec. -/
structure Ledger.Transmissible (l : Ledger) : Prop where
  normal : ∀ f ∈ l.normal, f.Transmissible
  validation : ∀ f ∈ l.validation, f.Transmissible
  labeled : ∀ x ∈ l.labeled, x.1.Transmissible
  requests : ∀ r ∈ l.requests, r.Transmissible

/-- **The pipe holds what the ledger says**: the topics its messages, the file its detector. -/
structure Pipeline.Holds (p : Pipeline) (l : Ledger) : Prop where
  poll : ∀ t : Topic, p.channel.poll t.name = l.messages t
  stored : p.repository.stored = l.detector
  transmissible : l.Transmissible

/-- What is published singly survives its codec. -/
def Command.Transmissible : Command → Prop
  | .publish _ flow => flow.Transmissible
  | .publishLabeled flow _ => flow.Transmissible
  | .publishRequest request => request.Transmissible
  | _ => True

theorem Pipeline.holds_empty : Pipeline.Holds { } { } where
  poll t := by cases t <;> rfl
  stored := rfl
  transmissible := ⟨nofun, nofun, nofun, nofun⟩

section

variable {p : Pipeline} {l l' : Ledger}

/-- **Messages are published** on a topic: the pipe holds a ledger that has them there, and is
the same elsewhere. -/
theorem Pipeline.Holds.publishAll (h : p.Holds l) (t : Topic) (messages : List Bytes)
    (hmessages : ∀ t', l'.messages t' = l.messages t' ++ if t = t' then messages else [])
    (hdetector : l'.detector = l.detector) (htrans : l'.Transmissible) :
    Pipeline.Holds { p with channel := p.channel.publishAll t.name messages } l' where
  poll t' := by
    show (p.channel.publishAll t.name messages).poll t'.name = _
    rw [poll_publishAll_name, h.poll, hmessages]
  stored := h.stored.trans hdetector.symm
  transmissible := htrans

omit [Interpreter] in
theorem forall_mem_append {α : Type} {P : α → Prop} {xs ys : List α} (hx : ∀ x ∈ xs, P x)
    (hy : ∀ y ∈ ys, P y) : ∀ x ∈ xs ++ ys, P x := fun x hmem =>
  (List.mem_append.mp hmem).elim (hx x) (hy x)

theorem Pipeline.Holds.addNormal (h : p.Holds l) {flows : List Flow}
    (hflows : ∀ f ∈ flows, f.Transmissible) :
    Pipeline.Holds
      { p with channel := p.channel.publishAll defaultNormalTopic (flows.map encodeFlow) }
      { l with normal := l.normal ++ flows } :=
  h.publishAll .normal _ (fun t' => by cases t' <;> simp [Ledger.messages]) rfl
    { h.transmissible with normal := forall_mem_append h.transmissible.normal hflows }

theorem Pipeline.Holds.addValidation (h : p.Holds l) {flows : List Flow}
    (hflows : ∀ f ∈ flows, f.Transmissible) :
    Pipeline.Holds
      { p with channel := p.channel.publishAll defaultValidationTopic (flows.map encodeFlow) }
      { l with validation := l.validation ++ flows } :=
  h.publishAll .validation _ (fun t' => by cases t' <;> simp [Ledger.messages]) rfl
    { h.transmissible with validation := forall_mem_append h.transmissible.validation hflows }

theorem Pipeline.Holds.addLabeled (h : p.Holds l) {labeled : List (Flow × Bool)}
    (hlabeled : ∀ x ∈ labeled, x.1.Transmissible) :
    Pipeline.Holds
      { p with
        channel := p.channel.publishAll evalTopic (labeled.map fun x => encodeLabeledFlow x.1 x.2) }
      { l with labeled := l.labeled ++ labeled } :=
  h.publishAll .labeled _ (fun t' => by cases t' <;> simp [Ledger.messages]) rfl
    { h.transmissible with labeled := forall_mem_append h.transmissible.labeled hlabeled }

theorem Pipeline.Holds.addRequest (h : p.Holds l) {r : HttpRequest} (hr : r.Transmissible) :
    Pipeline.Holds
      { p with channel := p.channel.publish (text "waf.inspect.requests") (encodeRequest r) }
      { l with requests := l.requests ++ [r] } :=
  h.publishAll .requests [encodeRequest r]
    (fun t' => by cases t' <;> simp [Ledger.messages]) rfl
    { h.transmissible with
      requests := forall_mem_append h.transmissible.requests fun r' hr' =>
        List.mem_singleton.mp hr' ▸ hr }

theorem Pipeline.Holds.addVerdicts (h : p.Holds l) (verdicts : List Verdict) :
    Pipeline.Holds
      { p with
        channel := p.channel.publishAll (text "waf.inspect.verdicts") (verdicts.map encodeVerdict) }
      { l with verdicts := l.verdicts ++ verdicts } :=
  h.publishAll .verdicts _ (fun t' => by cases t' <;> simp [Ledger.messages]) rfl
    { h.transmissible with }

/-- The traffic on the training topics. -/
theorem Pipeline.Holds.toTrafficSource (h : p.Holds l) :
    StreamingTrafficSource.toTrafficSource { channel := p.channel } =
      ⟨⟨l.normal, none⟩, ⟨l.validation, none⟩⟩ :=
  congrArg₂ TrafficSource.mk (flows_of_poll (h.poll .normal) h.transmissible.normal)
    (flows_of_poll (h.poll .validation) h.transmissible.validation)

/-- The labelled flows on the evaluation topic. -/
theorem Pipeline.Holds.labeled (h : p.Holds l) :
    (StreamingLabeledSource.labeled { channel := p.channel }).toList = .ok l.labeled :=
  StreamingLabeledSource.labeled_of_encoded h.transmissible.labeled (h.poll .labeled)

/-- The detector in the file. -/
theorem Pipeline.Holds.repository_eq (h : p.Holds l) : p.repository = ⟨l.detector⟩ :=
  congrArg PickleModelRepository.mk h.stored

/-! ### One command -/

/-- The pipe and the ledger agree on what a command does. -/
def Agrees (p : Pipeline × Answer) (l : Ledger × Answer) : Prop := p.1.Holds l.1 ∧ p.2 = l.2

variable [WordTable] [Libraries] [ScikitLearn]

/-- **Publishing the training flows of a file.** -/
theorem agrees_produceTrain (h : p.Holds l) (normalCsv : CsvFile) (ratio : PyFloat)
    (limit : Option ℤ) :
    Agrees (p.step (.produceTrain normalCsv ratio limit))
      (l.step (.produceTrain normalCsv ratio limit)) := by
  rw [Pipeline.step, Ledger.step, Ledger.produceTrain]
  cases hsource : CsicTrafficSource.new normalCsv ratio limit with
  | error e =>
    have hproduce : produceTrain p.channel normalCsv ratio limit = (p.channel, .error e) := by
      rw [produceTrain, hsource]
    rw [hproduce]
    exact ⟨h, rfl⟩
  | ok source =>
    obtain ⟨hn, hv⟩ := transmissible_of_new hsource
    dsimp only
    cases hraised : source.benignFlows.raised with
    | some e =>
      rw [produceTrain_interrupted hsource hraised]
      exact ⟨h.addNormal hn, rfl⟩
    | none =>
      rw [produceTrain_complete hsource hraised]
      exact ⟨(h.addNormal hn).addValidation hv, rfl⟩

/-- **Publishing the labelled flows of a file.** -/
theorem agrees_produceEval (h : p.Holds l) (evalCsv : CsvFile) (limit : Option ℤ) :
    Agrees (p.step (.produceEval evalCsv limit)) (l.step (.produceEval evalCsv limit)) := by
  rw [Pipeline.step, Ledger.step, Ledger.produceEval, produceEval_eq]
  dsimp only
  set labelled := (iterBalancedPackets evalCsv limit).yields.filter PacketRecord.isLabelled
  have hflows : ∀ x ∈ labelled.map labeledFlow, x.1.Transmissible := by
    intro x hx
    obtain ⟨record, -, rfl⟩ := List.mem_map.mp hx
    exact transmissible_recordToFlow record
  have hadd := h.addLabeled hflows
  rw [List.map_map] at hadd
  cases (iterBalancedPackets evalCsv limit).raised with
  | some e => exact ⟨hadd, rfl⟩
  | none =>
    refine ⟨hadd, ?_⟩
    rw [List.length_map]
    rfl

/-- **Training** on the topics. -/
theorem agrees_train (h : p.Holds l) (variant : ModelVariant) :
    Agrees (p.step (.train variant)) (l.step (.train variant)) := by
  rw [Pipeline.step, Ledger.step, Ledger.train]
  cases hbuild : variant.buildDetector with
  | error e =>
    rw [trainFromPipe, hbuild]
    exact ⟨h, rfl⟩
  | ok d =>
    rw [trainFromPipe_eq hbuild, h.toTrafficSource]
    simp only [calibrateModel, Generator.toList]
    rcases d.train l.normal l.validation with ⟨trained, e | _⟩
    · exact ⟨h, rfl⟩
    · exact ⟨⟨h.poll, rfl, { h.transmissible with }⟩, rfl⟩

/-- **Evaluating** the stored detector. -/
theorem agrees_evaluate (h : p.Holds l) (targetFpr : ℝ) :
    Agrees (p.step (.evaluate targetFpr)) (l.step (.evaluate targetFpr)) := by
  refine ⟨h, ?_⟩
  show Answer.of .metrics (evaluateFromPipe p.channel p.repository targetFpr) = l.evaluate targetFpr
  rw [evaluateFromPipe, h.repository_eq, Ledger.evaluate]
  cases l.detector with
  | none => rfl
  | some d =>
    show Answer.of .metrics
      ((StreamingLabeledSource.labeled { channel := p.channel }).toList >>= _) = _
    rw [h.labeled]
    rfl

/-- **Inspecting** the requests. -/
theorem agrees_inspect (h : p.Holds l) : Agrees (p.step .inspect) (l.step .inspect) := by
  cases hd : l.detector with
  | none =>
    have hload : p.repository.load = .error (.fileNotFoundError "no model saved") := by
      rw [h.repository_eq, hd]
      rfl
    have hstep : p.step .inspect = (p, .raised (.fileNotFoundError "no model saved")) := by
      rw [Pipeline.step, hload]
    have hledger : l.step .inspect = (l, .raised (.fileNotFoundError "no model saved")) := by
      rw [Ledger.step, Ledger.inspect, hd]
    rw [hstep, hledger]
    exact ⟨h, rfl⟩
  | some d =>
    have hload : p.repository.load = .ok d := by
      rw [h.repository_eq, hd]
      rfl
    have hpoll : p.channel.poll (text "waf.inspect.requests") = l.requests.map encodeRequest :=
      h.poll .requests
    have hanswers : mapUntil (StreamingInspector.answer { decider := decisionService d })
        (l.requests.map encodeRequest) =
          ((mapUntil (decisionService d).decide l.requests).1.map encodeVerdict,
            (mapUntil (decisionService d).decide l.requests).2) := by
      refine mapUntil_map_map fun r hr => ?_
      rw [StreamingInspector.answer, StreamingInspector.decideMessage,
        decodeRequest_encodeRequest (h.transmissible.requests r hr), ok_bind]
    have hadd := h.addVerdicts (mapUntil (decisionService d).decide l.requests).1
    rw [Pipeline.step, hload, Ledger.step, Ledger.inspect]
    simp only [hd, StreamingInspector.run_eq, hpoll, hanswers, List.length_map] at hadd ⊢
    refine ⟨hadd, ?_⟩
    cases (mapUntil (decisionService d).decide l.requests).2 with
    | none => rfl
    | some e => rfl

/-- **The pipe and the ledger agree on every command.** -/
theorem simulates :
    Pipeline.machine.Simulates Ledger.machine Pipeline.Holds Command.Transmissible := by
  intro p l command h htrans
  cases command with
  | publish purpose f =>
    have hf : ∀ g ∈ [f], g.Transmissible := fun g hg => List.mem_singleton.mp hg ▸ htrans
    cases purpose with
    | fitting => exact ⟨h.addNormal hf, rfl⟩
    | calibrating => exact ⟨h.addValidation hf, rfl⟩
  | publishLabeled f isAttack =>
    have hf : ∀ x ∈ [(f, isAttack)], x.1.Transmissible := fun x hx =>
      List.mem_singleton.mp hx ▸ htrans
    exact ⟨h.addLabeled hf, rfl⟩
  | publishRequest r => exact ⟨h.addRequest htrans, rfl⟩
  | produceTrain normalCsv ratio limit => exact agrees_produceTrain h normalCsv ratio limit
  | produceEval evalCsv limit => exact agrees_produceEval h evalCsv limit
  | train variant => exact agrees_train h variant
  | evaluate targetFpr => exact agrees_evaluate h targetFpr
  | inspect => exact agrees_inspect h

/-- **The pipe answers as the ledger does**, whatever is done with it, in any order; and then
its topics hold the messages of the ledger, and its file the detector of the ledger. -/
theorem Pipeline.run_answers {commands : List Command}
    (htrans : ∀ command ∈ commands, command.Transmissible) :
    (Pipeline.machine.run { } commands).2 = (Ledger.machine.run { } commands).2 ∧
      (Pipeline.machine.run { } commands).1.Holds (Ledger.machine.run { } commands).1 :=
  (simulates.run Pipeline.holds_empty htrans).symm

omit [Interpreter] [WordTable] [Libraries] [ScikitLearn] in
/-- Every kind of command that does not read a file. -/
theorem Pipeline.run_answers_seven :
    let _ : Interpreter := .ascii
    let _ : WordTable := .ascii
    let _ : Libraries := .memoryless
    let _ : ScikitLearn := .exact
    let flow := Flow.new (text "http") 80 .inbound [71, 69, 84]
    let variant : ModelVariant := { name := text "demo", minTrainSequences := 1 }
    let commands : List Command :=
      [.publish .fitting flow, .publish .calibrating flow, .train variant,
        .publishLabeled flow false, .evaluate (1 / 10),
        .publishRequest (HttpRequest.new (text "GET") (text "/")), .inspect]
    (Pipeline.machine.run { } commands).2 = (Ledger.machine.run { } commands).2 := by
  intro _ _ _ _ flow variant commands
  have hflow : flow.Transmissible := ⟨noSurrogatePair_of_ascii (by decide), nofun⟩
  have hrequest : (HttpRequest.new (text "GET") (text "/")).Transmissible :=
    ⟨noSurrogatePair_of_ascii (by decide), noSurrogatePair_of_ascii (by decide),
      List.IsChain.nil, List.IsChain.nil, List.IsChain.nil, nofun⟩
  refine (run_answers ?_).1
  simp only [commands, List.forall_mem_cons]
  exact ⟨hflow, hflow, trivial, hflow, trivial, hrequest, trivial, List.forall_mem_nil _⟩

end

end LearningData
