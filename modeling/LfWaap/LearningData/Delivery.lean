import LfWaap.Hmm.Isolation
import LfWaap.LearningData.Progress

/-!
# The order of delivery

Several producers publish at once, and a broker keeps the order of messages within limits only.
What the pipe needs of it is little: the normal flows of one partition have to stay in order,
and the requests. The flows for calibration and the labelled flows may arrive in any order, so
may normal flows of different partitions, and how the topics are interleaved is of no concern:
all later commands are answered alike (`LearningData.Pipeline.run_reordered`).

The detectors are not the same then, since their partitions are numbered in the order of their
first flows, but no flow and no request tells them apart (`LearningData.Alike`).
-/

namespace LearningData

open Python Waf Words

/-! ### Lists by keys -/

/-- Two lists with the same values of every key are the same up to order. -/
theorem perm_of_filter_eq {α κ : Type} [DecidableEq κ] {key : α → κ} {xs ys : List α}
    (h : ∀ k, (xs.filter fun x => key x = k) = ys.filter fun x => key x = k) : xs.Perm ys := by
  classical
  refine List.perm_iff_count.mpr fun x => ?_
  have hcount : ∀ zs : List α, (zs.filter fun y => key y = key x).count x = zs.count x := fun zs =>
    List.count_filter (p := fun y => Decidable.decide (key y = key x)) (decide_eq_true rfl)
  rw [← hcount xs, h (key x), hcount ys]

variable [Interpreter] [Libraries]

/-! ### Detectors that are alike -/

/-- **No flow tells the two detectors apart**, nor does the question whether they are
trained. -/
structure Alike (d d' : HmmDetector) : Prop where
  trained : d.isTrained = d'.isTrained
  assess : ∀ f, d.assessFlow f = d'.assessFlow f

section

variable {d d' : HmmDetector}

/-- No request does. -/
theorem Alike.inspect (h : Alike d d') : d.inspect = d'.inspect := by
  funext r
  rw [HmmDetector.inspect, HmmDetector.inspect, h.trained]
  split_ifs
  · cases httpRequestToFlow r with
    | error e => rfl
    | ok f =>
      show (d.assessFlow f >>= _) = (d'.assessFlow f >>= _)
      rw [h.assess f]
  · rfl

/-- The services with them decide alike. -/
theorem Alike.decide [WordTable] (h : Alike d d') :
    (decisionService d).decide = (decisionService d').decide := by
  funext r
  have hdetector : d.toDetector = d'.toDetector := congrArg (Detector.mk HmmDetector.name) h.inspect
  show (signalsOf [_, d.toDetector] r).map _ = (signalsOf [_, d'.toDetector] r).map _
  rw [hdetector]
  rfl

/-- They score labelled flows alike. -/
theorem Alike.score [ScikitLearn] (h : Alike d d') :
    scoreLabeledFlows d = scoreLabeledFlows d' := by
  have hstep : scoreStep d = scoreStep d' := by
    funext t labeled
    rw [scoreStep, scoreStep, h.assess labeled.1]
  funext labeled targetFpr
  rw [scoreLabeledFlows, scoreLabeledFlows, hstep]

/-- **Two trainings give detectors that are alike**, if the normal flows of every partition come
in the same order, and the flows for calibration in any order. -/
theorem alike_of_train {normal normal' validation validation' : List Flow}
    {trained trained' : HmmDetector}
    (htrain : d.train normal validation = (trained, .ok ()))
    (htrain' : d.train normal' validation' = (trained', .ok ()))
    (hn : ∀ k, (normal.filter fun f => partitionKey f = k) =
      normal'.filter fun f => partitionKey f = k)
    (hv : validation.Perm validation') : Alike trained trained' := by
  obtain ⟨p, hp, rfl⟩ := HmmDetector.exists_of_train htrain
  obtain ⟨p', hp', rfl⟩ := HmmDetector.exists_of_train htrain'
  have hmodels : ∀ k, p.models.get? k = p'.models.get? k := by
    intro k
    refine Option.ext fun m => ⟨?_, ?_⟩
    · exact PartitionedHmm.get?_of_partition hp hp' (hn k) (hv.filter _)
    · exact PartitionedHmm.get?_of_partition hp' hp (hn k).symm (hv.symm.filter _)
  constructor
  · show p.isTrained = p'.isTrained
    have hentries : ∀ e, e ∈ p.models.entries ↔ e ∈ p'.models.entries := by
      rintro ⟨k, m⟩
      rw [Dict.mem_entries_iff, Dict.mem_entries_iff, hmodels]
    rw [Bool.eq_iff_iff, PartitionedHmm.isTrained, PartitionedHmm.isTrained, List.any_eq_true,
      List.any_eq_true]
    exact exists_congr fun e => and_congr_left fun _ => hentries e
  · intro f
    show p.assess f = p'.assess f
    rw [PartitionedHmm.assess, PartitionedHmm.assess, hmodels]

end

/-! ### Ledgers that are alike -/

variable [WordTable] [ScikitLearn]

omit [WordTable] [ScikitLearn] in
/-- **The same has been put down**, in an order that does not matter. -/
structure Ledger.Alike (l l' : Ledger) : Prop where
  normal : ∀ k, (l.normal.filter fun f => partitionKey f = k) =
    l'.normal.filter fun f => partitionKey f = k
  validation : l.validation.Perm l'.validation
  labeled : l.labeled.Perm l'.labeled
  requests : l.requests = l'.requests
  verdicts : l.verdicts = l'.verdicts
  detector : Option.Rel LearningData.Alike l.detector l'.detector

omit [WordTable] [ScikitLearn] in
theorem Ledger.Alike.detector_cases {l l' : Ledger} (h : l.Alike l') :
    (l.detector = none ∧ l'.detector = none) ∨
      ∃ d d', l.detector = some d ∧ l'.detector = some d' ∧ LearningData.Alike d d' := by
  have hrel := h.detector
  cases hd : l.detector with
  | none =>
    cases hd' : l'.detector with
    | none => exact .inl ⟨rfl, rfl⟩
    | some d' =>
      rw [hd, hd'] at hrel
      cases hrel
  | some d =>
    cases hd' : l'.detector with
    | none =>
      rw [hd, hd'] at hrel
      cases hrel
    | some d' =>
      rw [hd, hd'] at hrel
      cases hrel with
      | some halike => exact .inr ⟨d, d', rfl, rfl, halike⟩

variable {kind : Flow → Prop}

/-- **One sound command** is answered alike, and leaves ledgers that are alike. -/
theorem Ledger.Alike.step (hlib : Libraries.Documented) (hskl : ScikitLearn.Documented)
    (hsym : ScikitLearn.Symmetric) {l l' : Ledger} (h : l.Alike l') (hl : l.Sound kind)
    (hl' : l'.Sound kind) {command : Command} (hc : command.Sound kind) :
    (l.step command).1.Alike (l'.step command).1 ∧ (l.step command).2 = (l'.step command).2 := by
  cases command with
  | publish purpose f =>
    cases purpose with
    | fitting =>
      refine ⟨{ h with normal := fun k => ?_ }, rfl⟩
      show (l.normal ++ [f]).filter _ = (l'.normal ++ [f]).filter _
      rw [List.filter_append, List.filter_append, h.normal k]
    | calibrating => exact ⟨{ h with validation := h.validation.append_right [f] }, rfl⟩
  | publishLabeled f isAttack =>
    exact ⟨{ h with labeled := h.labeled.append_right [(f, isAttack)] }, rfl⟩
  | publishRequest r => exact ⟨{ h with requests := congrArg (· ++ [r]) h.requests }, rfl⟩
  | produceTrain normalCsv ratio limit =>
    obtain ⟨source, hsource, hraised, -⟩ := hc
    have hstep : ∀ l : Ledger, l.step (.produceTrain normalCsv ratio limit) = _ :=
      produceTrain_of_ok hsource hraised
    rw [hstep, hstep]
    refine ⟨{ h with normal := fun k => ?_, validation := h.validation.append_right _ }, rfl⟩
    rw [List.filter_append, List.filter_append, h.normal k]
  | produceEval evalCsv limit =>
    exact ⟨{ h with labeled := h.labeled.append_right _ }, rfl⟩
  | train variant =>
    obtain ⟨d, trained, hbuild, htrain, -⟩ :=
      Waf.ModelVariant.Runnable.exists_train hlib hc hl.normal l.validation
    obtain ⟨d', trained', hbuild', htrain', -⟩ :=
      Waf.ModelVariant.Runnable.exists_train hlib hc hl'.normal l'.validation
    obtain rfl : d = d' := Except.ok.inj (hbuild.symm.trans hbuild')
    have hstep : l.step (.train variant) = _ := train_of_ok hbuild htrain
    have hstep' : l'.step (.train variant) = _ := train_of_ok hbuild htrain'
    have hlength : l.normal.length = l'.normal.length := (perm_of_filter_eq h.normal).length_eq
    rw [hstep, hstep', hlength, h.validation.length_eq]
    exact ⟨{ h with detector := .some (alike_of_train htrain htrain' h.normal h.validation) }, rfl⟩
  | evaluate targetFpr =>
    refine ⟨h, ?_⟩
    show l.evaluate targetFpr = l'.evaluate targetFpr
    rw [Ledger.evaluate, Ledger.evaluate]
    rcases h.detector_cases with ⟨hd, hd'⟩ | ⟨d, d', hd, hd', halike⟩
    · rw [hd, hd']
    · rw [hd, hd']
      obtain ⟨scored, hscored⟩ : ∃ scored, scoreLabeledFlows d l.labeled targetFpr = .ok scored :=
        (exists_scoreLabeledFlows_iff hskl (hl.ready d hd)).mpr
          ⟨fun e _ _ => hl.extracts d hd e.1, fun _ _ => hc⟩
      have hscored' := scoreLabeledFlows_perm hsym h.labeled hscored
      rw [halike.score] at hscored'
      exact congrArg (Answer.of .metrics) (hscored.trans hscored'.symm)
  | inspect =>
    rcases h.detector_cases with ⟨hd, hd'⟩ | ⟨d, d', hd, hd', halike⟩
    · show l.inspect.1.Alike l'.inspect.1 ∧ l.inspect.2 = l'.inspect.2
      rw [inspect_of_none hd, inspect_of_none hd']
      exact ⟨h, rfl⟩
    · show l.inspect.1.Alike l'.inspect.1 ∧ l.inspect.2 = l'.inspect.2
      rw [inspect_of_some hd, inspect_of_some hd', halike.decide, h.requests, h.verdicts]
      exact ⟨⟨h.normal, h.validation, h.labeled, rfl, rfl, h.detector⟩, rfl⟩

/-- Ledgers that are alike answer words of sound commands alike. -/
theorem Ledger.simulates_alike (hlib : Libraries.Documented) (hskl : ScikitLearn.Documented)
    (hsym : ScikitLearn.Symmetric) :
    Ledger.machine.Simulates Ledger.machine
      (fun l l' => l.Alike l' ∧ l.Sound kind ∧ l'.Sound kind) (Command.Sound kind) := by
  rintro l l' command ⟨halike, hl, hl'⟩ hc
  obtain ⟨hstep, hanswer⟩ := halike.step hlib hskl hsym hl hl' hc
  exact ⟨⟨hstep, (progress hlib hskl hl hc).sound, (progress hlib hskl hl' hc).sound⟩, hanswer⟩

/-! ### Words that are delivered in another order -/

/-- The command publishes one message. -/
def Command.Publishes : Command → Prop
  | .publish _ _ => True
  | .publishLabeled _ _ => True
  | .publishRequest _ => True
  | _ => False

/-- The flow it publishes to be fitted on. -/
def Command.normal? : Command → Option Flow
  | .publish .fitting flow => some flow
  | _ => none

/-- The flow it publishes to be calibrated with. -/
def Command.validation? : Command → Option Flow
  | .publish .calibrating flow => some flow
  | _ => none

/-- The labelled flow it publishes. -/
def Command.labeled? : Command → Option (Flow × Bool)
  | .publishLabeled flow isAttack => some (flow, isAttack)
  | _ => none

/-- The request it publishes. -/
def Command.request? : Command → Option HttpRequest
  | .publishRequest request => some request
  | _ => none

omit [Libraries] [WordTable] [ScikitLearn] in
/-- **The same messages, delivered in another order.** -/
structure Reordered (w w' : List Command) : Prop where
  normal : ∀ k, ((w.filterMap Command.normal?).filter fun f => partitionKey f = k) =
    (w'.filterMap Command.normal?).filter fun f => partitionKey f = k
  validation : (w.filterMap Command.validation?).Perm (w'.filterMap Command.validation?)
  labeled : (w.filterMap Command.labeled?).Perm (w'.filterMap Command.labeled?)
  requests : w.filterMap Command.request? = w'.filterMap Command.request?

/-- What is published is put down. -/
theorem Ledger.run_of_publishes (l : Ledger) {w : List Command} (hw : ∀ c ∈ w, c.Publishes) :
    (Ledger.machine.run l w).1 =
      { l with
        normal := l.normal ++ w.filterMap Command.normal?
        validation := l.validation ++ w.filterMap Command.validation?
        labeled := l.labeled ++ w.filterMap Command.labeled?
        requests := l.requests ++ w.filterMap Command.request? } := by
  induction w generalizing l with
  | nil => simp [Machine.run]
  | cons command w ih =>
    obtain ⟨hcommand, hw⟩ := List.forall_mem_cons.mp hw
    rw [Machine.run_cons, ih _ hw]
    cases command with
    | publish purpose f =>
      cases purpose <;> simp [Ledger.machine, Ledger.step, List.filterMap_cons, Command.normal?,
        Command.validation?, Command.labeled?, Command.request?]
    | publishLabeled f isAttack =>
      simp [Ledger.machine, Ledger.step, List.filterMap_cons, Command.normal?, Command.validation?,
        Command.labeled?, Command.request?]
    | publishRequest r =>
      simp [Ledger.machine, Ledger.step, List.filterMap_cons, Command.normal?, Command.validation?,
        Command.labeled?, Command.request?]
    | _ => exact absurd hcommand id

/-- **The order of delivery does not matter** beyond the normal flows of one partition and the
requests. Two words publish the same messages in different orders; then any sound commands are
answered alike after them. -/
theorem Pipeline.run_reordered (hlib : Libraries.Documented) (hskl : ScikitLearn.Documented)
    (hsym : ScikitLearn.Symmetric) {w w' after : List Command}
    (hw : ∀ c ∈ w, c.Sound kind ∧ c.Publishes) (hw' : ∀ c ∈ w', c.Sound kind ∧ c.Publishes)
    (hsame : Reordered w w') (hafter : ∀ c ∈ after, c.Sound kind) :
    (Pipeline.machine.run (Pipeline.machine.run { } w).1 after).2 =
      (Pipeline.machine.run (Pipeline.machine.run { } w').1 after).2 := by
  have hafter' : ∀ c ∈ after, c.Transmissible := fun c hc => (hafter c hc).transmissible
  have hledger : ∀ v : List Command, (∀ c ∈ v, c.Sound kind ∧ c.Publishes) →
      (Pipeline.machine.run (Pipeline.machine.run { } v).1 after).2 =
          (Ledger.machine.run (Ledger.machine.run { } v).1 after).2 ∧
        (Ledger.machine.run { } v).1.Sound kind := by
    intro v hv
    have hholds := (simulates.run holds_empty fun c hc => (hv c hc).1.transmissible).1
    exact ⟨(simulates.run hholds hafter').2,
      (Ledger.progress_run hlib hskl Ledger.sound_empty fun c hc => (hv c hc).1).1⟩
  obtain ⟨hanswers, hsound⟩ := hledger w hw
  obtain ⟨hanswers', hsound'⟩ := hledger w' hw'
  have halike : (Ledger.machine.run { } w).1.Alike (Ledger.machine.run { } w').1 := by
    rw [Ledger.run_of_publishes _ fun c hc => (hw c hc).2,
      Ledger.run_of_publishes _ fun c hc => (hw' c hc).2]
    exact ⟨hsame.normal, hsame.validation, hsame.labeled, hsame.requests, rfl, .none⟩
  rw [hanswers, hanswers']
  exact ((Ledger.simulates_alike hlib hskl hsym).run ⟨halike, hsound, hsound'⟩ hafter).2

omit [Interpreter] [WordTable] [Libraries] [ScikitLearn] in
/-- Flows of two services, whose producers take turns in two ways. -/
theorem Pipeline.run_reordered_services :
    let _ : Interpreter := .ascii
    let _ : WordTable := .ascii
    let _ : Libraries := .memoryless
    let _ : ScikitLearn := .exact
    let f := Flow.new (text "http") 80 .inbound [71, 69, 84]
    let g := Flow.new (text "http") 8080 .inbound [80, 79, 83, 84]
    let variant : ModelVariant := { name := text "demo", minTrainSequences := 1 }
    let w : List Command :=
      [.publish .fitting f, .publish .fitting g, .publish .calibrating f, .publish .calibrating g,
        .publishLabeled f false, .publishLabeled g true]
    let w' : List Command :=
      [.publishLabeled g true, .publish .fitting g, .publish .calibrating g,
        .publishLabeled f false, .publish .fitting f, .publish .calibrating f]
    let after : List Command := [.train variant, .evaluate (1 / 10)]
    (Pipeline.machine.run (Pipeline.machine.run { } w).1 after).2 =
      (Pipeline.machine.run (Pipeline.machine.run { } w').1 after).2 := by
  intro _ _ _ _ f g variant w w' after
  have hf : f.Transmissible := ⟨noSurrogatePair_of_ascii (by decide), nofun⟩
  have hg : g.Transmissible := ⟨noSurrogatePair_of_ascii (by decide), nofun⟩
  have hpublish : ∀ {x : Flow}, x.Transmissible → ∀ purpose,
      Command.Sound (fun _ => True) (.publish purpose x) ∧
        Command.Publishes (.publish purpose x) := fun hx _ =>
    ⟨⟨hx, fun _ => trivial⟩, trivial⟩
  have hw : ∀ c ∈ w, c.Sound (fun _ => True) ∧ c.Publishes := by
    simp only [w, List.forall_mem_cons]
    exact ⟨hpublish hf _, hpublish hg _, hpublish hf _, hpublish hg _, ⟨hf, trivial⟩, ⟨hg, trivial⟩,
      List.forall_mem_nil _⟩
  have hw' : ∀ c ∈ w', c.Sound (fun _ => True) ∧ c.Publishes := by
    simp only [w', List.forall_mem_cons]
    exact ⟨⟨hg, trivial⟩, hpublish hg _, hpublish hg _, ⟨hf, trivial⟩, hpublish hf _, hpublish hf _,
      List.forall_mem_nil _⟩
  have hrunnable : variant.Runnable fun _ => True :=
    ModelVariant.runnable_memoryless rfl (Nat.succ_ne_zero 7)
      (fun cap h => absurd h.symm (Option.some_ne_none cap)) (by
        show (0 : ℝ) < 5 / 100 ∧ (5 / 100 : ℝ) < 1
        norm_num) _
  have hafter : ∀ c ∈ after, c.Sound fun _ => True := by
    simp only [after, List.forall_mem_cons]
    exact ⟨hrunnable, by constructor <;> norm_num, List.forall_mem_nil _⟩
  have hkeys : partitionKey f ≠ partitionKey g := by decide
  have hsame : Reordered w w' := by
    refine ⟨fun k => ?_, List.Perm.swap g f [], List.Perm.swap (g, true) (f, false) [], rfl⟩
    show [f, g].filter _ = [g, f].filter _
    by_cases hk : partitionKey f = k
    · subst hk
      simp [hkeys.symm]
    · simp [List.filter_cons, hk]
  exact run_reordered Libraries.documented_memoryless ScikitLearn.documented_exact
    ScikitLearn.symmetric_exact hw hw' hsame hafter

end LearningData
