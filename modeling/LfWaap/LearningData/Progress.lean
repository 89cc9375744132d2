import LfWaap.LearningData.Histories

/-!
# Where the pipe raises

Commands are *sound* if they publish what can be encoded and read back, if their files can be
read to their ends, if the libraries do not raise over their versions when these are trained on
flows of the kind that is published for training, and if their rates are rates. No word of sound
commands raises, but for one reason: a detector that is asked before one has been trained
(`LearningData.Pipeline.isRaised_iff`). What is published, in which order, and how often a
detector is replaced, does not matter.
-/

namespace LearningData

open Python Waf Words

variable [Interpreter]

/-! ### Requests that can be decided -/

variable [WordTable] [Libraries]

/-- **Every request that becomes a flow is decided**, by the rule set and any detector that gives
scores. -/
theorem exists_decide {d : HmmDetector} (hd : d.Ready) {r : HttpRequest} (hr : r.Serialisable) :
    ∃ verdict, (decisionService d).decide r = .ok verdict := by
  have hinspect : ∃ s, d.inspect r = .ok s := by
    cases ht : d.isTrained with
    | true =>
      exact (HmmDetector.inspect_isOk_iff ht).mpr
        ⟨hr, fun f _ => PartitionedHmm.accepts_of_scores hd f⟩
    | false => exact ⟨_, HmmDetector.inspect_of_untrained ht r⟩
  obtain ⟨s, hs⟩ := hinspect
  have hsignals : signalsOf (decisionService d).detectors r =
      .ok [RuleSetDetector.default.inspect r, s] := by
    refine mapM_cons_eq_ok_iff.mpr ⟨_, [s], rfl, mapM_cons_eq_ok_iff.mpr ⟨s, [], hs, rfl, rfl⟩, rfl⟩
  exact ⟨_, congrArg (Except.map _) hsignals⟩

/-! ### Sound commands -/

variable [ScikitLearn]

omit [WordTable] [ScikitLearn] in
/-- **A sound command**, where flows of a kind are trained on. -/
def Command.Sound (kind : Flow → Prop) : Command → Prop
  | .publish purpose flow => flow.Transmissible ∧ (purpose = .fitting → kind flow)
  | .publishLabeled flow _ => flow.Transmissible
  | .publishRequest request => request.Transmissible ∧ request.Serialisable
  | .produceTrain normalCsv ratio limit =>
    ∃ source, CsicTrafficSource.new normalCsv ratio limit = .ok source ∧
      source.benignFlows.raised = none ∧ ∀ f ∈ source.normal.yields, kind f
  | .produceEval evalCsv limit => (iterBalancedPackets evalCsv limit).raised = none
  | .train variant => variant.Runnable kind
  | .evaluate targetFpr => 0 < targetFpr ∧ targetFpr ≤ 1
  | .inspect => True

omit [WordTable] [Libraries] [ScikitLearn] in
/-- The command asks the stored detector. -/
def Command.AsksDetector : Command → Prop
  | .evaluate _ => True
  | .inspect => True
  | _ => False

variable {kind : Flow → Prop}

omit [WordTable] [ScikitLearn] in
theorem Command.Sound.transmissible {command : Command} (h : command.Sound kind) :
    command.Transmissible := by
  cases command with
  | publish purpose flow => exact h.1
  | publishRequest request => exact h.1
  | _ => first | exact h | trivial

omit [WordTable] [ScikitLearn] in
/-- **What sound commands keep**: the requests can be decided, a detector can be trained, and the
one that is stored can be asked. -/
structure Ledger.Sound (kind : Flow → Prop) (l : Ledger) : Prop where
  requests : ∀ r ∈ l.requests, r.Serialisable
  normal : ∀ f ∈ l.normal, kind f
  ready : ∀ d, l.detector = some d → d.Ready
  extracts : ∀ d, l.detector = some d → ∀ f, d.settings.extractor.Extracts f

omit [WordTable] [ScikitLearn] in
theorem Ledger.sound_empty : Ledger.Sound kind { } :=
  ⟨List.forall_mem_nil _, List.forall_mem_nil _,
    fun d hd => absurd hd.symm (Option.some_ne_none d),
    fun d hd => absurd hd.symm (Option.some_ne_none d)⟩

/-- What is said of a sound command: it keeps the ledger sound; there is a detector after it if
there was one before, or if it is a training; and it raises exactly if it asks for a detector
where there is none. -/
structure Ledger.Progress (kind : Flow → Prop) (l : Ledger) (command : Command) : Prop where
  sound : (l.step command).1.Sound kind
  detector : (l.step command).1.detector = none ↔
    l.detector = none ∧ ∀ variant, command ≠ .train variant
  raised : (l.step command).2.IsRaised ↔ command.AsksDetector ∧ l.detector = none

section

variable {l : Ledger} {command : Command}

omit [Interpreter] [WordTable] [Libraries] [ScikitLearn] in
theorem not_isRaised_of {α : Type} {answer : α → Answer} (h : ∀ a, ¬(answer a).IsRaised)
    {outcome : Except PyError α} (hok : ∃ a, outcome = .ok a) :
    ¬(Answer.of answer outcome).IsRaised := by
  obtain ⟨a, rfl⟩ := hok
  exact h a

omit [Interpreter] [WordTable] [Libraries] [ScikitLearn] in
theorem not_isRaised_metrics (scored : ScoredMetrics) : ¬(Answer.metrics scored).IsRaised := by
  rintro ⟨e, he⟩
  cases he

omit [Interpreter] [WordTable] [Libraries] [ScikitLearn] in
theorem not_isRaised_done : ¬Answer.done.IsRaised := by
  rintro ⟨e, he⟩
  cases he

omit [Interpreter] [WordTable] [Libraries] [ScikitLearn] in
theorem not_isRaised_count (n : ℕ) : ¬(Answer.count n).IsRaised := by
  rintro ⟨e, he⟩
  cases he

omit [Interpreter] [WordTable] [Libraries] [ScikitLearn] in
theorem not_isRaised_counts (nNormal nVal : ℕ) : ¬(Answer.counts nNormal nVal).IsRaised := by
  rintro ⟨e, he⟩
  cases he

omit [WordTable] [Libraries] [ScikitLearn] in
theorem Command.ne_train_of_asksDetector (h : command.AsksDetector) (variant : ModelVariant) :
    command ≠ .train variant := by
  rintro rfl
  exact h

/-- A command that does not ask for the detector, leaves it alone, and does not raise. -/
theorem Ledger.progress_of_quiet (htrain : ∀ variant, command ≠ .train variant)
    (hasks : ¬command.AsksDetector) (hsound : (l.step command).1.Sound kind)
    (hanswer : ¬(l.step command).2.IsRaised) : l.Progress kind command where
  sound := hsound
  detector := by
    rw [l.detector_of_not_train htrain]
    exact ⟨fun h => ⟨h, htrain⟩, fun h => h.1⟩
  raised := iff_of_false hanswer fun h => hasks h.1

/-- **Every sound command makes progress.** -/
theorem Ledger.progress (hlib : Libraries.Documented) (hskl : ScikitLearn.Documented)
    (h : l.Sound kind) (hc : command.Sound kind) : l.Progress kind command := by
  cases command with
  | publish purpose f =>
    cases purpose with
    | fitting =>
      refine progress_of_quiet (by rintro _ ⟨⟩) id { h with normal := ?_ } not_isRaised_done
      exact forall_mem_append h.normal fun g hg => List.mem_singleton.mp hg ▸ hc.2 rfl
    | calibrating => exact progress_of_quiet (by rintro _ ⟨⟩) id { h with } not_isRaised_done
  | publishLabeled f isAttack =>
    exact progress_of_quiet (by rintro _ ⟨⟩) id { h with } not_isRaised_done
  | publishRequest r =>
    refine progress_of_quiet (by rintro _ ⟨⟩) id { h with requests := ?_ } not_isRaised_done
    exact forall_mem_append h.requests fun r' hr' => List.mem_singleton.mp hr' ▸ hc.2
  | produceTrain normalCsv ratio limit =>
    obtain ⟨source, hsource, hraised, hkind⟩ := hc
    have hstep : l.step (.produceTrain normalCsv ratio limit) = _ :=
      produceTrain_of_ok hsource hraised l
    refine progress_of_quiet (by rintro _ ⟨⟩) id ?_ ?_
    · rw [hstep]
      exact { h with normal := forall_mem_append h.normal hkind }
    · rw [hstep]
      exact not_isRaised_counts _ _
  | produceEval evalCsv limit =>
    have hraised : (iterBalancedPackets evalCsv limit).raised = none := hc
    refine progress_of_quiet (by rintro _ ⟨⟩) id { h with } ?_
    rw [step, produceEval]
    simp only [hraised]
    exact not_isRaised_count _
  | train variant =>
    obtain ⟨d, trained, hbuild, htrain, hready⟩ :=
      Waf.ModelVariant.Runnable.exists_train hlib hc h.normal l.validation
    have hstep : l.step (.train variant) = _ := train_of_ok hbuild htrain
    refine ⟨?_, ?_, ?_⟩
    · rw [hstep]
      refine { h with ready := fun d' hd' => ?_, extracts := fun d' hd' => ?_ }
      · rw [← Option.some.inj hd']
        exact hready
      · rw [← Option.some.inj hd']
        exact HmmDetector.extracts_of_train hbuild htrain
    · rw [hstep]
      exact iff_of_false (Option.some_ne_none trained) fun h => h.2 variant rfl
    · rw [hstep]
      exact iff_of_false (not_isRaised_counts _ _) fun h => h.1
  | evaluate targetFpr =>
    have hne : ∀ variant, Command.evaluate targetFpr ≠ .train variant :=
      Command.ne_train_of_asksDetector trivial
    refine ⟨h, ⟨fun h => ⟨h, hne⟩, fun h => h.1⟩, ?_⟩
    show (l.evaluate targetFpr).IsRaised ↔ _
    rw [Ledger.evaluate]
    cases hd : l.detector with
    | none => exact iff_of_true ⟨_, rfl⟩ ⟨trivial, rfl⟩
    | some d =>
      have hscored : ∃ scored, scoreLabeledFlows d l.labeled targetFpr = .ok scored :=
        (exists_scoreLabeledFlows_iff hskl (h.ready d hd)).mpr
          ⟨fun e _ _ => h.extracts d hd e.1, fun _ _ => hc⟩
      exact iff_of_false (not_isRaised_of not_isRaised_metrics hscored) fun h =>
        absurd h.2 (Option.some_ne_none d)
  | inspect =>
    have hne : ∀ variant, Command.inspect ≠ .train variant :=
      Command.ne_train_of_asksDetector trivial
    cases hd : l.detector with
    | none =>
      have hstep : l.step .inspect = _ := inspect_of_none hd
      refine ⟨?_, ?_, ?_⟩
      · rw [hstep]
        exact h
      · rw [hstep]
        exact ⟨fun h => ⟨h, hne⟩, fun h => h.1⟩
      · rw [hstep]
        exact iff_of_true ⟨_, rfl⟩ ⟨trivial, hd⟩
    | some d =>
      have hall : (mapUntil (decisionService d).decide l.requests).2 = none :=
        mapUntil_eq_none_iff.mpr fun r hr => exists_decide (h.ready d hd) (h.requests r hr)
      have hstep : l.step .inspect = _ := inspect_of_some hd
      rw [hall] at hstep
      refine ⟨?_, ?_, ?_⟩
      · rw [hstep]
        exact { h with }
      · rw [hstep]
        exact ⟨fun h => ⟨h, hne⟩, fun h => h.1⟩
      · rw [hstep]
        exact iff_of_false (not_isRaised_count _) fun h =>
          absurd (hd.symm.trans h.2) (Option.some_ne_none d)

/-- A word of sound commands keeps the ledger sound, and trains a detector exactly if there is
a training in it. -/
theorem Ledger.progress_run (hlib : Libraries.Documented) (hskl : ScikitLearn.Documented)
    (h : l.Sound kind) {commands : List Command}
    (hsound : ∀ command ∈ commands, command.Sound kind) :
    (Ledger.machine.run l commands).1.Sound kind ∧
      ((Ledger.machine.run l commands).1.detector = none ↔
        l.detector = none ∧ ∀ variant, Command.train variant ∉ commands) := by
  induction commands generalizing l with
  | nil => exact ⟨h, fun h => ⟨h, fun _ => List.not_mem_nil⟩, fun h => h.1⟩
  | cons command commands ih =>
    obtain ⟨hcommand, hcommands⟩ := List.forall_mem_cons.mp hsound
    have hstep := l.progress hlib hskl h hcommand
    obtain ⟨hsound', hdetector⟩ := ih hstep.sound hcommands
    refine ⟨hsound', hdetector.trans ?_⟩
    show (l.step command).1.detector = none ∧ _ ↔ _
    rw [hstep.detector, and_assoc, ← forall_and]
    refine and_congr_right fun _ => forall_congr' fun variant => ?_
    rw [List.mem_cons, not_or, eq_comm]

/-- **The pipe raises for one reason only.** After any sound commands, a sound command is
answered by an exception exactly if it asks for the stored detector and there has been no
training. -/
theorem Pipeline.isRaised_iff (hlib : Libraries.Documented) (hskl : ScikitLearn.Documented)
    {before : List Command} (hbefore : ∀ c ∈ before, c.Sound kind)
    (hcommand : command.Sound kind) :
    ((Pipeline.machine.run { } before).1.step command).2.IsRaised ↔
      command.AsksDetector ∧ ∀ variant, Command.train variant ∉ before := by
  obtain ⟨hsound, hdetector⟩ := Ledger.progress_run hlib hskl Ledger.sound_empty hbefore
  have hholds : (Pipeline.machine.run { } before).1.Holds (Ledger.machine.run { } before).1 :=
    (simulates.run holds_empty fun c hc => (hbefore c hc).transmissible).1
  have hanswer := (simulates _ _ command hholds hcommand.transmissible).2
  show ((Pipeline.machine.step (Pipeline.machine.run { } before).1 command).2).IsRaised ↔ _
  rw [hanswer]
  refine (Ledger.progress hlib hskl hsound hcommand).raised.trans (and_congr_right fun _ => ?_)
  exact hdetector.trans ⟨fun h => h.2, fun h => ⟨rfl, h⟩⟩

omit [Interpreter] [WordTable] [Libraries] [ScikitLearn] in
/-- A detector is asked before one has been trained, and afterwards. -/
theorem Pipeline.isRaised_iff_three :
    let _ : Interpreter := .ascii
    let _ : WordTable := .ascii
    let _ : Libraries := .memoryless
    let _ : ScikitLearn := .exact
    let flow := Flow.new (text "http") 80 .inbound [71, 69, 84]
    let before : List Command := [.publish .fitting flow, .publishLabeled flow true]
    let variant : ModelVariant := { name := text "demo", minTrainSequences := 1 }
    ((Pipeline.machine.run { } before).1.step .inspect).2.IsRaised ∧
      ¬((Pipeline.machine.run { } (before ++ [Command.train variant])).1.step
        .inspect).2.IsRaised := by
  intro _ _ _ _ flow before variant
  have hlib := Libraries.documented_memoryless
  have hskl := ScikitLearn.documented_exact
  have hflow : flow.Transmissible := ⟨noSurrogatePair_of_ascii (by decide), nofun⟩
  have hrunnable : variant.Runnable (· = flow) :=
    ModelVariant.runnable_memoryless rfl (Nat.succ_ne_zero 7)
      (fun cap h => absurd h.symm (Option.some_ne_none cap)) (by
        show (0 : ℝ) < 5 / 100 ∧ (5 / 100 : ℝ) < 1
        norm_num) _
  have hbefore : ∀ c ∈ before, c.Sound (· = flow) := by
    simp only [before, List.forall_mem_cons]
    exact ⟨⟨hflow, fun _ => rfl⟩, hflow, List.forall_mem_nil _⟩
  have hafter : ∀ c ∈ before ++ [Command.train variant], c.Sound (· = flow) :=
    forall_mem_append hbefore fun c hc => List.mem_singleton.mp hc ▸ hrunnable
  have hinspect : Command.Sound (· = flow) .inspect := trivial
  refine ⟨(isRaised_iff hlib hskl hbefore hinspect).mpr ⟨trivial, fun v => ?_⟩, fun h => ?_⟩
  · simp [before]
  · exact ((isRaised_iff hlib hskl hafter hinspect).mp h).2 variant (by simp)

end

end LearningData
