import LfWaap.Domain.BlockDecision
import LfWaap.Hmm.HttpFlow
import LfWaap.Hmm.PartitionedHmm

/-!
# The detector

`waf.infrastructure.hmm.hmm_detector`: the detector the decision service asks. It turns
a request into a flow and has the partitioned model assess it; an untrained detector
does not look at the request.

A detector *abstains* when it is untrained and when no calibrated model covers the
partition of the request (`Waf.HmmDetector.Abstains`). Both are reported by a signal
that does not block, the one that also means “judged normal”. To a policy that blocks
on any signal this is neutral; to one that asks for all of them it is a veto, which is
what `Waf.BlockDecisionService.decide_append_of_abstains` says of every list of
detectors.
-/

namespace Waf

open Python

variable [Interpreter]

/-! ### The object -/

/-- **The detector.** -/
structure HmmDetector where
  settings : HmmSettings
  partitioned : PartitionedHmm settings := { }

namespace HmmDetector

/-- The name of every detector of this class. -/
def name : Text := text "hmm"

/-- Some partition has a calibrated model. -/
def isTrained (d : HmmDetector) : Bool := d.partitioned.isTrained

/-- The number of flows the last training has fitted on. -/
def trainCount (d : HmmDetector) : Option ℕ := d.partitioned.trainCount

/-- The number of flows the last training has calibrated with. -/
def validationCount (d : HmmDetector) : Option ℕ := d.partitioned.valCount

section

variable [Libraries]

/-- Train the partitioned model. -/
noncomputable def train (d : HmmDetector) (normalFlows validationFlows : List Flow) :
    HmmDetector × Except PyError Unit :=
  let (partitioned, outcome) := d.partitioned.train normalFlows validationFlows
  (⟨d.settings, partitioned⟩, outcome)

/-- Assess a flow. -/
noncomputable def assessFlow (d : HmmDetector) (flow : Flow) : Except PyError Assessment :=
  d.partitioned.assess flow

/-- The signal of a detector that has not been trained. -/
noncomputable def untrainedSignal : DetectionSignal where
  detector := name
  blocked := false
  reason := text "model not trained"
  score := 0

/-- The signal an assessment is reported by: the suspicion is how far the score is below
zero, and nothing where the flow is not blocked. -/
noncomputable def signalOf (result : Assessment) : DetectionSignal where
  detector := name
  blocked := result.blocked
  reason := result.reason
  score := if result.blocked then max 0 (-result.score) else 0

/-- **Inspecting a request.** -/
noncomputable def inspect (d : HmmDetector) (request : HttpRequest) :
    Except PyError DetectionSignal :=
  if d.isTrained then do
    let result ← d.partitioned.assess (← httpRequestToFlow request)
    return signalOf result
  else .ok untrainedSignal

/-- The detector behind the port. -/
noncomputable def toDetector (d : HmmDetector) : Detector := ⟨name, d.inspect⟩

end

/-! ### The file of a detector -/

/-- What `save` writes: the partitioned model, unless it is untrained. -/
def save (d : HmmDetector) : Except PyError (Σ c, PartitionedHmm c) :=
  if d.isTrained then .ok ⟨d.settings, d.partitioned⟩
  else .error (.runtimeError "cannot save an untrained model")

/-- What `load` makes of such a file. -/
def load (stored : Σ c, PartitionedHmm c) : HmmDetector := ⟨stored.1, stored.2⟩

/-- A detector that has been saved was trained, and is loaded as it was. -/
theorem load_of_save {d : HmmDetector} {stored : Σ c, PartitionedHmm c} (h : d.save = .ok stored) :
    load stored = d ∧ d.isTrained = true := by
  unfold save at h
  split at h
  · next ht =>
    obtain rfl := Except.ok.inj h
    exact ⟨rfl, ht⟩
  · exact absurd h nofun

/-! ### When inspecting returns -/

variable [Libraries]

/-- **The request is one that hmmlearn's `score` does not raise on**, under the models of its
partition. -/
def Accepts (d : HmmDetector) (r : HttpRequest) : Prop :=
  ∀ f, httpRequestToFlow r = .ok f → d.partitioned.Accepts f

/-- **The requests a trained detector can inspect** are those that become flows and that
hmmlearn's `score` does not raise on. -/
theorem inspect_isOk_iff {d : HmmDetector} (ht : d.isTrained = true) {r : HttpRequest} :
    (∃ s, d.inspect r = .ok s) ↔ r.Serialisable ∧ d.Accepts r := by
  rw [← httpRequestToFlow_isOk_iff, inspect, if_pos ht]
  constructor
  · rintro ⟨s, hs⟩
    obtain ⟨f, hf, hs⟩ := exists_of_bind_eq_ok hs
    obtain ⟨a, ha, -⟩ := exists_of_bind_eq_ok hs
    refine ⟨⟨f, hf⟩, fun g hg => ?_⟩
    obtain rfl := Except.ok.inj (hf.symm.trans hg)
    exact (PartitionedHmm.assess_isOk_iff.mp ⟨a, ha⟩).2
  · rintro ⟨⟨f, hf⟩, hacc⟩
    have hm := Flow.measurable_of_packets_eq_nil (packets_of_httpRequestToFlow hf)
    obtain ⟨a, ha⟩ := PartitionedHmm.assess_isOk_iff.mpr
      ⟨fun _ => d.settings.extractor.extract_isOk f hm, hacc f hf⟩
    refine ⟨signalOf a, ?_⟩
    rw [hf]
    change (d.partitioned.assess f >>= _) = _
    rw [ha]
    rfl

/-- A detector whose models have distributions as their rows inspects every request that becomes
a flow. -/
theorem accepts_of_stochastic (hlib : Libraries.Documented) {d : HmmDetector}
    (hs : ∀ k m, d.partitioned.models.get? k = some m → m.Stochastic) (r : HttpRequest) :
    d.Accepts r :=
  fun _ _ m seq hm _ _ => m.accepts_of_stochastic hlib (hs _ m hm) seq

/-- An untrained detector inspects every request. -/
theorem inspect_of_untrained {d : HmmDetector} (ht : d.isTrained = false) (r : HttpRequest) :
    d.inspect r = .ok untrainedSignal := by
  rw [inspect, ht]
  exact if_neg (by simp)

/-! ### Abstaining -/

/-- The detector has no opinion about a request: it is untrained, or no calibrated model
covers the partition of the request. -/
def Abstains (d : HmmDetector) (r : HttpRequest) : Prop :=
  d.isTrained = false ∨ ∃ f, httpRequestToFlow r = .ok f ∧ ¬d.partitioned.Covers f

/-- No opinion is reported by a signal that does not block. -/
theorem inspect_of_abstains {d : HmmDetector} {r : HttpRequest} (h : d.Abstains r) :
    ∃ s, d.inspect r = .ok s ∧ s.blocked = false := by
  cases ht : d.isTrained with
  | false => exact ⟨untrainedSignal, inspect_of_untrained ht r, rfl⟩
  | true =>
    rcases h with hu | ⟨f, hf, hcov⟩
    · exact absurd (hu.symm.trans ht) (by simp)
    · refine ⟨signalOf (.abstain (partitionKey f)), ?_, rfl⟩
      rw [inspect, if_pos ht, hf]
      change (d.partitioned.assess f >>= _) = _
      rw [PartitionedHmm.assess_of_not_covers hcov]
      rfl

end HmmDetector

omit [Interpreter] in
/-- One more signal that does not block: nothing for a policy that blocks on any signal,
and enough to stop one that asks for all of them. -/
theorem shouldBlock_append {policy : BlockPolicy} {ss : List DetectionSignal} {s : DetectionSignal}
    (hs : s.blocked = false) :
    shouldBlock policy (ss ++ [s]) =
      match policy with
      | .any => shouldBlock .any ss
      | .all => false := by
  have hfilter : (ss ++ [s]).filter DetectionSignal.blocked =
      ss.filter DetectionSignal.blocked := by
    rw [List.filter_append, List.filter_cons_of_neg (by simp [hs]), List.filter_nil,
      List.append_nil]
  cases policy with
  | any => rw [shouldBlock, shouldBlock, hfilter]
  | all =>
    have hlt : (ss.filter DetectionSignal.blocked).length ≤ ss.length := List.length_filter_le _ _
    change Decidable.decide (((ss ++ [s]).filter _).length = (ss ++ [s]).length) = false
    rw [hfilter, List.length_append, List.length_singleton]
    exact decide_eq_false (by omega)

/-- What an observer of a service sees: an error, or the decision alone. -/
noncomputable def BlockDecisionService.decision (service : BlockDecisionService)
    (request : HttpRequest) : Except PyError Decision :=
  (service.decide request).map Verdict.decision

/-- **A detector that abstains** leaves the decision of the others as it is under the
policy `any`, and turns every decision into `allow` under the policy `all`; where one of
the others raises, so does the longer service. -/
theorem BlockDecisionService.decide_append_of_abstains [Libraries] {ds : List Detector}
    (hds : ds ≠ []) (policy : BlockPolicy) {h : HmmDetector} {r : HttpRequest} (ha : h.Abstains r) :
    (BlockDecisionService.mk (ds ++ [h.toDetector]) policy (by simp)).decision r =
      ((BlockDecisionService.mk ds policy hds).decision r).map fun decision =>
        match policy with
        | .any => decision
        | .all => .allow := by
  obtain ⟨s, hs, hblocked⟩ := HmmDetector.inspect_of_abstains ha
  have hinspect : h.toDetector.inspect r = .ok s := hs
  simp only [decision, decide]
  rw [signalsOf_append, hinspect]
  cases signalsOf ds r with
  | error e => rfl
  | ok ss =>
    -- the others have answered, so the two verdicts differ in the last signal only
    change Except.ok (verdictOf policy (ss ++ [s])).decision = _
    rw [verdictOf, shouldBlock_append hblocked]
    cases policy with
    | any => rfl
    | all => rfl

omit [Interpreter] in
/-- A detector that blocks everything, beside an untrained one. -/
theorem BlockDecisionService.decide_append_of_abstains_stub :
    let _ : Interpreter := .ascii
    let _ : Libraries := .memoryless
    let stub : Detector := ⟨text "stub", fun _ => .ok ⟨text "stub", true, text "stub", 1⟩⟩
    let h : HmmDetector := ⟨{ extractor := byteClassExtractor }, { }⟩
    let r := HttpRequest.new (text "GET") (text "/")
    (BlockDecisionService.mk [stub] .any (by simp)).decision r = .ok .block ∧
      (BlockDecisionService.mk ([stub] ++ [h.toDetector]) .any (by simp)).decision r =
        .ok .block := by
  intro _ _ stub h r
  have ha : h.Abstains r := Or.inl rfl
  exact ⟨rfl, decide_append_of_abstains (List.cons_ne_nil stub []) .any ha⟩

omit [Interpreter] in
/-- **Under the policy `all`, abstaining is a veto**: a request that every detector
blocks is allowed once an untrained detector is asked as well. -/
theorem BlockDecisionService.decide_append_vetoed :
    let _ : Interpreter := .ascii
    let _ : Libraries := .memoryless
    let stub : Detector := ⟨text "stub", fun _ => .ok ⟨text "stub", true, text "stub", 1⟩⟩
    let h : HmmDetector := ⟨{ extractor := byteClassExtractor }, { }⟩
    let r := HttpRequest.new (text "GET") (text "/")
    h.Abstains r ∧
      (BlockDecisionService.mk [stub] .all (by simp)).decision r = .ok .block ∧
      (BlockDecisionService.mk ([stub] ++ [h.toDetector]) .all (by simp)).decision r =
        .ok .allow := by
  intro _ _ stub h r
  exact ⟨Or.inl rfl, rfl, rfl⟩

end Waf
