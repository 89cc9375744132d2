import LfWaap.Hmm.Coverage
import LfWaap.Hmm.HmmDetector

/-!
# Calibrating and storing a detector

The use case (`waf.application.calibrate_model`): read all traffic of a source, train a
detector with it, store the detector. The repository
(`waf.infrastructure.adapter.persistence`) is a file that holds one detector; storing
replaces it, whatever it is.

A detector is stored when training *returns*, not when it yields a model: where no
partition has enough flows, an untrained detector is stored, which
`Waf.HmmDetector.save` would refuse. `Waf.PickleModelRepository.usable_iff` says of any
sequence of calls when the stored detector stays a trained one.
-/

namespace Waf

open Python

variable [Interpreter]

/-! ### Ports -/

/-- Where traffic comes from: the flows to fit on and the flows to calibrate with. -/
structure TrafficSource where
  normal : Generator Flow
  validation : Generator Flow

/-- **The repository**: the detector in its file, if there is a file. -/
structure PickleModelRepository where
  stored : Option HmmDetector := none

namespace PickleModelRepository

/-- Write the file. -/
def save (_ : PickleModelRepository) (detector : HmmDetector) : PickleModelRepository where
  stored := some detector

/-- Read the file. -/
def load (repository : PickleModelRepository) : Except PyError HmmDetector :=
  match repository.stored with
  | some detector => .ok detector
  | none => .error (.fileNotFoundError "no model saved")

/-- The repository holds a trained detector. -/
def Usable (repository : PickleModelRepository) : Prop :=
  ∃ d, repository.load = .ok d ∧ d.isTrained = true

/-- What is saved is loaded. -/
theorem load_save (repository : PickleModelRepository) (d : HmmDetector) :
    (repository.save d).load = .ok d := rfl

end PickleModelRepository

/-- What a calibration reports. -/
structure CalibrationReport where
  normalCount : ℕ
  validationCount : ℕ
  deriving DecidableEq

/-! ### The use case -/

section

variable [Libraries]

/-- **Calibrating a detector**: the repository it leaves behind, and the report. -/
noncomputable def calibrateModel (source : TrafficSource) (repository : PickleModelRepository)
    (detector : HmmDetector) : PickleModelRepository × Except PyError CalibrationReport :=
  match source.normal.toList with
  | .error e => (repository, .error e)
  | .ok normal =>
    match source.validation.toList with
    | .error e => (repository, .error e)
    | .ok validation =>
      match detector.train normal validation with
      | (_, .error e) => (repository, .error e)
      | (trained, .ok ()) => (repository.save trained, .ok ⟨normal.length, validation.length⟩)

/-- **What a calibration can do**: raise and leave the repository alone, or store the
detector that training has returned. -/
theorem calibrateModel_cases (source : TrafficSource) (repository : PickleModelRepository)
    (detector : HmmDetector) :
    (∃ e, calibrateModel source repository detector = (repository, .error e) ∧
        ∀ normal validation, source.normal.toList = .ok normal →
          source.validation.toList = .ok validation →
          (detector.train normal validation).2 = .error e) ∨
      ∃ normal validation trained, source.normal.toList = .ok normal ∧
        source.validation.toList = .ok validation ∧
        detector.train normal validation = (trained, .ok ()) ∧
        calibrateModel source repository detector =
          (repository.save trained, .ok ⟨normal.length, validation.length⟩) := by
  unfold calibrateModel
  cases hn : source.normal.toList with
  | error e => exact Or.inl ⟨e, rfl, fun _ _ h => absurd h nofun⟩
  | ok normal =>
    cases hv : source.validation.toList with
    | error e => exact Or.inl ⟨e, rfl, fun _ _ _ h => absurd h nofun⟩
    | ok validation =>
      rcases ht : detector.train normal validation with ⟨trained, e | _⟩
      · refine Or.inl ⟨e, by simp only [ht], ?_⟩
        intro normal' validation' hn' hv'
        obtain rfl := Except.ok.inj hn'
        obtain rfl := Except.ok.inj hv'
        rw [ht]
      · exact Or.inr ⟨normal, validation, trained, rfl, rfl, ht, by simp only [ht]⟩

/-! ### Sequences of calibrations -/

/-- One call of the use case: a source, and the settings of a freshly built detector. -/
structure Calibration where
  source : TrafficSource
  settings : HmmSettings

/-- The repository after a call. -/
noncomputable def PickleModelRepository.after (repository : PickleModelRepository)
    (call : Calibration) : PickleModelRepository :=
  (calibrateModel call.source repository ⟨call.settings, { }⟩).1

/-- The repository after calls. -/
noncomputable def PickleModelRepository.afterAll (repository : PickleModelRepository)
    (calls : List Calibration) : PickleModelRepository :=
  calls.foldl after repository

/-- A call that does no harm: it raises before it stores, or the traffic of its source
covers a partition. -/
def Calibration.Harmless (call : Calibration) : Prop :=
  ∀ normal validation, call.source.normal.toList = .ok normal →
    call.source.validation.toList = .ok validation →
    (HmmDetector.train ⟨call.settings, { }⟩ normal validation).2 = .ok () →
    ∃ k, Coverable call.settings normal validation k

/-- A detector is trained after a training that returns exactly when its traffic covers a
partition. -/
theorem HmmDetector.isTrained_train_iff {d d' : HmmDetector} {normal validation : List Flow}
    (h : d.train normal validation = (d', .ok ())) :
    d'.isTrained = true ↔ ∃ k, Coverable d.settings normal validation k := by
  have hd : d' = ⟨d.settings, (d.partitioned.train normal validation).1⟩ :=
    (congrArg Prod.fst h).symm
  have hok : (d.partitioned.train normal validation).2 = .ok () := congrArg Prod.snd h
  rw [hd]
  exact PartitionedHmm.isTrained_train_iff (Prod.ext rfl hok)

/-- A call whose training returns leaves a usable repository exactly when its traffic
covers a partition. -/
theorem PickleModelRepository.usable_after_of_train (repository : PickleModelRepository)
    {call : Calibration} {normal validation : List Flow}
    (hn : call.source.normal.toList = .ok normal)
    (hv : call.source.validation.toList = .ok validation)
    (hok : (HmmDetector.train ⟨call.settings, { }⟩ normal validation).2 = .ok ()) :
    (repository.after call).Usable ↔ ∃ k, Coverable call.settings normal validation k := by
  rcases calibrateModel_cases call.source repository ⟨call.settings, { }⟩ with
    ⟨e, -, hraise⟩ | ⟨normal', validation', trained, hn', hv', htrain, heq⟩
  · rw [hraise normal validation hn hv] at hok
    exact absurd hok nofun
  · obtain rfl := Except.ok.inj (hn.symm.trans hn')
    obtain rfl := Except.ok.inj (hv.symm.trans hv')
    rw [after, heq, ← HmmDetector.isTrained_train_iff htrain]
    constructor
    · rintro ⟨d, hd, ht⟩
      obtain rfl := Except.ok.inj hd
      exact ht
    · intro ht
      exact ⟨trained, rfl, ht⟩

/-- One call keeps a repository usable exactly when it does no harm. -/
theorem PickleModelRepository.usable_after_iff {repository : PickleModelRepository}
    (h : repository.Usable) {call : Calibration} :
    (repository.after call).Usable ↔ call.Harmless := by
  rcases calibrateModel_cases call.source repository ⟨call.settings, { }⟩ with
    ⟨e, heq, hraise⟩ | ⟨normal, validation, trained, hn, hv, htrain, -⟩
  · rw [after, heq]
    refine ⟨fun _ normal validation hn hv hok => ?_, fun _ => h⟩
    rw [hraise normal validation hn hv] at hok
    exact absurd hok nofun
  · have hok := congrArg Prod.snd htrain
    rw [usable_after_of_train repository hn hv hok]
    constructor
    · intro hk normal' validation' hn' hv' _
      obtain rfl := Except.ok.inj (hn.symm.trans hn')
      obtain rfl := Except.ok.inj (hv.symm.trans hv')
      exact hk
    · intro hharm
      exact hharm normal validation hn hv hok

/-- **The stored detector stays a trained one** after every call of a sequence, whether
the call returns or raises, exactly when every call of it does no harm. -/
theorem PickleModelRepository.usable_iff {repository : PickleModelRepository}
    (h : repository.Usable) {calls : List Calibration} :
    (∀ done, done <+: calls → (repository.afterAll done).Usable) ↔
      ∀ call ∈ calls, call.Harmless := by
  induction calls generalizing repository with
  | nil =>
    refine ⟨fun _ _ hc => absurd hc (by simp), fun _ done hdone => ?_⟩
    obtain rfl := List.prefix_nil.mp hdone
    exact h
  | cons call calls ih =>
    rw [List.forall_mem_cons]
    constructor
    · intro hall
      -- the first call alone is one of the runs
      have hfirst : (repository.after call).Usable := hall [call] (List.prefix_append [call] calls)
      refine ⟨(usable_after_iff h).mp hfirst, (ih hfirst).mp fun done hdone => ?_⟩
      exact hall (call :: done) (List.cons_prefix_cons.mpr ⟨rfl, hdone⟩)
    · rintro ⟨hcall, hcalls⟩ done hdone
      have hfirst := (usable_after_iff h).mpr hcall
      rcases List.prefix_cons_iff.mp hdone with rfl | ⟨rest, rfl, hrest⟩
      · exact h
      · exact (ih hfirst).mpr hcalls rest hrest

end

/-! ### A model that is replaced -/

omit [Interpreter] in
/-- Training a small detector on one flow returns, with any number of copies of the flow to
validate with. -/
theorem HmmDetector.train_small :
    let _ : Interpreter := .ascii
    let _ : Libraries := .memoryless
    let c : HmmSettings :=
      { extractor := byteClassExtractor, nStates := 1, minTrain := 1, targetFpr := 1 / 2 }
    let flow := Flow.new (text "http") 80 .inbound [71, 69, 84]
    ∀ n : ℕ, (HmmDetector.train ⟨c, { }⟩ [flow] (List.replicate n flow)).2 = .ok () := by
  intro _ _ c flow n
  have hone : ∀ f ∈ [flow], f.packets = [] := by
    intro f hf
    rw [List.mem_singleton.mp hf]
    rfl
  have hmany : ∀ f ∈ List.replicate n flow, f.packets = [] := by
    intro f hf
    rw [List.eq_of_mem_replicate hf]
    rfl
  have hok : (({ } : PartitionedHmm c).train [flow] (List.replicate n flow)).2 = .ok () :=
    PartitionedHmm.train_memoryless (by decide) rfl half_rate hone hmany _
  exact hok

omit [Interpreter] in
/-- A repository that is calibrated with one flow to validate with is usable, and stays so
when this is done again. -/
theorem PickleModelRepository.usable_again :
    let _ : Interpreter := .ascii
    let _ : Libraries := .memoryless
    let c : HmmSettings :=
      { extractor := byteClassExtractor, nStates := 1, minTrain := 1, targetFpr := 1 / 2 }
    let flow := Flow.new (text "http") 80 .inbound [71, 69, 84]
    let call : Calibration := ⟨⟨⟨[flow], none⟩, ⟨[flow], none⟩⟩, c⟩
    let repository := PickleModelRepository.after { } call
    repository.Usable ∧ (repository.afterAll [call]).Usable := by
  intro _ _ c flow call repository
  have hcov : ∃ k, Coverable c [flow] [flow] k := ⟨partitionKey flow, by decide⟩
  have husable : repository.Usable :=
    (usable_after_of_train { } rfl rfl (HmmDetector.train_small 1)).mpr hcov
  have hharm : ∀ call' ∈ [call], call'.Harmless := by
    intro call' hmem normal validation hn hv _
    obtain rfl := List.mem_singleton.mp hmem
    obtain rfl := Except.ok.inj hn
    obtain rfl := Except.ok.inj hv
    exact hcov
  exact ⟨husable, (usable_iff husable).mpr hharm [call] (List.prefix_refl _)⟩

omit [Interpreter] in
/-- **A trained model is replaced by an untrained one**: a calibration without validation
traffic returns, and stores a detector without a model. -/
theorem PickleModelRepository.usable_lost :
    let _ : Interpreter := .ascii
    let _ : Libraries := .memoryless
    let c : HmmSettings :=
      { extractor := byteClassExtractor, nStates := 1, minTrain := 1, targetFpr := 1 / 2 }
    let flow := Flow.new (text "http") 80 .inbound [71, 69, 84]
    let call : Calibration := ⟨⟨⟨[flow], none⟩, ⟨[flow], none⟩⟩, c⟩
    let again : Calibration := ⟨⟨⟨[flow], none⟩, ⟨[], none⟩⟩, c⟩
    let repository := PickleModelRepository.after { } call
    (0 < c.targetFpr ∧ c.targetFpr < 1) ∧ repository.Usable ∧
      (HmmDetector.train ⟨c, { }⟩ [flow] []).2 = .ok () ∧
      ¬(repository.after again).Usable := by
  intro _ _ c flow call again repository
  have hcov : ∃ k, Coverable c [flow] [flow] k := ⟨partitionKey flow, by decide⟩
  refine ⟨half_rate, (usable_after_of_train { } rfl rfl (HmmDetector.train_small 1)).mpr hcov,
    HmmDetector.train_small 0, ?_⟩
  have hlost : (repository.after again).Usable ↔ ∃ k, Coverable c [flow] [] k :=
    usable_after_of_train repository rfl rfl (HmmDetector.train_small 0)
  rw [hlost]
  -- no partition has a validation flow
  rintro ⟨k, -, hval⟩
  exact absurd hval (Nat.not_succ_le_zero 0)

end Waf
