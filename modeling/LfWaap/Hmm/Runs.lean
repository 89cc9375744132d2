import LfWaap.Hmm.Coverage
import LfWaap.Hmm.SymbolContract

/-!
# Training again and again

A detector is trained any number of times. Whatever came before, a training that returns
leaves behind what it would have left behind in a new object: the models of the
partitions that the rule `Waf.Coverable` holds of for *its* flows, and no others
(`Waf.PartitionedHmm.reflects_of_train`). So after any run of trainings the state is
that of the last one (`Waf.HmmDetector.coverage_of_trainRun`), as long as the trainings
return; and with libraries that do not raise they return exactly if the sequences of all flows
can be extracted (`Waf.PartitionedHmm.trainRun_isOk_iff`).
-/

namespace Waf

open Python

variable [Interpreter] {c : HmmSettings}

/-! ### What the last training leaves behind -/

omit [Interpreter] in
/-- A model object that has been fitted, with all its members. -/
def OneClassModel.isFitted {K : ℕ} : OneClassModel K → Bool
  | single h => h.model.isSome
  | ensemble h => h.members.all fun m => m.model.isSome

omit [Interpreter] in
/-- A calibrated model is fitted. -/
theorem OneClassModel.isFitted_of_isCalibrated {K : ℕ} {m : OneClassModel K}
    (h : m.isCalibrated = true) : m.isFitted = true := by
  cases m with
  | single h₀ => exact h₀.fitted_of_calibrated h
  | ensemble h₀ => exact List.all_eq_true.mpr (h₀.fitted_of_calibrated h)

variable [Libraries]

/-- **An object that reflects a training**, whatever was trained before. -/
structure PartitionedHmm.Reflects (p : PartitionedHmm c) (normal validation : List Flow) :
    Prop where
  /-- The models are those that a new object would have. -/
  models : p.models = (({ } : PartitionedHmm c).train normal validation).1.models
  /-- All of them are fitted and calibrated. -/
  calibrated : ∀ k m, p.models.get? k = some m → m.isFitted = true ∧ m.isCalibrated = true
  /-- They cover the partitions the rule holds of. -/
  covers : ∀ f, p.Covers f ↔ Coverable c normal validation (partitionKey f)
  /-- The object is trained if there is such a partition. -/
  trained : p.isTrained = true ↔ ∃ k, Coverable c normal validation k

/-- **One training**: what it leaves behind does not depend on what was there. -/
theorem PartitionedHmm.reflects_of_train {p p' : PartitionedHmm c} {normal validation : List Flow}
    (h : p.train normal validation = (p', .ok ())) : p'.Reflects normal validation where
  models := by
    obtain ⟨trainGroups, valGroups, htrain, hval, -, hmodels⟩ := train_loop h
    rw [hmodels]
    simp only [train, htrain, hval]
  calibrated := fun k m hm => by
    have hcal := isCalibrated_of_train h hm
    exact ⟨OneClassModel.isFitted_of_isCalibrated hcal, hcal⟩
  covers := fun _ => covers_train_iff h
  trained := isTrained_train_iff h

/-- **Assessing after a training.** Where the sequence of a flow can be extracted and scored,
assessing returns; the flow counts as covered exactly if the rule holds of its partition; and a
flow that is not covered is not blocked. -/
theorem PartitionedHmm.Reflects.assess {p : PartitionedHmm c} {normal validation : List Flow}
    (hr : p.Reflects normal validation) {f : Flow} (hf : c.extractor.Extracts f)
    (hacc : p.Accepts f) : ∃ a, p.assess f = .ok a ∧
      (a.covered = true ↔ Coverable c normal validation (partitionKey f)) ∧
      (a.covered = false → a.blocked = false) := by
  rw [← hr.covers f]
  by_cases hc : p.Covers f
  · obtain ⟨-, -, t, v, -, -, hassess⟩ := assess_of_covers hc hf hacc
    refine ⟨.judged (partitionKey f) t (decide (v < t)) v, hassess, iff_of_true rfl hc, ?_⟩
    rintro ⟨⟩
  · refine ⟨.abstain (partitionKey f), assess_of_not_covers hc, ?_, fun _ => rfl⟩
    exact iff_of_false (by rintro ⟨⟩) hc

/-- A training that returns has extracted the sequences of all its flows. -/
theorem PartitionedHmm.extracts_of_train {p p' : PartitionedHmm c} {normal validation : List Flow}
    (h : p.train normal validation = (p', .ok ())) :
    ∀ f ∈ normal ++ validation, c.extractor.Extracts f := by
  obtain ⟨trainGroups, valGroups, htrain, hval, -, -⟩ := train_loop h
  have hgroup : ∀ (flows : List Flow) (groups : Groups c), groupSequences c flows = .ok groups →
      ∀ f ∈ flows, c.extractor.Extracts f := by
    intro flows groups hgroups f hf
    have hall := mapM_eq_ok_iff.mpr (groupSequences_spec hgroups (partitionKey f)).1
    obtain ⟨s, hs⟩ := exists_of_mem_of_mapM hall (List.mem_filter.mpr ⟨hf, by simp⟩)
    exact ⟨_, FeatureExtractor.extract_of_symbols hs⟩
  intro f hf
  rcases List.mem_append.mp hf with hf | hf
  · exact hgroup _ _ htrain f hf
  · exact hgroup _ _ hval f hf

/-- **When a training returns**: exactly if the sequences of its flows can be
extracted. -/
theorem PartitionedHmm.train_isOk_iff (hlib : Libraries.Documented) {kind : Flow → Prop}
    (hc : c.Reliable kind) (hq : 0 < c.targetFpr ∧ c.targetFpr < 1) (p : PartitionedHmm c)
    {normal : List Flow} (hkind : ∀ f ∈ normal, kind f) (validation : List Flow) :
    (p.train normal validation).2 = .ok () ↔
      ∀ f ∈ normal ++ validation, c.extractor.Extracts f := by
  constructor
  · exact fun h => extracts_of_train (Prod.ext rfl h)
  · exact fun h => train_isOk hlib hc hq hkind (fun f hf => h f (List.mem_append_left _ hf))
      (fun f hf => h f (List.mem_append_right _ hf)) p

/-! ### Runs -/

/-- Training an object once for every pair of lists: the object at the end, and what the
calls did. -/
noncomputable def PartitionedHmm.trainRun (p : PartitionedHmm c) :
    List (List Flow × List Flow) → PartitionedHmm c × List (Except PyError Unit)
  | [] => (p, [])
  | call :: calls =>
    let first := p.train call.1 call.2
    ((first.1.trainRun calls).1, first.2 :: (first.1.trainRun calls).2)

/-- The last call is made on the object the calls before have left behind. -/
theorem PartitionedHmm.trainRun_concat (p : PartitionedHmm c) (calls : List (List Flow × List Flow))
    (call : List Flow × List Flow) :
    p.trainRun (calls ++ [call]) =
      (((p.trainRun calls).1.train call.1 call.2).1,
        (p.trainRun calls).2 ++ [((p.trainRun calls).1.train call.1 call.2).2]) := by
  induction calls generalizing p with
  | nil => rfl
  | cons call' calls ih =>
    rw [List.cons_append, trainRun, ih, trainRun]
    rfl

/-- **When the calls of a run return.** -/
theorem PartitionedHmm.trainRun_isOk_iff (hlib : Libraries.Documented) {kind : Flow → Prop}
    (hc : c.Reliable kind) (hq : 0 < c.targetFpr ∧ c.targetFpr < 1) (p : PartitionedHmm c)
    {calls : List (List Flow × List Flow)} (hkind : ∀ call ∈ calls, ∀ f ∈ call.1, kind f) :
    (∀ outcome ∈ (p.trainRun calls).2, outcome = .ok ()) ↔
      ∀ call ∈ calls, ∀ f ∈ call.1 ++ call.2, c.extractor.Extracts f := by
  induction calls generalizing p with
  | nil => exact iff_of_true nofun nofun
  | cons call calls ih =>
    rw [trainRun, List.forall_mem_cons, List.forall_mem_cons]
    exact and_congr (train_isOk_iff hlib hc hq p (hkind call List.mem_cons_self) call.2)
      (ih _ fun call hcall => hkind call (List.mem_cons_of_mem _ hcall))

/-! ### What holds of all models -/

section

variable {P : OneClassModel c.nSymbols → Prop}

/-- The loop installs trained models only, also where it ends in the middle. -/
theorem trainLoop_forall
    (hP : ∀ sequences validation m, trainModel c sequences validation = .ok m → P m)
    {valGroups : Groups c} (groups : List (PartitionKey × List (List (Fin c.nSymbols))))
    {models : Models c} (h : ∀ k m, models.get? k = some m → P m) :
    ∀ k m, (trainLoop valGroups groups models).1.get? k = some m → P m := by
  induction groups generalizing models with
  | nil => exact h
  | cons g groups ih =>
    obtain ⟨key, sequences⟩ := g
    rw [trainLoop]
    split
    · cases hm : trainModel c sequences (valGroups.getD key []) with
      | error e => exact h
      | ok m =>
        refine ih fun k m' hget => ?_
        rw [Dict.get?_set] at hget
        split at hget
        · rw [← Option.some.inj hget]
          exact hP _ _ _ hm
        · exact h k m' hget
    · exact ih h

/-- **One training** keeps what holds of trained models, whether it returns or not. -/
theorem PartitionedHmm.train_forall
    (hP : ∀ sequences validation m, trainModel c sequences validation = .ok m → P m)
    {p : PartitionedHmm c} (hp : ∀ k m, p.models.get? k = some m → P m)
    (normal validation : List Flow) :
    ∀ k m, (p.train normal validation).1.models.get? k = some m → P m := by
  rcases p.train_cases normal validation with ⟨e, -, he⟩ | ⟨trainGroups, valGroups, -, -, heq⟩
  · rw [he]
    exact hp
  · rw [heq]
    refine trainLoop_forall hP _ fun k m hm => ?_
    rw [Dict.get?_empty] at hm
    cases hm

/-- **Any run of trainings** of a new object leaves trained models only. -/
theorem PartitionedHmm.trainRun_forall
    (hP : ∀ sequences validation m, trainModel c sequences validation = .ok m → P m)
    (calls : List (List Flow × List Flow)) :
    ∀ k m, (({ } : PartitionedHmm c).trainRun calls).1.models.get? k = some m → P m := by
  have hrun : ∀ (calls : List (List Flow × List Flow)) (p : PartitionedHmm c),
      (∀ k m, p.models.get? k = some m → P m) →
        ∀ k m, (p.trainRun calls).1.models.get? k = some m → P m := by
    intro calls
    induction calls with
    | nil => exact fun _ hp => hp
    | cons call calls ih => exact fun p hp => ih _ (train_forall hP hp call.1 call.2)
  refine hrun calls _ fun k m hm => ?_
  rw [Dict.get?_empty] at hm
  cases hm

end

/-! ### Runs of a detector -/

/-- Training a detector once for every pair of lists. -/
noncomputable def HmmDetector.trainRun (d : HmmDetector) :
    List (List Flow × List Flow) → HmmDetector × List (Except PyError Unit)
  | [] => (d, [])
  | call :: calls =>
    let first := d.train call.1 call.2
    ((first.1.trainRun calls).1, first.2 :: (first.1.trainRun calls).2)

/-- A run of a detector is one of its partitioned model. -/
theorem HmmDetector.trainRun_eq (p : PartitionedHmm c) (calls : List (List Flow × List Flow)) :
    (HmmDetector.mk c p).trainRun calls = (⟨c, (p.trainRun calls).1⟩, (p.trainRun calls).2) := by
  induction calls generalizing p with
  | nil => rfl
  | cons call calls ih =>
    have hcall : (HmmDetector.mk c p).train call.1 call.2 =
        (⟨c, (p.train call.1 call.2).1⟩, (p.train call.1 call.2).2) := rfl
    rw [trainRun, hcall, PartitionedHmm.trainRun]
    dsimp only
    rw [ih]

/-- **Coverage over whole runs.** A detector is trained any number of times, with libraries that
do not raise on the flows it is fitted on. All calls return exactly if the extractor is not that
of packets, or can measure all flows. Then the state is that of the last call: its models are
those a new object would have, all fitted and calibrated; it is trained exactly if the rule holds
of some partition; and a flow that the extractor can measure is assessed, is covered exactly if
the rule holds of its partition, and is not blocked if it is not. -/
theorem HmmDetector.coverage_of_trainRun (hlib : Libraries.Documented) (x : ExtractorChoice)
    (hx : c.extractor = x.extractor) (hq : 0 < c.targetFpr ∧ c.targetFpr < 1)
    (p₀ : PartitionedHmm c) (calls : List (List Flow × List Flow)) (normal validation : List Flow)
    (hc : c.Reliable fun f => ∃ call ∈ calls ++ [(normal, validation)], f ∈ call.1) :
    ((∀ outcome ∈ ((HmmDetector.mk c p₀).trainRun (calls ++ [(normal, validation)])).2,
        outcome = .ok ()) ↔
      (x = .flowFeature → ∀ call ∈ calls ++ [(normal, validation)],
        ∀ f ∈ call.1 ++ call.2, f.Measurable)) ∧
    ((x = .flowFeature → ∀ call ∈ calls ++ [(normal, validation)],
        ∀ f ∈ call.1 ++ call.2, f.Measurable) →
      ∃ p : PartitionedHmm c,
        ((HmmDetector.mk c p₀).trainRun (calls ++ [(normal, validation)])).1 = ⟨c, p⟩ ∧
        p.models = (({ } : PartitionedHmm c).train normal validation).1.models ∧
        (∀ k m, p.models.get? k = some m → m.isFitted = true ∧ m.isCalibrated = true) ∧
        ((HmmDetector.mk c p).isTrained = true ↔ ∃ k, Coverable c normal validation k) ∧
        ∀ f, (x = .flowFeature → f.Measurable) → ∃ a, (HmmDetector.mk c p).assessFlow f = .ok a ∧
          (a.covered = true ↔ Coverable c normal validation (partitionKey f)) ∧
          (a.covered = false → a.blocked = false)) := by
  have hextracts : ∀ f, c.extractor.Extracts f ↔ (x = .flowFeature → f.Measurable) := fun f =>
    hx ▸ x.extracts_iff f
  have hruns := p₀.trainRun_isOk_iff hlib hc hq fun call hcall f hf => ⟨call, hcall, hf⟩
  have hcond : (∀ call ∈ calls ++ [(normal, validation)], ∀ f ∈ call.1 ++ call.2,
      c.extractor.Extracts f) ↔ (x = .flowFeature → ∀ call ∈ calls ++ [(normal, validation)],
        ∀ f ∈ call.1 ++ call.2, f.Measurable) := by
    constructor
    · exact fun h hflow call hcall f hf => (hextracts f).mp (h call hcall f hf) hflow
    · exact fun h call hcall f hf => (hextracts f).mpr fun hflow => h hflow call hcall f hf
  rw [trainRun_eq, ← hcond]
  refine ⟨hruns, fun h => ?_⟩
  -- the last call returns, so what it leaves behind is its own
  have hlast : (p₀.trainRun calls).1.train normal validation =
      (((p₀.trainRun calls).1.train normal validation).1, .ok ()) := by
    refine Prod.ext rfl (hruns.mpr h _ ?_)
    rw [PartitionedHmm.trainRun_concat]
    exact List.mem_append_right _ (List.mem_singleton_self _)
  have hr := PartitionedHmm.reflects_of_train hlast
  have hscores : ∀ k m, ((p₀.trainRun calls).1.train normal validation).1.models.get? k = some m →
      m.Scores := fun k m => PartitionedHmm.scores_of_train hlib hc
    (fun f hf => ⟨_, List.mem_append_right _ (List.mem_singleton_self _), hf⟩) hlast
  refine ⟨((p₀.trainRun calls).1.train normal validation).1, ?_, hr.models, hr.calibrated,
    hr.trained, fun f hf => ?_⟩
  · rw [PartitionedHmm.trainRun_concat]
  · exact hr.assess ((hextracts f).mpr hf) (PartitionedHmm.accepts_of_scores hscores f)

omit [Interpreter] [Libraries] in
/-- Two trainings, the second on another service. -/
theorem HmmDetector.coverage_of_trainRun_two :
    let _ : Interpreter := .ascii
    let _ : Libraries := .memoryless
    let c : HmmSettings :=
      { extractor := byteClassExtractor, nStates := 1, minTrain := 1, targetFpr := 1 / 2 }
    let f := Flow.new (text "http") 80 .inbound [71, 69, 84]
    let g := Flow.new (text "http") 8080 .inbound [71, 69, 84]
    ∃ p : PartitionedHmm c,
      ((HmmDetector.mk c { }).trainRun ([([g], [g])] ++ [([f], [f])])).1 = ⟨c, p⟩ ∧
        p.models = (({ } : PartitionedHmm c).train [f] [f]).1.models := by
  intro _ _ c f g
  obtain ⟨-, h⟩ := HmmDetector.coverage_of_trainRun Libraries.documented_memoryless .byteClass rfl
    half_rate ({ } : PartitionedHmm c) [([g], [g])] [f] [f]
    (HmmSettings.reliable_memoryless one_ne_zero
      (fun cap h => absurd h (Option.some_ne_none cap).symm) _)
  obtain ⟨p, hp, hmodels, -⟩ := h (by rintro ⟨⟩)
  exact ⟨p, hp, hmodels⟩

omit [Interpreter] [Libraries] in
/-- **A call that raises**: a flow with a packet length beyond the range of floats. -/
theorem HmmDetector.not_isOk_trainRun_flowFeature :
    let _ : Interpreter := .ascii
    let _ : Libraries := .memoryless
    let c : HmmSettings := { extractor := flowFeatureExtractor, targetFpr := 1 / 2 }
    let f := Flow.new (text "tls") 443 .inbound [] [⟨.inbound, 2 ^ 1024, .finite 0, []⟩]
    c.Reliable (fun _ => True) ∧ (0 < c.targetFpr ∧ c.targetFpr < 1) ∧
      ¬∀ outcome ∈ ((HmmDetector.mk c { }).trainRun [([f], [f])]).2, outcome = .ok () := by
  intro _ _ c f
  have hc : c.Reliable fun _ => True :=
    HmmSettings.reliable_memoryless (by decide)
      (fun cap h => absurd h (Option.some_ne_none cap).symm) _
  refine ⟨hc, half_rate, fun h => ?_⟩
  rw [HmmDetector.trainRun_eq] at h
  have hext := (PartitionedHmm.trainRun_isOk_iff Libraries.documented_memoryless hc half_rate { }
    fun _ _ _ _ => trivial).mp h _ List.mem_cons_self f List.mem_cons_self
  have hm := ExtractorChoice.extracts_flowFeature_iff.mp hext
  have hlen := hm ⟨.inbound, 2 ^ 1024, .finite 0, []⟩ List.mem_cons_self
  dsimp only at hlen
  exact not_floatRange_two_pow hlen

end Waf
