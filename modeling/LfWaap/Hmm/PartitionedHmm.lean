import LfWaap.Python.Dict
import LfWaap.Hmm.EnsembleHmm
import LfWaap.Hmm.Features
import LfWaap.Hmm.Partition

/-!
# One model a partition

`waf.infrastructure.hmm.partitioned_hmm`: training groups the flows by partition,
fits and calibrates a new model for each group that is large enough, and assessing a
flow asks the model of its partition, abstaining where there is none.

Training changes its object in the middle of a loop that may raise, so
`Waf.PartitionedHmm.train` returns the object *and* the outcome: where it raises,
the object is what the exception leaves behind. The hyperparameters never change and
are a parameter of the type.

Two facts carry everything proved about training. `Waf.groupSequences_spec` says
what a group is, for any mix of partitions: the sequences of the flows of this
partition, in order. `Waf.trainLoop_spec` says what the loop leaves behind: the
models of the partitions that are large enough and occur before the first failure.
-/

namespace Waf

open Python

variable [Interpreter]

/-! ### The object -/

/-- The hyperparameters. -/
structure HmmSettings where
  extractor : FeatureExtractor
  nStates : ℕ := 8
  window : ℤ := 0
  ensembleSize : ℤ := 1
  maxFitWindows : Option ℤ := none
  targetFpr : ℝ := 1 / 100
  minTrain : ℤ := 10
  nIter : ℤ := 100
  randomState : ℤ := 42

/-- The number of symbols. -/
abbrev HmmSettings.nSymbols (c : HmmSettings) : ℕ := c.extractor.nSymbols

/-- The sequences of the flows of each partition. -/
abbrev Groups (c : HmmSettings) : Type := Dict PartitionKey (List (List (Fin c.nSymbols)))

/-- The models of the partitions. -/
abbrev Models (c : HmmSettings) : Type := Dict PartitionKey (OneClassModel c.nSymbols)

/-- **The partitioned model**, with what its last training recorded. -/
structure PartitionedHmm (c : HmmSettings) where
  models : Models c := .empty
  trainCount : Option ℕ := none
  valCount : Option ℕ := none

variable {c : HmmSettings}

/-- Some partition has a calibrated model. -/
def PartitionedHmm.isTrained (p : PartitionedHmm c) : Bool :=
  p.models.entries.any fun e => e.2.isCalibrated

/-! ### Training -/

section Training

variable [Libraries]

/-- An untrained model for one partition. -/
noncomputable def newModel (c : HmmSettings) : Except PyError (OneClassModel c.nSymbols) :=
  let single : NormalHmm c.nSymbols := {
    nStates := c.nStates
    window := c.window
    maxFitWindows := c.maxFitWindows
    nIter := c.nIter
    randomState := c.randomState }
  if 1 < c.ensembleSize then (EnsembleNormalHmm.new c.ensembleSize .mean single).map .ensemble
  else .ok (.single single)

/-- The single model that a fit leaves behind, where it is no ensemble. -/
noncomputable def HmmSettings.fitted (c : HmmSettings) (m : CategoricalHmm c.nStates c.nSymbols) :
    NormalHmm c.nSymbols :=
  let single : NormalHmm c.nSymbols := {
    nStates := c.nStates
    window := c.window
    maxFitWindows := c.maxFitWindows
    nIter := c.nIter
    randomState := c.randomState }
  { single with
    model := some (NormalHmm.smooth single.smoothing m)
    fitted_of_calibrated := fun _ => rfl }

/-- A model for one partition, fitted and calibrated. -/
noncomputable def trainModel (c : HmmSettings)
    (sequences validation : List (List (Fin c.nSymbols))) :
    Except PyError (OneClassModel c.nSymbols) := do
  let model ← newModel c
  let model ← model.fit sequences
  model.calibrate validation c.targetFpr

/-- The sequences of flows, grouped by partition. -/
def groupSequences (c : HmmSettings) (flows : List Flow) : Except PyError (Groups c) :=
  flows.foldlM (fun groups flow =>
    (c.extractor.symbols flow).map fun s => groups.appendAt (partitionKey flow) s) .empty

/-- A group that gets a model: it is large enough, and there are validation
sequences for it. -/
def Eligible (c : HmmSettings) (valGroups : Groups c) (key : PartitionKey)
    (sequences : List (List (Fin c.nSymbols))) : Prop :=
  ¬((sequences.length : ℤ) < c.minTrain ∨ valGroups.getD key [] = [])

instance (valGroups : Groups c) (key : PartitionKey) (sequences : List (List (Fin c.nSymbols))) :
    Decidable (Eligible c valGroups key sequences) :=
  inferInstanceAs (Decidable (¬_))

/-- The loop over the groups: each gets its model, or is skipped. Where a model
raises, the models installed before stay. -/
noncomputable def trainLoop (valGroups : Groups c) :
    List (PartitionKey × List (List (Fin c.nSymbols))) → Models c →
      Models c × Except PyError Unit
  | [], models => (models, .ok ())
  | (key, sequences) :: groups, models =>
    if Eligible c valGroups key sequences then
      match trainModel c sequences (valGroups.getD key []) with
      | .error e => (models, .error e)
      | .ok model => trainLoop valGroups groups (models.set key model)
    else trainLoop valGroups groups models

/-- **Training**: the object it leaves behind, and whether it raised. -/
noncomputable def PartitionedHmm.train (p : PartitionedHmm c)
    (normalFlows validationFlows : List Flow) : PartitionedHmm c × Except PyError Unit :=
  let p := { p with trainCount := some normalFlows.length, valCount := some validationFlows.length }
  match groupSequences c normalFlows with
  | .error e => (p, .error e)
  | .ok trainGroups =>
    match groupSequences c validationFlows with
    | .error e => (p, .error e)
    | .ok valGroups =>
      let (models, outcome) := trainLoop valGroups trainGroups.entries .empty
      ({ p with models := models }, outcome)

end Training

/-! ### Assessing -/

/-- What the partitioned model says about a flow. -/
structure Assessment where
  blocked : Bool
  score : EReal
  key : PartitionKey
  reason : Text
  covered : Bool := true

/-- The assessment of a flow whose partition has no calibrated model. -/
noncomputable def Assessment.abstain (key : PartitionKey) : Assessment where
  blocked := false
  score := 0
  key := key
  reason := text "no calibrated model for partition " ++ key.str
  covered := false

/-- The assessment a model gives. -/
def Assessment.judged (key : PartitionKey) (threshold : EReal) (blocked : Bool) (score : EReal) :
    Assessment where
  blocked := blocked
  score := score
  key := key
  reason :=
    if blocked then
      text "anomaly: score " ++ Interpreter.fixed3 score ++ text " < threshold " ++
        Interpreter.fixed3 threshold ++ text " (partition " ++ key.str ++ text ")"
    else
      text "normal: score " ++ Interpreter.fixed3 score ++ text " >= threshold " ++
        Interpreter.fixed3 threshold

section Assessing

variable [Libraries]

/-- **Assessing a flow**: the model of its partition is asked, if there is a
calibrated one. -/
noncomputable def PartitionedHmm.assess (p : PartitionedHmm c) (flow : Flow) :
    Except PyError Assessment :=
  let key := partitionKey flow
  match p.models.get? key with
  | none => .ok (.abstain key)
  | some model =>
    if model.isCalibrated then do
      let sequence ← c.extractor.symbols flow
      let (blocked, score) ← model.isAnomaly sequence
      return .judged key (model.threshold.getD 0) blocked score
    else .ok (.abstain key)

/-- The threshold that the flows of a partition are compared with, if there is one. -/
def PartitionedHmm.threshold? (p : PartitionedHmm c) (key : PartitionKey) : Option EReal :=
  (p.models.get? key).bind OneClassModel.threshold

/-- The partition of a flow has a calibrated model. -/
def PartitionedHmm.Covers (p : PartitionedHmm c) (flow : Flow) : Prop :=
  ∃ m, p.models.get? (partitionKey flow) = some m ∧ m.isCalibrated = true

/-- A flow that is not covered is not judged. -/
theorem PartitionedHmm.assess_of_not_covers {p : PartitionedHmm c} {flow : Flow}
    (h : ¬p.Covers flow) : p.assess flow = .ok (.abstain (partitionKey flow)) := by
  unfold assess
  dsimp only
  split
  · rfl
  · next m hm =>
    by_cases hc : m.isCalibrated = true
    · exact absurd ⟨m, hm, hc⟩ h
    · rw [if_neg hc]

/-- A covered flow is judged, by the model of its partition, once its sequence is
extracted. -/
theorem PartitionedHmm.assess_eq_bind {p : PartitionedHmm c} {flow : Flow}
    {m : OneClassModel c.nSymbols} (hm : p.models.get? (partitionKey flow) = some m) {t : EReal}
    (ht : m.threshold = some t) :
    p.assess flow = c.extractor.symbols flow >>= fun seq =>
      (m.score seq).map fun s => .judged (partitionKey flow) t (decide (s < t)) s := by
  have hcal : m.isCalibrated = true := m.isCalibrated_iff.mpr ⟨t, ht⟩
  unfold assess
  simp only [hm, if_pos hcal, ht, Option.getD_some]
  congr
  funext seq
  rw [OneClassModel.isAnomaly_eq ht]
  cases m.score seq with
  | error e => rfl
  | ok v => rfl

/-- A covered flow is judged by the score its model gives its sequence. -/
theorem PartitionedHmm.assess_of_get? {p : PartitionedHmm c} {flow : Flow}
    {m : OneClassModel c.nSymbols} (hm : p.models.get? (partitionKey flow) = some m) {t : EReal}
    (ht : m.threshold = some t) {seq : List (Fin c.nSymbols)}
    (hs : c.extractor.symbols flow = .ok seq) :
    p.assess flow =
      (m.score seq).map fun s => .judged (partitionKey flow) t (decide (s < t)) s := by
  rw [assess_eq_bind hm ht, hs, ok_bind]

/-- **The flow is one that hmmlearn's `score` does not raise on**, under the models of its
partition. -/
def PartitionedHmm.Accepts (p : PartitionedHmm c) (flow : Flow) : Prop :=
  ∀ m seq, p.models.get? (partitionKey flow) = some m → m.isCalibrated = true →
    c.extractor.symbols flow = .ok seq → m.Accepts seq

/-- **A covered flow is judged** wherever its sequence can be extracted and scored, by the score
that the model of its partition gives to it. -/
theorem PartitionedHmm.assess_of_covers {p : PartitionedHmm c} {flow : Flow}
    (hc : p.Covers flow) (hf : c.extractor.Extracts flow) (ha : p.Accepts flow) :
    ∃ m seq t v, p.models.get? (partitionKey flow) = some m ∧ m.score seq = .ok v ∧
      p.assess flow = .ok (.judged (partitionKey flow) t (decide (v < t)) v) := by
  obtain ⟨m, hm, hcal⟩ := hc
  obtain ⟨t, ht⟩ := m.isCalibrated_iff.mp hcal
  obtain ⟨seq, hs⟩ := FeatureExtractor.symbols_of_extracts hf
  obtain ⟨v, hv⟩ := (OneClassModel.score_isOk_iff hcal).mpr (ha m seq hm hcal hs)
  exact ⟨m, seq, t, v, hm, hv, by rw [assess_of_get? hm ht hs, hv]; rfl⟩

/-- **When a flow is assessed**: its sequence can be extracted and scored, if it is covered. -/
theorem PartitionedHmm.assess_isOk_iff {p : PartitionedHmm c} {flow : Flow} :
    (∃ a, p.assess flow = .ok a) ↔
      (p.Covers flow → c.extractor.Extracts flow) ∧ p.Accepts flow := by
  constructor
  · rintro ⟨a, ha⟩
    constructor
    · rintro ⟨m, hm, hcal⟩
      obtain ⟨t, ht⟩ := m.isCalibrated_iff.mp hcal
      rw [assess_eq_bind hm ht] at ha
      obtain ⟨seq, hs, -⟩ := exists_of_bind_eq_ok ha
      exact ⟨_, FeatureExtractor.extract_of_symbols hs⟩
    · intro m seq hm hcal hs
      obtain ⟨t, ht⟩ := m.isCalibrated_iff.mp hcal
      rw [assess_of_get? hm ht hs] at ha
      obtain ⟨v, hv, -⟩ := exists_of_map_eq_ok ha
      exact (OneClassModel.score_isOk_iff hcal).mp ⟨v, hv⟩
  · rintro ⟨hf, ha⟩
    by_cases hc : p.Covers flow
    · obtain ⟨-, -, t, v, -, -, h⟩ := assess_of_covers hc (hf hc) ha
      exact ⟨_, h⟩
    · exact ⟨_, assess_of_not_covers hc⟩

/-- **A flow is assessed by its partition and its symbols alone.** -/
theorem PartitionedHmm.assess_congr_flow (p : PartitionedHmm c) {f g : Flow}
    (hkey : partitionKey f = partitionKey g)
    (hsymbols : c.extractor.extract f = c.extractor.extract g) : p.assess f = p.assess g := by
  rw [assess, assess, hkey, FeatureExtractor.symbols_congr hsymbols]

end Assessing

/-! ### What a group is -/

/-- The loop appends the sequence of each flow under its partition. -/
theorem groupSequences_foldlM (flows : List Flow) (groups groups' : Groups c)
    (h : flows.foldlM (fun groups flow =>
      (c.extractor.symbols flow).map fun s => groups.appendAt (partitionKey flow) s) groups =
        .ok groups') :
    ∃ extracted : List (Flow × List (Fin c.nSymbols)), extracted.map Prod.fst = flows ∧
      (∀ e ∈ extracted, c.extractor.symbols e.1 = .ok e.2) ∧
      groups' = extracted.foldl (fun d e => d.appendAt (partitionKey e.1) e.2) groups := by
  induction flows generalizing groups with
  | nil =>
    obtain rfl := Except.ok.inj h
    exact ⟨[], rfl, nofun, rfl⟩
  | cons f flows ih =>
    rw [List.foldlM_cons] at h
    obtain ⟨g, hg, h⟩ := exists_of_bind_eq_ok h
    obtain ⟨s, hs, rfl⟩ := exists_of_map_eq_ok hg
    obtain ⟨extracted, rfl, hall, rfl⟩ := ih _ h
    exact ⟨(f, s) :: extracted, rfl, List.forall_mem_cons.mpr ⟨hs, hall⟩, rfl⟩

/-- **What a group is**: the sequences of the flows of a partition, in order,
whatever stands between them; and the partitions are those of the flows. -/
theorem groupSequences_spec {flows : List Flow} {groups : Groups c}
    (h : groupSequences c flows = .ok groups) (k : PartitionKey) :
    List.Forall₂ (fun f s => c.extractor.symbols f = .ok s)
        (flows.filter fun f => partitionKey f = k) (groups.getD k []) ∧
      (k ∈ groups.keys ↔ ∃ f ∈ flows, partitionKey f = k) := by
  obtain ⟨extracted, rfl, hall, hgroups⟩ := groupSequences_foldlM flows .empty groups h
  -- the groups are those of a grouping, of the pairs by the partition of the flow
  have hgroupBy : groups = Dict.groupBy (fun e => partitionKey e.1) Prod.snd extracted := hgroups
  constructor
  · rw [hgroupBy, Dict.getD_groupBy, List.filter_map, List.forall₂_map_left_iff,
      List.forall₂_map_right_iff]
    refine List.forall₂_same.mpr ?_
    intro e he
    exact hall e (List.mem_filter.mp he).1
  · rw [hgroupBy, Dict.mem_keys_groupBy]
    constructor
    · rintro ⟨e, he, hk⟩
      exact ⟨e.1, List.mem_map.mpr ⟨e, he, rfl⟩, hk⟩
    · rintro ⟨f, hf, hk⟩
      obtain ⟨e, he, rfl⟩ := List.mem_map.mp hf
      exact ⟨e, he, hk⟩

/-- A sequence of a group is that of a flow of the partition. -/
theorem exists_of_mem_group {flows : List Flow} {groups : Groups c}
    (h : groupSequences c flows = .ok groups) {k : PartitionKey} {s : List (Fin c.nSymbols)}
    (hs : s ∈ groups.getD k []) :
    ∃ f ∈ flows, partitionKey f = k ∧ c.extractor.symbols f = .ok s := by
  obtain ⟨f, hf, hfs⟩ := exists_of_mem_values (mapM_eq_ok_iff.mpr (groupSequences_spec h k).1) hs
  obtain ⟨hf, hk⟩ := List.mem_filter.mp hf
  exact ⟨f, hf, of_decide_eq_true hk, hfs⟩

/-- So it is not empty. -/
theorem ne_nil_of_mem_group {flows : List Flow} {groups : Groups c}
    (h : groupSequences c flows = .ok groups) {k : PartitionKey} {s : List (Fin c.nSymbols)}
    (hs : s ∈ groups.getD k []) : s ≠ [] := by
  obtain ⟨f, -, -, hfs⟩ := exists_of_mem_group h hs
  exact FeatureExtractor.symbols_ne_nil hfs

/-- The group of an entry. -/
theorem getD_of_mem_entries {groups : Groups c} {k : PartitionKey}
    {sequences : List (List (Fin c.nSymbols))} (h : (k, sequences) ∈ groups.entries) :
    groups.getD k [] = sequences := by
  rw [Dict.getD, Dict.mem_entries_iff.mp h, Option.getD_some]

/-! ### What the loop leaves behind -/

section Training

variable [Libraries] {valGroups : Groups c}

/-- Groups of other partitions do not touch the model of a partition. -/
theorem get?_trainLoop_of_notMem
    (groups : List (PartitionKey × List (List (Fin c.nSymbols)))) (models : Models c)
    {k : PartitionKey} (hk : k ∉ groups.map Prod.fst) :
    (trainLoop valGroups groups models).1.get? k = models.get? k := by
  induction groups generalizing models with
  | nil => rfl
  | cons g groups ih =>
    obtain ⟨key, sequences⟩ := g
    simp only [List.map_cons, List.mem_cons, not_or] at hk
    rw [trainLoop]
    split
    · split
      · rfl
      · rw [ih _ hk.2, Dict.get?_set, if_neg fun h => hk.1 h.symm]
    · exact ih _ hk.2

/-- **What the loop leaves behind** under a partition, when it returns: the model
trained on its group if the group is eligible, and what was there before
otherwise. -/
theorem trainLoop_spec {groups : List (PartitionKey × List (List (Fin c.nSymbols)))}
    {models : Models c} (hn : (groups.map Prod.fst).Nodup)
    (h : (trainLoop valGroups groups models).2 = .ok ()) {k : PartitionKey}
    {sequences : List (List (Fin c.nSymbols))} (hk : (k, sequences) ∈ groups) :
    if Eligible c valGroups k sequences then
      ∃ m, trainModel c sequences (valGroups.getD k []) = .ok m ∧
        (trainLoop valGroups groups models).1.get? k = some m
    else (trainLoop valGroups groups models).1.get? k = models.get? k := by
  induction groups generalizing models with
  | nil => exact absurd hk (by simp)
  | cons g groups ih =>
    obtain ⟨key, seqs⟩ := g
    rw [List.map_cons, List.nodup_cons] at hn
    rcases List.mem_cons.mp hk with heq | hmem
    -- the first group: no later one has its key, so its model stays
    · obtain ⟨rfl, rfl⟩ := Prod.mk.inj heq
      by_cases he : Eligible c valGroups k sequences
      · rw [if_pos he]
        simp only [trainLoop, if_pos he] at h ⊢
        cases hm : trainModel c sequences (valGroups.getD k []) with
        | error e =>
          rw [hm] at h
          cases h
        | ok m =>
          refine ⟨m, rfl, ?_⟩
          rw [get?_trainLoop_of_notMem _ _ hn.1, Dict.get?_set, if_pos rfl]
      · rw [if_neg he]
        simp only [trainLoop, if_neg he]
        exact get?_trainLoop_of_notMem _ _ hn.1
    -- a later group: the model of the first one is under another key
    · have hne : key ≠ k := by
        rintro rfl
        exact hn.1 (List.mem_map.mpr ⟨_, hmem, rfl⟩)
      by_cases he : Eligible c valGroups key seqs
      · simp only [trainLoop, if_pos he] at h ⊢
        cases hm : trainModel c seqs (valGroups.getD key []) with
        | error e =>
          rw [hm] at h
          cases h
        | ok m =>
          rw [hm] at h
          have := ih hn.2 h hmem
          rwa [Dict.get?_set, if_neg hne] at this
      · simp only [trainLoop, if_neg he] at h ⊢
        exact ih hn.2 h hmem

/-- A loop that returns has trained a model for every eligible group. -/
theorem exists_trainModel_of_trainLoop {groups : List (PartitionKey × List (List (Fin c.nSymbols)))}
    (hn : (groups.map Prod.fst).Nodup) (h : (trainLoop valGroups groups .empty).2 = .ok ())
    {k : PartitionKey} {sequences : List (List (Fin c.nSymbols))} (hk : (k, sequences) ∈ groups)
    (he : Eligible c valGroups k sequences) :
    ∃ m, trainModel c sequences (valGroups.getD k []) = .ok m := by
  have hspec := trainLoop_spec hn h hk
  rw [if_pos he] at hspec
  exact hspec.imp fun _ hm => hm.1

/-- **The models of a loop** that starts without any and returns: one for each eligible
group. -/
theorem get?_trainLoop_iff {groups : List (PartitionKey × List (List (Fin c.nSymbols)))}
    (hn : (groups.map Prod.fst).Nodup) (h : (trainLoop valGroups groups .empty).2 = .ok ())
    {k : PartitionKey} {m : OneClassModel c.nSymbols} :
    (trainLoop valGroups groups .empty).1.get? k = some m ↔
      ∃ sequences, (k, sequences) ∈ groups ∧ Eligible c valGroups k sequences ∧
        trainModel c sequences (valGroups.getD k []) = .ok m := by
  have hspec := fun sequences (hk : (k, sequences) ∈ groups) => trainLoop_spec hn h hk
  constructor
  · intro hm
    by_cases hk : k ∈ groups.map Prod.fst
    · have hgroup : ∃ sequences, (k, sequences) ∈ groups := by
        obtain ⟨⟨k', sequences⟩, hmem, rfl⟩ := List.mem_map.mp hk
        exact ⟨sequences, hmem⟩
      obtain ⟨sequences, hmem⟩ := hgroup
      have hsp := hspec sequences hmem
      by_cases he : Eligible c valGroups k sequences
      · rw [if_pos he] at hsp
        obtain ⟨m', hm', hget⟩ := hsp
        obtain rfl := Option.some.inj (hm.symm.trans hget)
        exact ⟨sequences, hmem, he, hm'⟩
      · rw [if_neg he, hm] at hsp
        exact absurd hsp nofun
    · rw [get?_trainLoop_of_notMem _ _ hk] at hm
      exact absurd hm nofun
  · rintro ⟨sequences, hmem, he, hm⟩
    have hsp := hspec sequences hmem
    rw [if_pos he] at hsp
    obtain ⟨m', hm', hget⟩ := hsp
    rw [hget, Except.ok.inj (hm.symm.trans hm')]

/-- **What the loop leaves behind when it raises**: what it leaves behind of the groups
before the one whose model raised. -/
theorem trainLoop_error {groups : List (PartitionKey × List (List (Fin c.nSymbols)))}
    {models : Models c} {e : PyError} (h : (trainLoop valGroups groups models).2 = .error e) :
    ∃ done key sequences rest, groups = done ++ (key, sequences) :: rest ∧
      Eligible c valGroups key sequences ∧
      trainModel c sequences (valGroups.getD key []) = .error e ∧
      (trainLoop valGroups done models).2 = .ok () ∧
      (trainLoop valGroups groups models).1 = (trainLoop valGroups done models).1 := by
  induction groups generalizing models with
  | nil => exact absurd h nofun
  | cons g groups ih =>
    obtain ⟨key, sequences⟩ := g
    by_cases he : Eligible c valGroups key sequences
    · cases hm : trainModel c sequences (valGroups.getD key []) with
      | error e' =>
        simp only [trainLoop, if_pos he, hm] at h ⊢
        obtain rfl := Except.error.inj h
        exact ⟨[], key, sequences, groups, rfl, he, hm, rfl, rfl⟩
      | ok m =>
        simp only [trainLoop, if_pos he, hm] at h ⊢
        obtain ⟨done, key', sequences', rest, rfl, he', hm', hok, heq⟩ := ih h
        refine ⟨(key, sequences) :: done, key', sequences', rest, rfl, he', hm', ?_, ?_⟩
        · simp only [trainLoop, if_pos he, hm]
          exact hok
        · simp only [trainLoop, if_pos he, hm]
          exact heq
    · simp only [trainLoop, if_neg he] at h ⊢
      obtain ⟨done, key', sequences', rest, rfl, he', hm', hok, heq⟩ := ih h
      refine ⟨(key, sequences) :: done, key', sequences', rest, rfl, he', hm', ?_, ?_⟩
      · simp only [trainLoop, if_neg he]
        exact hok
      · simp only [trainLoop, if_neg he]
        exact heq

/-! ### What a training can do -/

/-- The object once training has recorded the sizes of its lists, which it does first. -/
def PartitionedHmm.counted (p : PartitionedHmm c) (normalFlows validationFlows : List Flow) :
    PartitionedHmm c :=
  { p with trainCount := some normalFlows.length, valCount := some validationFlows.length }

/-- **What a training can do**: it records the sizes of its lists; then it raises over a
sequence that cannot be extracted, and leaves the models alone, or it runs the loop, from
no models on. -/
theorem PartitionedHmm.train_cases (p : PartitionedHmm c) (normal validation : List Flow) :
    (∃ e, (groupSequences c normal = .error e ∨
        (∃ groups, groupSequences c normal = .ok groups) ∧ groupSequences c validation = .error e) ∧
        p.train normal validation = (p.counted normal validation, .error e)) ∨
      ∃ trainGroups valGroups, groupSequences c normal = .ok trainGroups ∧
        groupSequences c validation = .ok valGroups ∧
        p.train normal validation =
          ({ p.counted normal validation with
            models := (trainLoop valGroups trainGroups.entries .empty).1 },
            (trainLoop valGroups trainGroups.entries .empty).2) := by
  unfold train
  dsimp only
  cases htrain : groupSequences c normal with
  | error e => exact Or.inl ⟨e, Or.inl rfl, rfl⟩
  | ok trainGroups =>
    cases hval : groupSequences c validation with
    | error e => exact Or.inl ⟨e, Or.inr ⟨⟨trainGroups, rfl⟩, rfl⟩, rfl⟩
    | ok valGroups => exact Or.inr ⟨trainGroups, valGroups, rfl, rfl, rfl⟩

end Training

end Waf
