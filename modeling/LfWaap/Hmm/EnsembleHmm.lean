import LfWaap.Hmm.NormalHmm

/-!
# Ensembles of one-class models

`waf.infrastructure.hmm.ensemble_hmm`: several models with different random restarts
are trained on the same data, and their scores are fused. An ensemble offers the same
interface as a single model, which is `Waf.OneClassModel`.
-/

namespace Waf

open Python Stats

open scoped NNReal

/-- How the scores of the members are fused. -/
inductive Combination where
  | mean
  | min
  | max
  deriving DecidableEq, Repr

/-- The mean of scores. -/
noncomputable def meanScore (scores : List EReal) : EReal :=
  scores.sum / (((scores.length : ℕ) : ℝ) : EReal)

/-- The least score. -/
noncomputable def minScore (scores : List EReal) : EReal := scores.foldr (fun a b => a ⊓ b) ⊤

/-- The greatest score. -/
noncomputable def maxScore (scores : List EReal) : EReal := scores.foldr (fun a b => a ⊔ b) ⊥

/-- Fuse the scores of the members. -/
noncomputable def Combination.fuse : Combination → List EReal → EReal
  | .mean => meanScore
  | .min => minScore
  | .max => maxScore

/-- **An ensemble**: at least one member. -/
structure EnsembleNormalHmm (K : ℕ) where
  combination : Combination := .mean
  members : List (NormalHmm K)
  threshold : Option EReal := none
  /-- The constructor refuses an empty ensemble. -/
  members_ne_nil : members ≠ []
  /-- A threshold comes from scores, and scores from the models of all members. -/
  fitted_of_calibrated : threshold.isSome → ∀ m ∈ members, m.model.isSome := by simp

namespace EnsembleNormalHmm

variable {K : ℕ}

/-- The constructor of the source: the members differ in their random state. -/
noncomputable def new (nModels : ℤ) (combination : Combination) (member : NormalHmm K) :
    Except PyError (EnsembleNormalHmm K) :=
  if h : nModels < 1 then .error (.valueError "n_models must be >= 1")
  else .ok {
    combination := combination
    members := (List.range nModels.toNat).map fun (i : ℕ) =>
      { member with randomState := member.randomState + i }
    members_ne_nil := by
      rw [ne_eq, List.map_eq_nil_iff, List.range_eq_nil]
      omega }

/-- A threshold has been set. -/
def isCalibrated (h : EnsembleNormalHmm K) : Bool := h.threshold.isSome

section Scores

variable [Libraries]

/-- Fit every member. -/
noncomputable def fit (h : EnsembleNormalHmm K) (sequences : List (List (Fin K))) :
    Except PyError (EnsembleNormalHmm K) :=
  match hm : h.members.mapM fun m => m.fit sequences with
  | .error e => .error e
  | .ok members => .ok {
      h with
      members := members
      members_ne_nil := fun hnil => h.members_ne_nil
        (List.length_eq_zero_iff.mp ((length_of_mapM hm).symm.trans (by rw [hnil]; rfl)))
      fitted_of_calibrated := fun _ m hmem => by
        obtain ⟨m', -, hfit⟩ := exists_of_mem_values hm hmem
        exact NormalHmm.isSome_model_of_fit hfit }

/-- The scores of the members. -/
noncomputable def memberScores (h : EnsembleNormalHmm K) (sequence : List (Fin K)) :
    Except PyError (List EReal) :=
  h.members.mapM fun m => m.score sequence

/-- There is a score at least, since there is a member. -/
theorem memberScores_ne_nil {h : EnsembleNormalHmm K} {sequence : List (Fin K)}
    {scores : List EReal} (hs : h.memberScores sequence = .ok scores) : scores ≠ [] := by
  rintro rfl
  exact h.members_ne_nil (List.length_eq_zero_iff.mp (length_of_mapM hs).symm)

/-- **The score of a sequence**: the fused scores of the members. -/
noncomputable def score (h : EnsembleNormalHmm K) (sequence : List (Fin K)) :
    Except PyError EReal :=
  (h.memberScores sequence).map h.combination.fuse

theorem isSome_model_of_calibrated {h : EnsembleNormalHmm K} {validation : List (List (Fin K))}
    {q : ℝ} {t : EReal} (ht : calibrated h.score validation q = .ok t) :
    ∀ m ∈ h.members, m.model.isSome := by
  obtain ⟨-, scores, hs, hne, -⟩ := of_calibrated h.score ht
  -- some sequence has been scored, by every member
  obtain ⟨v, hv⟩ := List.exists_mem_of_ne_nil scores hne
  obtain ⟨s, -, hsv⟩ := exists_of_mem_values hs hv
  obtain ⟨vs, hvs, -⟩ := exists_of_map_eq_ok hsv
  intro m hm
  obtain ⟨w, hw⟩ := exists_of_mem_of_mapM hvs hm
  exact NormalHmm.isSome_model_of_score hw

/-- Set the threshold. -/
noncomputable def calibrate (h : EnsembleNormalHmm K) (validation : List (List (Fin K)))
    (targetFpr : ℝ := 1 / 100) : Except PyError (EnsembleNormalHmm K) :=
  match ht : calibrated h.score validation targetFpr with
  | .error e => .error e
  | .ok t =>
    .ok {
      h with
      threshold := some t
      fitted_of_calibrated := fun _ => isSome_model_of_calibrated ht }

theorem calibrate_of_error {h : EnsembleNormalHmm K} {validation : List (List (Fin K))} {q : ℝ}
    {e : PyError} (he : calibrated h.score validation q = .error e) :
    h.calibrate validation q = .error e := by
  unfold calibrate
  split
  · next e' he' => exact congrArg Except.error (Except.error.inj (he'.symm.trans he))
  · next t ht => exact absurd (ht.symm.trans he) nofun

/-- A threshold that is found is set. -/
theorem calibrate_of_ok {h : EnsembleNormalHmm K} {validation : List (List (Fin K))} {q : ℝ}
    {t : EReal} (ht : calibrated h.score validation q = .ok t) :
    h.calibrate validation q = .ok {
      h with
      threshold := some t
      fitted_of_calibrated := fun _ => isSome_model_of_calibrated ht } := by
  unfold calibrate
  split
  · next e he => exact absurd (he.symm.trans ht) nofun
  · next t' ht' =>
    obtain rfl := Except.ok.inj (ht'.symm.trans ht)
    rfl

theorem exists_calibrate_of_ok {h : EnsembleNormalHmm K} {validation : List (List (Fin K))} {q : ℝ}
    {t : EReal} (ht : calibrated h.score validation q = .ok t) :
    ∃ h', h.calibrate validation q = .ok h' :=
  ⟨_, calibrate_of_ok ht⟩

/-- Calibration depends on the threshold it finds alone. -/
theorem calibrate_congr {h : EnsembleNormalHmm K} {validation validation' : List (List (Fin K))}
    {q q' : ℝ} {t : EReal} (ht : calibrated h.score validation q = .ok t)
    (ht' : calibrated h.score validation' q' = .ok t) :
    h.calibrate validation q = h.calibrate validation' q' := by
  rw [calibrate_of_ok ht, calibrate_of_ok ht']

/-- Calibration sets the threshold and changes nothing else. -/
theorem calibrate_eq_ok {h h' : EnsembleNormalHmm K} {validation : List (List (Fin K))} {q : ℝ}
    (hc : h.calibrate validation q = .ok h') :
    ∃ t, h'.threshold = some t ∧ calibrated h.score validation q = .ok t ∧ h'.score = h.score := by
  cases ht : calibrated h.score validation q with
  | error e =>
    rw [calibrate_of_error ht] at hc
    cases hc
  | ok t =>
    rw [calibrate_of_ok ht] at hc
    obtain rfl := Except.ok.inj hc
    exact ⟨t, rfl, rfl, rfl⟩

/-- Whether a sequence is anomalous, and its score. -/
noncomputable def isAnomaly (h : EnsembleNormalHmm K) (sequence : List (Fin K)) :
    Except PyError (Bool × EReal) :=
  anomalyBelow h.score "ensemble is not calibrated; call calibrate() first" h.threshold sequence

end Scores

end EnsembleNormalHmm

/-! ### The common interface -/

/-- **What a partition is modelled by**: a single model or an ensemble. -/
inductive OneClassModel (K : ℕ) where
  | single (h : NormalHmm K)
  | ensemble (h : EnsembleNormalHmm K)

namespace OneClassModel

variable {K : ℕ}

/-- A threshold has been set. -/
def isCalibrated : OneClassModel K → Bool
  | single h => h.isCalibrated
  | ensemble h => h.isCalibrated

/-- The threshold. -/
def threshold : OneClassModel K → Option EReal
  | single h => h.threshold
  | ensemble h => h.threshold

section Scores

variable [Libraries]

/-- Fit on the sequences of normal traffic. -/
noncomputable def fit (sequences : List (List (Fin K))) :
    OneClassModel K → Except PyError (OneClassModel K)
  | single h => (h.fit sequences).map single
  | ensemble h => (h.fit sequences).map ensemble

/-- The score of a sequence. -/
noncomputable def score (sequence : List (Fin K)) : OneClassModel K → Except PyError EReal
  | single h => h.score sequence
  | ensemble h => h.score sequence

/-- Set the threshold. -/
noncomputable def calibrate (validation : List (List (Fin K))) (targetFpr : ℝ) :
    OneClassModel K → Except PyError (OneClassModel K)
  | single h => (h.calibrate validation targetFpr).map single
  | ensemble h => (h.calibrate validation targetFpr).map ensemble

/-- Whether a sequence is anomalous, and its score. -/
noncomputable def isAnomaly (sequence : List (Fin K)) :
    OneClassModel K → Except PyError (Bool × EReal)
  | single h => h.isAnomaly sequence
  | ensemble h => h.isAnomaly sequence

omit [Libraries] in
theorem isCalibrated_iff (m : OneClassModel K) :
    m.isCalibrated = true ↔ ∃ t, m.threshold = some t := by
  cases m <;> exact Option.isSome_iff_exists

/-- **Calibration** sets the threshold and does not change any score. -/
theorem calibrate_eq_ok {m m' : OneClassModel K} {validation : List (List (Fin K))} {q : ℝ}
    (hc : m.calibrate validation q = .ok m') :
    ∃ t, m'.threshold = some t ∧ calibrated (fun s => m.score s) validation q = .ok t ∧
      ∀ seq, m'.score seq = m.score seq := by
  cases m with
  | single h =>
    obtain ⟨h', hc', rfl⟩ := exists_of_map_eq_ok hc
    obtain ⟨t, ht, hcal, hs⟩ := NormalHmm.calibrate_eq_ok hc'
    exact ⟨t, ht, hcal, fun seq => congrFun hs seq⟩
  | ensemble h =>
    obtain ⟨h', hc', rfl⟩ := exists_of_map_eq_ok hc
    obtain ⟨t, ht, hcal, hs⟩ := EnsembleNormalHmm.calibrate_eq_ok hc'
    exact ⟨t, ht, hcal, fun seq => congrFun hs seq⟩

theorem calibrate_of_error {m : OneClassModel K} {validation : List (List (Fin K))} {q : ℝ}
    {e : PyError} (he : calibrated (fun s => m.score s) validation q = .error e) :
    m.calibrate validation q = .error e := by
  cases m with
  | single h => exact congrArg (Except.map single) (NormalHmm.calibrate_of_error he)
  | ensemble h => exact congrArg (Except.map ensemble) (EnsembleNormalHmm.calibrate_of_error he)

/-- A threshold that is found is set. -/
theorem exists_calibrate_of_ok {m : OneClassModel K} {validation : List (List (Fin K))} {q : ℝ}
    {t : EReal} (ht : calibrated (fun s => m.score s) validation q = .ok t) :
    ∃ m', m.calibrate validation q = .ok m' := by
  cases m with
  | single h =>
    obtain ⟨h', hh'⟩ := NormalHmm.exists_calibrate_of_ok ht
    exact ⟨single h', by rw [calibrate, hh']; rfl⟩
  | ensemble h =>
    obtain ⟨h', hh'⟩ := EnsembleNormalHmm.exists_calibrate_of_ok ht
    exact ⟨ensemble h', by rw [calibrate, hh']; rfl⟩

/-- Calibration depends on the threshold it finds alone. -/
theorem calibrate_congr {m : OneClassModel K} {validation validation' : List (List (Fin K))}
    {q q' : ℝ} {t : EReal} (ht : calibrated (fun s => m.score s) validation q = .ok t)
    (ht' : calibrated (fun s => m.score s) validation' q' = .ok t) :
    m.calibrate validation q = m.calibrate validation' q' := by
  cases m with
  | single h => exact congrArg (Except.map single) (NormalHmm.calibrate_congr ht ht')
  | ensemble h => exact congrArg (Except.map ensemble) (EnsembleNormalHmm.calibrate_congr ht ht')

/-- What a calibrated model says about a sequence. -/
theorem isAnomaly_eq {m : OneClassModel K} {t : EReal} (h : m.threshold = some t)
    (seq : List (Fin K)) :
    m.isAnomaly seq = (m.score seq).map fun s => (decide (s < t), s) := by
  cases m with
  | single h₀ =>
    have ht : h₀.threshold = some t := h
    rw [isAnomaly, NormalHmm.isAnomaly, ht, anomalyBelow_some, score]
  | ensemble h₀ =>
    have ht : h₀.threshold = some t := h
    rw [isAnomaly, EnsembleNormalHmm.isAnomaly, ht, anomalyBelow_some, score]

/-- The sequence is one that hmmlearn's `score` does not raise on, for any member. -/
def Accepts (sequence : List (Fin K)) : OneClassModel K → Prop
  | single h => h.Accepts sequence
  | ensemble h => ∀ m ∈ h.members, m.Accepts sequence

/-- **When a calibrated model scores a sequence.** -/
theorem score_isOk_iff {m : OneClassModel K} (h : m.isCalibrated = true) {seq : List (Fin K)} :
    (∃ v, m.score seq = .ok v) ↔ m.Accepts seq := by
  cases m with
  | single h₀ =>
    exact NormalHmm.score_isOk_iff.trans (and_iff_right (h₀.fitted_of_calibrated h))
  | ensemble h₀ =>
    have hmember : ∀ m ∈ h₀.members, (∃ v, m.score seq = .ok v) ↔ m.Accepts seq := fun m hm =>
      NormalHmm.score_isOk_iff.trans (and_iff_right (h₀.fitted_of_calibrated h m hm))
    constructor
    · rintro ⟨v, hv⟩ m hm
      obtain ⟨vs, hvs, -⟩ := exists_of_map_eq_ok hv
      exact (hmember m hm).mp (exists_of_mem_of_mapM hvs hm)
    · intro hall
      obtain ⟨vs, hvs⟩ := exists_mapM_eq_ok (fun m => NormalHmm.score m seq) h₀.members
        fun m hm => (hmember m hm).mpr (hall m hm)
      exact ⟨h₀.combination.fuse vs, by
        rw [score, EnsembleNormalHmm.score, EnsembleNormalHmm.memberScores, hvs]
        rfl⟩

/-- The models of all members have distributions as their rows. -/
def Stochastic : OneClassModel K → Prop
  | single h => ∀ m, h.model = some m → m.Stochastic
  | ensemble h => ∀ h₀ ∈ h.members, ∀ m, h₀.model = some m → m.Stochastic

/-- Such a model scores every sequence. -/
theorem accepts_of_stochastic (hlib : Libraries.Documented) {m : OneClassModel K}
    (hm : m.Stochastic) (seq : List (Fin K)) : m.Accepts seq := by
  cases m with
  | single h => exact NormalHmm.accepts_of_stochastic hlib hm seq
  | ensemble h => exact fun h₀ hmem => NormalHmm.accepts_of_stochastic hlib (hm h₀ hmem) seq

end Scores

end OneClassModel

end Waf
