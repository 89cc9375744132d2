import LfWaap.Hmm.Runs
import LfWaap.Hmm.Smoothing

/-!
# The suspicion a detector reports

A detector reports how suspicious a request is by its score with the sign changed, cut off
at zero; the threshold does not enter. That this is positive exactly for what is blocked
rests on a chain of facts: a window is never more probable than one, so no score is
positive, whatever the windows and the fusion (`Waf.OneClassModel.Nonpositive`); a quantile
of such scores is not positive either; and what is blocked is strictly below it.

The invariant of a partitioned model is that its models are calibrated with their own scores. It
holds of every model that comes out of training, and so after any run of trainings, whether they
return or raise; where the rows of the models are distributions, no score and no threshold is
positive (`Waf.PartitionedHmm.nonpositive_trainRun`).
-/

namespace Waf

open Python Stats

open scoped NNReal

/-! ### Quantiles of numbers that are not positive -/

/-- **A quantile of numbers that are not positive** is not positive. -/
theorem npQuantile_nonpos {scores : List EReal} (h : ∀ v ∈ scores, v ≤ 0) (hne : scores ≠ [])
    {q : ℝ} (hq : 0 ≤ q) (hq1 : q ≤ 1) : npQuantile scores q ≤ 0 := by
  have hpos : 0 < scores.length := List.length_pos_iff.mpr hne
  exact (quantile_le_orderStat interpolates_lerp hpos hq hq1).trans
    (h _ (orderStat_mem (ceil_index_lt hpos hq1)))

/-! ### Scores -/

theorem log_nonpos {p : ℝ≥0} (hp : p ≤ 1) : Stats.log p ≤ 0 := by
  rw [Stats.log, ← ENNReal.log_one]
  exact ENNReal.log_monotone (by exact_mod_cast hp)

theorem div_nonpos_of_pos {x : EReal} (hx : x ≤ 0) {r : ℝ} (hr : 0 ≤ r) :
    x / (r : EReal) ≤ 0 := by
  have hle : x / (r : EReal) ≤ 0 / (r : EReal) :=
    EReal.div_le_div_right_of_nonneg (by exact_mod_cast hr) hx
  rwa [EReal.zero_div] at hle

/-- **A sequence is not more probable than one**, and neither is the mean of its
windows. -/
theorem NormalHmm.score_nonpos [Libraries] (hlib : Libraries.Documented) {K : ℕ} {h : NormalHmm K}
    (hh : ∀ m, h.model = some m → m.Stochastic) {seq : List (Fin K)} {v : EReal}
    (hv : h.score seq = .ok v) : v ≤ 0 := by
  obtain ⟨m, hm⟩ := Option.isSome_iff_exists.mp (isSome_model_of_score hv)
  have hs := hh m hm
  by_cases hne : seq = []
  · rw [score, hm] at hv
    simp only [if_pos hne] at hv
    exact (Except.ok.inj hv).ge
  · have hmean : meanProb m h.window seq ≤ 1 := by
      have hwne : (slidingWindows seq h.window).map m.seqProb ≠ [] := by
        rw [ne_eq, List.map_eq_nil_iff]
        exact slidingWindows_ne_nil seq h.window
      rw [meanProb, ← List.length_map m.seqProb]
      refine mean_le hwne fun p hp => ?_
      obtain ⟨w, -, rfl⟩ := List.mem_map.mp hp
      have hle := Hmm.seqProb_le_pow hs.start hs.trans (emissionprob_le_one hs) w
      rwa [one_pow] at hle
    have hnorm := one_le_scoreNorm h.window hne
    rw [score_eq_meanProb hlib hm hs hne] at hv
    rw [← Except.ok.inj hv]
    refine div_nonpos_of_pos (log_nonpos hmean) ?_
    have hnn : (0 : ℤ) ≤ scoreNorm h.window seq := by omega
    exact_mod_cast hnn

theorem sum_nonpos_of_forall {xs : List EReal} (h : ∀ x ∈ xs, x ≤ 0) : xs.sum ≤ 0 := by
  induction xs with
  | nil => exact le_refl _
  | cons x xs ih =>
    rw [List.sum_cons]
    exact add_nonpos (h x List.mem_cons_self) (ih fun y hy => h y (List.mem_cons_of_mem _ hy))

/-- Fusing scores that are not positive. -/
theorem fuse_nonpos (comb : Combination) {xs : List EReal} (hne : xs ≠ []) (h : ∀ x ∈ xs, x ≤ 0) :
    comb.fuse xs ≤ 0 := by
  cases comb with
  | mean => exact div_nonpos_of_pos (sum_nonpos_of_forall h) (Nat.cast_nonneg _)
  | min => exact h _ (minScore_mem hne)
  | max => exact h _ (maxScore_mem hne)

/-! ### Models -/

namespace OneClassModel

variable {K : ℕ} [Libraries]

/-- **No score is positive, and neither is the threshold.** -/
structure Nonpositive (m : OneClassModel K) : Prop where
  score : ∀ seq v, m.score seq = .ok v → v ≤ 0
  threshold : ∀ t, m.threshold = some t → t ≤ 0

theorem score_nonpos (hlib : Libraries.Documented) {m : OneClassModel K} (hm : m.Stochastic)
    {seq : List (Fin K)} {v : EReal} (hv : m.score seq = .ok v) : v ≤ 0 := by
  cases m with
  | single h => exact NormalHmm.score_nonpos hlib hm hv
  | ensemble h =>
    obtain ⟨vs, hvs, rfl⟩ := exists_of_map_eq_ok hv
    refine fuse_nonpos _ (EnsembleNormalHmm.memberScores_ne_nil hvs) fun w hw => ?_
    obtain ⟨h₀, hmem, hs⟩ := exists_of_mem_values hvs hw
    exact NormalHmm.score_nonpos hlib (hm h₀ hmem) hs

/-- The threshold is calibrated with the scores of the model itself. -/
def SelfCalibrated (m : OneClassModel K) : Prop :=
  ∀ t, m.threshold = some t → ∃ validation q, calibrated (fun s => m.score s) validation q = .ok t

/-- Such a model, if its rows are distributions. -/
theorem nonpositive_of_selfCalibrated (hlib : Libraries.Documented) {m : OneClassModel K}
    (hm : m.Stochastic) (ht : m.SelfCalibrated) : m.Nonpositive where
  score := fun _ _ hv => score_nonpos hlib hm hv
  threshold := fun t hthr => by
    obtain ⟨validation, q, hcal⟩ := ht t hthr
    obtain ⟨hq, scores, hs, hne, rfl⟩ := of_calibrated _ hcal
    refine npQuantile_nonpos (fun v hv => ?_) hne hq.1.le hq.2.le
    obtain ⟨s, -, hsv⟩ := exists_of_mem_values hs hv
    exact score_nonpos hlib hm hsv

end OneClassModel

/-! ### Trained models -/

variable [Interpreter] [Libraries] {c : HmmSettings}

/-- **A model that comes out of training.** -/
theorem selfCalibrated_of_trainModel {sequences validation : List (List (Fin c.nSymbols))}
    {m : OneClassModel c.nSymbols} (h : trainModel c sequences validation = .ok m) :
    m.SelfCalibrated := by
  intro t' ht'
  obtain ⟨t, ht, hcal⟩ := trainModel_spec h
  obtain rfl := Option.some.inj (ht.symm.trans ht')
  exact ⟨validation, c.targetFpr, hcal⟩

omit [Interpreter] in
/-- A fit that finds distributions leaves them behind, smoothed as they are. -/
theorem NormalHmm.stochastic_of_fit {K : ℕ} {h h' : NormalHmm K} {sequences : List (List (Fin K))}
    (hrows : ∀ S seed nIter (ws : List (List (Fin K))) m,
      Libraries.fit S K seed nIter ws = .ok m → m.Stochastic)
    (hf : h.fit sequences = .ok h') (m : CategoricalHmm h'.nStates K) (hm : h'.model = some m) :
    m.Stochastic := by
  obtain ⟨ws, m₀, -, hm₀, rfl⟩ := exists_smoothed_of_fit hf
  obtain rfl := Option.some.inj hm
  exact smooth_stochastic (hrows _ _ _ _ _ hm₀) _

omit [Interpreter] in
/-- Calibration keeps the models. -/
theorem OneClassModel.stochastic_of_calibrate {K : ℕ} {m m' : OneClassModel K} (hm : m.Stochastic)
    {validation : List (List (Fin K))} {q : ℝ} (hc : m.calibrate validation q = .ok m') :
    m'.Stochastic := by
  cases m with
  | single h =>
    obtain ⟨h', hc', rfl⟩ := exists_of_map_eq_ok hc
    unfold NormalHmm.calibrate at hc'
    split at hc'
    · cases hc'
    · obtain rfl := Except.ok.inj hc'
      exact hm
  | ensemble e =>
    obtain ⟨e', hc', rfl⟩ := exists_of_map_eq_ok hc
    unfold EnsembleNormalHmm.calibrate at hc'
    split at hc'
    · cases hc'
    · obtain rfl := Except.ok.inj hc'
      exact hm

/-- **Where every fit finds distributions**, the rows of a model that comes out of training are
distributions. -/
theorem stochastic_of_trainModel
    (hrows : ∀ S seed nIter (ws : List (List (Fin c.nSymbols))) m,
      Libraries.fit S c.nSymbols seed nIter ws = .ok m → m.Stochastic)
    {sequences validation : List (List (Fin c.nSymbols))} {m : OneClassModel c.nSymbols}
    (h : trainModel c sequences validation = .ok m) : m.Stochastic := by
  obtain ⟨m₀, -, h⟩ := exists_of_bind_eq_ok h
  obtain ⟨m₁, hfit, hcal⟩ := exists_of_bind_eq_ok h
  refine OneClassModel.stochastic_of_calibrate ?_ hcal
  cases m₀ with
  | single h =>
    obtain ⟨h', hf', rfl⟩ := exists_of_map_eq_ok hfit
    exact NormalHmm.stochastic_of_fit hrows hf'
  | ensemble e =>
    obtain ⟨e', hf', rfl⟩ := exists_of_map_eq_ok hfit
    intro h' hmem
    obtain ⟨h, -, hfit⟩ := exists_of_mem_values (members_of_fit hf') hmem
    exact NormalHmm.stochastic_of_fit hrows hfit

/-! ### The invariant -/

/-- No model has a positive score or threshold. -/
def PartitionedHmm.Nonpositive (p : PartitionedHmm c) : Prop :=
  ∀ k m, p.models.get? k = some m → m.Nonpositive

/-- **The invariant holds** after any run of trainings: every model is calibrated with its own
scores. If the rows of the models are distributions, nothing is positive. -/
theorem PartitionedHmm.nonpositive_trainRun (hlib : Libraries.Documented)
    (calls : List (List Flow × List Flow))
    (hs : ∀ k m, (({ } : PartitionedHmm c).trainRun calls).1.models.get? k = some m →
      m.Stochastic) :
    (({ } : PartitionedHmm c).trainRun calls).1.Nonpositive := by
  intro k m hm
  have hcal := trainRun_forall (fun _ _ _ => selfCalibrated_of_trainModel) calls k m hm
  exact OneClassModel.nonpositive_of_selfCalibrated hlib (hs k m hm) hcal

/-! ### Assessments and signals -/

/-- **What is blocked has a negative score.** -/
theorem PartitionedHmm.score_neg_of_blocked {p : PartitionedHmm c} (hp : p.Nonpositive) {f : Flow}
    {a : Assessment} (ha : p.assess f = .ok a) (hb : a.blocked = true) : a.score < 0 := by
  by_cases hcov : p.Covers f
  · obtain ⟨m, hm, hcal⟩ := hcov
    obtain ⟨t, ht⟩ := m.isCalibrated_iff.mp hcal
    rw [assess_eq_bind hm ht] at ha
    obtain ⟨seq, -, ha⟩ := exists_of_bind_eq_ok ha
    obtain ⟨s, -, rfl⟩ := exists_of_map_eq_ok ha
    have hlt : s < t := of_decide_eq_true hb
    exact lt_of_lt_of_le hlt ((hp _ m hm).threshold t ht)
  · rw [assess_of_not_covers hcov] at ha
    obtain rfl := Except.ok.inj ha
    exact absurd hb Bool.false_ne_true

/-- The signal of a detector is that of an assessment, or says that it is untrained. -/
theorem HmmDetector.inspect_cases {d : HmmDetector} {r : HttpRequest} {s : DetectionSignal}
    (h : d.inspect r = .ok s) :
    s = untrainedSignal ∨ ∃ f a, httpRequestToFlow r = .ok f ∧ d.assessFlow f = .ok a ∧
      s = signalOf a := by
  unfold inspect at h
  split at h
  · obtain ⟨f, hf, h⟩ := exists_of_bind_eq_ok h
    obtain ⟨a, ha, h⟩ := exists_of_bind_eq_ok h
    exact Or.inr ⟨f, a, hf, ha, (Except.ok.inj h).symm⟩
  · exact Or.inl (Except.ok.inj h).symm

omit [Interpreter] [Libraries] in
/-- The suspicion of what is blocked is its score with the sign changed. -/
theorem HmmDetector.signalOf_score {a : Assessment} (hb : a.blocked = true) (hs : a.score < 0) :
    (signalOf a).score = -a.score := by
  have hpos : 0 ≤ -a.score := EReal.neg_nonneg.mpr hs.le
  rw [signalOf, hb]
  exact max_eq_right hpos

/-- Something is blocked by trained detectors only, and is reported as such. -/
theorem HmmDetector.inspect_of_blocked {d : HmmDetector} {r : HttpRequest} {f : Flow}
    {a : Assessment} (hf : httpRequestToFlow r = .ok f) (ha : d.assessFlow f = .ok a)
    (hb : a.blocked = true) : d.inspect r = .ok (signalOf a) := by
  have hcov : d.partitioned.Covers f := by
    by_contra hn
    rw [assessFlow, PartitionedHmm.assess_of_not_covers hn] at ha
    obtain rfl := Except.ok.inj ha
    exact Bool.false_ne_true hb
  obtain ⟨m, hm, hcal⟩ := hcov
  have ht : d.isTrained = true := List.any_eq_true.mpr ⟨_, Dict.mem_entries_iff.mpr hm, hcal⟩
  rw [inspect, if_pos ht, hf]
  show (d.assessFlow f >>= _) = _
  rw [ha]
  rfl

/-- Where every fit finds distributions, they are the rows of all models after any run of
trainings. -/
theorem HmmDetector.stochastic_of_trainRun
    (hrows : ∀ S seed nIter (ws : List (List (Fin c.nSymbols))) m,
      Libraries.fit S c.nSymbols seed nIter ws = .ok m → m.Stochastic)
    (calls : List (List Flow × List Flow)) :
    ∀ k m, ((HmmDetector.mk c { }).trainRun calls).1.partitioned.models.get? k = some m →
      m.Stochastic := by
  rw [trainRun_eq]
  exact PartitionedHmm.trainRun_forall (fun _ _ _ => stochastic_of_trainModel hrows) calls

/-- **The suspicion agrees with the decision.** After any run of trainings, whatever the
settings and however the calls ended, if the rows of the models are distributions: the signal of
a request has the suspicion zero if it does not block, and a positive one if it does; no threshold
is positive; and of two requests that are blocked, the one with the lower score is the more
suspicious. -/
theorem HmmDetector.suspicion_of_trainRun (hlib : Libraries.Documented) (c : HmmSettings)
    (calls : List (List Flow × List Flow))
    (hs : ∀ k m, ((HmmDetector.mk c { }).trainRun calls).1.partitioned.models.get? k = some m →
      m.Stochastic) :
    let d := ((HmmDetector.mk c { }).trainRun calls).1
    (∀ r s, d.inspect r = .ok s →
      (s.blocked = false → s.score = 0) ∧ (s.blocked = true → 0 < s.score)) ∧
    (∀ key t, d.partitioned.threshold? key = some t → t ≤ 0) ∧
    ∀ r r' f f' a a', httpRequestToFlow r = .ok f → httpRequestToFlow r' = .ok f' →
      d.assessFlow f = .ok a → d.assessFlow f' = .ok a' → a.blocked = true → a'.blocked = true →
      a.score < a'.score →
      ∃ s s', d.inspect r = .ok s ∧ d.inspect r' = .ok s' ∧ s'.score < s.score := by
  rw [trainRun_eq] at hs ⊢
  have hp := PartitionedHmm.nonpositive_trainRun hlib calls hs
  intro d
  refine ⟨fun r s hs => ?_, fun key t ht => ?_, ?_⟩
  · rcases inspect_cases hs with rfl | ⟨f, a, -, ha, rfl⟩
    · exact ⟨fun _ => rfl, fun hb => absurd hb Bool.false_ne_true⟩
    · constructor
      · intro hb
        have hb' : a.blocked = false := hb
        rw [signalOf, hb']
        rfl
      · intro hb
        have hneg := PartitionedHmm.score_neg_of_blocked hp ha hb
        rw [signalOf_score hb hneg]
        exact EReal.neg_pos.mpr hneg
  · obtain ⟨m, hm, ht⟩ := Option.bind_eq_some_iff.mp ht
    exact (hp key m hm).threshold t ht
  · intro r r' f f' a a' hf hf' ha ha' hb hb' hlt
    refine ⟨_, _, inspect_of_blocked hf ha hb, inspect_of_blocked hf' ha' hb', ?_⟩
    rw [signalOf_score hb (PartitionedHmm.score_neg_of_blocked hp ha hb),
      signalOf_score hb' (PartitionedHmm.score_neg_of_blocked hp ha' hb')]
    exact EReal.neg_lt_neg_iff.mpr hlt

omit [Interpreter] [Libraries] in
/-- A detector that is trained twice, the second time on three bytes: what it says about a
request. -/
theorem HmmDetector.suspicion_of_trainRun_twice :
    let _ : Interpreter := .ascii
    let _ : Libraries := .memoryless
    let c : HmmSettings :=
      { extractor := byteClassExtractor, nStates := 1, minTrain := 1, targetFpr := 1 / 2 }
    let flow := fun payload : List Byte => Flow.new (text "http") 80 .inbound payload
    let validation := [flow [71], flow [49], flow [32]]
    let d := ((HmmDetector.mk c { }).trainRun
      [([flow [71, 71]], [flow [71]]), ([flow [71, 71, 49]], validation)]).1
    let r := HttpRequest.new (text "GET") (text "/")
    d.isTrained = true ∧ (∃ s, d.inspect r = .ok s ∧
      (s.blocked = false → s.score = 0) ∧ (s.blocked = true → 0 < s.score)) ∧
      ∃ t, d.partitioned.threshold? (partitionKey (flow [71])) = some t ∧ t ≤ 0 := by
  intro _ _ c flow validation d r
  have hlib := Libraries.documented_memoryless
  let calls := [([flow [71, 71]], [flow [71]]), ([flow [71, 71, 49]], validation)]
  have hrows : ∀ S seed nIter (ws : List (List (Fin c.nSymbols))) m,
      Libraries.fit S c.nSymbols seed nIter ws = .ok m → m.Stochastic := by
    intro S seed nIter ws m hm
    by_cases h : S ≠ 0 ∧ ws.flatten ≠ []
    · exact Except.ok.inj ((if_pos h).symm.trans hm) ▸ CategoricalHmm.memoryless_stochastic h.1 h.2
    · cases (if_neg h).symm.trans hm
  have hs := stochastic_of_trainRun (c := c) hrows calls
  obtain ⟨hsignal, hthreshold, -⟩ := suspicion_of_trainRun hlib c calls hs
  -- the second training returns, and leaves a model behind
  have hsym : ∀ b, c.extractor.symbols (flow [b]) = .ok [⟨byteClass b, byteClass_lt b⟩] :=
    fun _ => rfl
  have hkey : ∀ g ∈ validation, partitionKey g = partitionKey (flow [71, 71, 49]) := by
    simp only [validation, List.forall_mem_cons]
    exact ⟨rfl, rfl, rfl, List.forall_mem_nil _⟩
  obtain ⟨p, v, hp, -, -, ht, -⟩ := PartitionedHmm.assess_memoryless
    ((({ } : PartitionedHmm c).train [flow [71, 71]] [flow [71]]).1) (f := flow [71, 71, 49]) rfl
    le_rfl one_ne_zero rfl le_rfl rfl half_rate (.cons (hsym 71) (.cons (hsym 49) (.cons (hsym 32) .nil)))
    hkey (List.cons_ne_nil _ _)
  have hd : d = ⟨c, p⟩ := by
    change ((HmmDetector.mk c { }).trainRun calls).1 = _
    rw [trainRun_eq]
    exact congrArg (HmmDetector.mk c) (congrArg Prod.fst hp)
  have htrained : d.isTrained = true := by
    rw [hd]
    exact (PartitionedHmm.isTrained_train_iff hp).mpr ⟨partitionKey (flow [71]), by decide⟩
  have hser : r.Serialisable :=
    ⟨fun _ h => absurd h nofun, by decide, by decide, by decide, by decide, nofun⟩
  obtain ⟨s, hsig⟩ := (inspect_isOk_iff htrained).mpr ⟨hser, accepts_of_stochastic hlib hs r⟩
  have hthr := (congrArg (fun d : HmmDetector =>
    d.partitioned.threshold? (partitionKey (flow [71]))) hd).trans ht
  exact ⟨htrained, ⟨s, hsig, hsignal r s hsig⟩, _, hthr, hthreshold _ _ hthr⟩

end Waf
