import LfWaap.Python.Loops
import LfWaap.Stats.HiddenMarkov
import LfWaap.Stats.Quantile

/-!
# One-class hidden Markov models

`waf.infrastructure.hmm.normal_hmm`: a model is fitted on the symbol sequences of
normal traffic, a sequence is scored by its log-likelihood per symbol, and a
threshold is calibrated on held-out normal traffic.

Numbers are exact: probabilities are nonnegative reals, logarithms are extended
reals with `log 0 = -∞`, and `numpy.quantile` interpolates linearly. What the two
libraries underneath compute is not in the repository. `Waf.Libraries` collects it, and
`Waf.Libraries.Documented` the documented facts about it: a score is a log-likelihood, and
hmmlearn raises instead of scoring unless the rows of the model are distributions; a random
choice without replacement yields as many valid indices as asked for. Nothing is known about
the rows of a fitted model: hmmlearn leaves a row of zeros to a state it never saw left, so that
fitting sequences of one symbol yields a model it then refuses to score with.

An instance of `Waf.NormalHmm` has a threshold only if it has a model, since a
threshold comes from scores; this is a field, so that no proof about calibrated
models has to mention it. `fit` and `calibrate` return the changed object; where
they raise, nothing of it was changed.
-/

namespace Waf

open Python Stats

open scoped NNReal

/-! ### The libraries underneath -/

/-- The parameters of a `CategoricalHMM` with `S` states and `K` symbols. -/
abbrev CategoricalHmm (S K : ℕ) : Type := Hmm (Fin S) (Fin K) ℝ≥0

/-- The rows of a model are distributions. -/
structure CategoricalHmm.Stochastic {S K : ℕ} (m : CategoricalHmm S K) : Prop where
  start : ∑ s, m.startprob s = 1
  trans : ∀ i, ∑ s, m.transmat i s = 1
  emit : ∀ s, ∑ x, m.emissionprob s x = 1

/-- **What hmmlearn and numpy supply**, as functions of their arguments. -/
class Libraries where
  /-- `CategoricalHMM(n_components, n_features, random_state, n_iter).fit`, on the
  sequences that the concatenation and its lengths describe. -/
  fit : (nComponents nFeatures : ℕ) → (randomState nIter : ℤ) → List (List (Fin nFeatures)) →
    Except PyError (CategoricalHmm nComponents nFeatures)
  /-- `CategoricalHMM.score`, of one sequence. -/
  score : {nComponents nFeatures : ℕ} → CategoricalHmm nComponents nFeatures →
    List (Fin nFeatures) → Except PyError EReal
  /-- `default_rng(seed).choice(n, size, replace=False)`. -/
  choice : (seed : ℤ) → (n : ℕ) → (size : ℤ) → Except PyError (List ℕ)

/-- **What is documented about them.** -/
structure Libraries.Documented [Libraries] : Prop where
  /-- A score is the log-likelihood of the sequence. -/
  score_eq : ∀ {S K : ℕ} {m : CategoricalHmm S K} {seq v},
    Libraries.score m seq = .ok v → v = log (m.seqProb seq)
  /-- The model is checked first: its rows have to be distributions. -/
  score_isOk_iff : ∀ {S K : ℕ} {m : CategoricalHmm S K} {seq}, seq ≠ [] →
    ((∃ v, Libraries.score m seq = .ok v) ↔ m.Stochastic)
  /-- As many indices as asked for. -/
  length_choice : ∀ {seed n size is},
    Libraries.choice seed n size = .ok is → (is.length : ℤ) = size
  /-- The indices are valid. -/
  choice_lt : ∀ {seed n size is}, Libraries.choice seed n size = .ok is → ∀ i ∈ is, i < n

/-- The score under a model whose rows are distributions. -/
theorem Libraries.Documented.score_of_stochastic [Libraries] (hlib : Libraries.Documented)
    {S K : ℕ} {m : CategoricalHmm S K} (hm : m.Stochastic) {seq : List (Fin K)} (hne : seq ≠ []) :
    Libraries.score m seq = .ok (log (m.seqProb seq)) := by
  obtain ⟨v, hv⟩ := (hlib.score_isOk_iff hne).mpr hm
  rw [hv, hlib.score_eq hv]

theorem sum_inv_card {n : ℕ} (hn : n ≠ 0) : ∑ _ : Fin n, (n : ℝ≥0)⁻¹ = 1 := by
  rw [Finset.sum_const, Finset.card_fin, nsmul_eq_mul]
  exact mul_inv_cancel₀ (Nat.cast_ne_zero.mpr hn)

/-- A model whose states are all alike, emitting every symbol with the same
probability. -/
noncomputable def CategoricalHmm.uniform (S K : ℕ) : CategoricalHmm S K where
  startprob := fun _ => (S : ℝ≥0)⁻¹
  transmat := fun _ _ => (S : ℝ≥0)⁻¹
  emissionprob := fun _ _ => (K : ℝ≥0)⁻¹

theorem CategoricalHmm.uniform_stochastic {S K : ℕ} (hS : S ≠ 0) (hK : K ≠ 0) :
    (uniform S K).Stochastic :=
  ⟨sum_inv_card hS, fun _ => sum_inv_card hS, fun _ => sum_inv_card hK⟩

/-- A model without memory: its states are all alike, and emit a symbol as often as it occurs
in the sequences. -/
noncomputable def CategoricalHmm.memoryless {K : ℕ} (S : ℕ) (ws : List (List (Fin K))) :
    CategoricalHmm S K where
  startprob := fun _ => (S : ℝ≥0)⁻¹
  transmat := fun _ _ => (S : ℝ≥0)⁻¹
  emissionprob := fun _ x => (ws.flatten.count x : ℝ≥0) / ws.flatten.length

theorem CategoricalHmm.memoryless_stochastic {S K : ℕ} (hS : S ≠ 0) {ws : List (List (Fin K))}
    (hws : ws.flatten ≠ []) : (memoryless S ws).Stochastic := by
  refine ⟨sum_inv_card hS, fun _ => sum_inv_card hS, fun _ => ?_⟩
  have hcount : ∑ x, ws.flatten.count x = ws.flatten.length := by
    have h := Multiset.sum_count_eq_card (s := Finset.univ) (m := (ws.flatten : Multiset (Fin K)))
      fun x _ => Finset.mem_univ x
    simpa only [Multiset.coe_count, Multiset.coe_card] using h
  change ∑ x, (ws.flatten.count x : ℝ≥0) / ws.flatten.length = 1
  rw [← Finset.sum_div, ← Nat.cast_sum, hcount]
  exact div_self (Nat.cast_ne_zero.mpr (List.length_eq_zero_iff.not.mpr hws))

open Classical in
/-- Libraries for small examples: a fit returns the model without memory, a score is a
log-likelihood, and a choice returns the first indices. With one state, and where a transition
is observed, hmmlearn fits the same model; with more states it starts at random parameters, and
in general ends at another one. -/
@[reducible] noncomputable def Libraries.memoryless : Libraries where
  fit := fun S _ _ _ ws =>
    if S ≠ 0 ∧ ws.flatten ≠ [] then .ok (CategoricalHmm.memoryless S ws)
    else .error (.valueError "need at least one array to concatenate")
  score := fun m seq =>
    if m.Stochastic then .ok (log (m.seqProb seq))
    else .error (.valueError "rows must sum to 1")
  choice := fun _ n size =>
    if 0 ≤ size ∧ size ≤ n then .ok (List.range size.toNat)
    else .error (.valueError "Cannot take a larger sample than population when replace is False")

theorem Libraries.documented_memoryless : @Documented Libraries.memoryless := by
  let _ : Libraries := .memoryless
  refine ⟨fun {_ _ m _ v} h => ?_, fun {_ _ m _} _ => ⟨?_, fun hm => ⟨_, if_pos hm⟩⟩,
    fun {_ n size is} h => ?_, fun {_ n size is} h i hi => ?_⟩
  · by_cases hm : m.Stochastic
    · exact (Except.ok.inj ((if_pos hm).symm.trans h)).symm
    · cases (if_neg hm).symm.trans h
  · rintro ⟨v, h⟩
    by_contra hm
    cases (if_neg hm).symm.trans h
  · have h' : (if 0 ≤ size ∧ size ≤ n then Except.ok (List.range size.toNat) else _) = .ok is := h
    split at h'
    · next hle =>
      obtain rfl := Except.ok.inj h'
      rw [List.length_range, Int.toNat_of_nonneg hle.1]
    · cases h'
  · have h' : (if 0 ≤ size ∧ size ≤ n then Except.ok (List.range size.toNat) else _) = .ok is := h
    split at h'
    · next hle =>
      obtain rfl := Except.ok.inj h'
      rw [List.mem_range] at hi
      omega
    · cases h'

/-- The same model, but no state is ever left: what hmmlearn fits where it observes no
transition. -/
noncomputable def CategoricalHmm.still {S K : ℕ} (m : CategoricalHmm S K) : CategoricalHmm S K :=
  { m with transmat := 0 }

/-- The rows of such a model are no distributions. -/
theorem CategoricalHmm.not_stochastic_of_transmat {S K : ℕ} (hS : S ≠ 0) {m : CategoricalHmm S K}
    (h : m.transmat = 0) : ¬m.Stochastic := by
  intro hm
  have hrow := hm.trans ⟨0, Nat.pos_of_ne_zero hS⟩
  rw [h] at hrow
  simp at hrow

open Classical in
/-- Libraries that look for transitions. With one state, hmmlearn fits the same models, and raises
the same. -/
@[reducible] noncomputable def Libraries.observing : Libraries where
  fit := fun S _ _ _ ws =>
    if S ≠ 0 ∧ ws.flatten ≠ [] then
      if ∃ w ∈ ws, 2 ≤ w.length then .ok (CategoricalHmm.memoryless S ws)
      else .ok (CategoricalHmm.memoryless S ws).still
    else .error (.valueError "need at least one array to concatenate")
  score := fun m seq =>
    if m.Stochastic then .ok (log (m.seqProb seq))
    else .error (.valueError "transmat_ rows must sum to 1 (got row sums of [0.])")
  choice := Libraries.memoryless.choice

theorem Libraries.documented_observing : @Documented Libraries.observing := by
  let _ : Libraries := .observing
  refine ⟨fun {_ _ m _ v} h => ?_, fun {_ _ m _} _ => ⟨?_, fun hm => ⟨_, if_pos hm⟩⟩,
    fun {seed _ _ _} h => @Documented.length_choice .memoryless documented_memoryless seed _ _ _ h,
    fun {seed _ _ _} h => @Documented.choice_lt .memoryless documented_memoryless seed _ _ _ h⟩
  · by_cases hm : m.Stochastic
    · exact (Except.ok.inj ((if_pos hm).symm.trans h)).symm
    · cases (if_neg hm).symm.trans h
  · rintro ⟨v, h⟩
    by_contra hm
    cases (if_neg hm).symm.trans h

/-- The value a fraction `t` of the way from `a` to `b`. From `-∞` on it is `-∞`, where the
arithmetic of numpy may also say `nan`: no score is below either. -/
noncomputable def lerp (a b : EReal) (t : ℝ) : EReal := a + (b - a) * t

/-- `numpy.quantile(scores, q)`. -/
noncomputable def npQuantile (scores : List EReal) (q : ℝ) : EReal := quantile lerp scores q

/-! ### Windows -/

/-- All subsequences of length `window`, sliding one symbol at a time; the whole
sequence where there is no window or where it is not longer than one. -/
def slidingWindows {α : Type} (sequence : List α) (window : ℤ) : List (List α) :=
  if window ≤ 0 ∨ (sequence.length : ℤ) ≤ window then [sequence]
  else (List.range (sequence.length - window.toNat + 1)).map fun i =>
    (sequence.drop i).take window.toNat

/-- There is a window at least. -/
theorem slidingWindows_ne_nil {α : Type} (sequence : List α) (window : ℤ) :
    slidingWindows sequence window ≠ [] := by
  unfold slidingWindows
  split
  · exact List.cons_ne_nil _ _
  · rw [ne_eq, List.map_eq_nil_iff, List.range_eq_nil]
    omega

/-! ### Shared by single models and ensembles -/

section

variable {K : ℕ} (score : List (Fin K) → Except PyError EReal)

/-- The threshold below which a fraction `targetFpr` of the validation sequences
lies. -/
noncomputable def calibrated (validation : List (List (Fin K))) (targetFpr : ℝ) :
    Except PyError EReal :=
  if 0 < targetFpr ∧ targetFpr < 1 then do
    let scores ← (validation.filter fun s => 0 < s.length).mapM score
    if scores = [] then .error (.valueError "calibration requires non-empty validation sequences")
    else .ok (npQuantile scores targetFpr)
  else .error (.valueError "target_fpr must be in (0, 1)")

/-- Whether a sequence scores below a threshold, and its score. -/
noncomputable def anomalyBelow (message : String) (threshold : Option EReal)
    (sequence : List (Fin K)) : Except PyError (Bool × EReal) :=
  match threshold with
  | none => .error (.custom "NotCalibratedError" message)
  | some t => (score sequence).map fun s => (decide (s < t), s)

theorem anomalyBelow_some (message : String) (t : EReal) (seq : List (Fin K)) :
    anomalyBelow score message (some t) seq = (score seq).map fun s => (decide (s < t), s) := rfl

/-- The order of the validation sequences does not matter. -/
theorem calibrated_perm {validation validation' : List (List (Fin K))}
    (h : validation.Perm validation') {q : ℝ} {t : EReal}
    (ht : calibrated score validation q = .ok t) : calibrated score validation' q = .ok t := by
  unfold calibrated at ht ⊢
  split at ht
  · next hq =>
    obtain ⟨scores, hs, ht⟩ := exists_of_bind_eq_ok ht
    obtain ⟨scores', hs', hperm⟩ := mapM_perm (h.filter _) hs
    rw [if_pos hq, hs', ok_bind]
    split at ht
    · exact absurd ht nofun
    · next hne =>
      have hne' : scores' ≠ [] := fun hnil => hne (hnil ▸ hperm).eq_nil
      rw [if_neg hne', npQuantile, ← quantile_congr lerp hperm q]
      exact ht
  · exact absurd ht nofun

/-- What a threshold is: the quantile of the scores of a non-empty sample. -/
theorem of_calibrated {validation : List (List (Fin K))} {q : ℝ} {t : EReal}
    (h : calibrated score validation q = .ok t) :
    (0 < q ∧ q < 1) ∧ ∃ scores, (validation.filter fun s => 0 < s.length).mapM score = .ok scores ∧
      scores ≠ [] ∧ t = npQuantile scores q := by
  unfold calibrated at h
  split at h
  · next hq =>
    obtain ⟨scores, hs, h⟩ := exists_of_bind_eq_ok h
    split at h
    · exact absurd h nofun
    · next hne => exact ⟨hq, scores, hs, hne, (Except.ok.inj h).symm⟩
  · exact absurd h nofun

end

/-! ### A single model -/

/-- **A one-class model.** -/
structure NormalHmm (K : ℕ) where
  nStates : ℕ := 8
  window : ℤ := 0
  maxFitWindows : Option ℤ := none
  smoothing : ℝ≥0 := 1 / 1000
  nIter : ℤ := 100
  randomState : ℤ := 42
  model : Option (CategoricalHmm nStates K) := none
  threshold : Option EReal := none
  /-- A threshold comes from scores, and scores from a model. -/
  fitted_of_calibrated : threshold.isSome → model.isSome := by simp

namespace NormalHmm

variable {K : ℕ}

/-- A threshold has been set. -/
def isCalibrated (h : NormalHmm K) : Bool := h.threshold.isSome

/-- The training windows: those of every non-empty sequence, sampled down where
there are more than a cap. -/
def fitWindows [Libraries] (h : NormalHmm K) (sequences : List (List (Fin K))) :
    Except PyError (List (List (Fin K))) :=
  let seqs := sequences.filter fun s => 0 < s.length
  if seqs = [] then .error (.valueError "fit requires at least one non-empty sequence")
  else
    let windows := seqs.flatMap fun s => slidingWindows s h.window
    match h.maxFitWindows with
    | none => .ok windows
    | some cap =>
      -- a cap of zero counts as none
      if cap ≠ 0 ∧ cap < windows.length then
        (Libraries.choice h.randomState windows.length cap).map fun picked =>
          picked.map fun i => windows.getD i []
      else .ok windows

/-- Laplace smoothing of the emissions: symbols unseen in training keep a positive
probability. A row of zeros that is not smoothed stays one; numpy has `nan` there. -/
noncomputable def smooth {S : ℕ} (smoothing : ℝ≥0) (m : CategoricalHmm S K) :
    CategoricalHmm S K where
  startprob := m.startprob
  transmat := m.transmat
  emissionprob := fun s x =>
    (m.emissionprob s x + smoothing) / ∑ y, (m.emissionprob s y + smoothing)

/-- Fit the model on the sequences of normal traffic. -/
noncomputable def fit [Libraries] (h : NormalHmm K) (sequences : List (List (Fin K))) :
    Except PyError (NormalHmm K) := do
  let windows ← h.fitWindows sequences
  let model ← Libraries.fit h.nStates K h.randomState h.nIter windows
  return { h with model := some (smooth h.smoothing model), fitted_of_calibrated := by simp }

theorem isSome_model_of_fit [Libraries] {h h' : NormalHmm K} {sequences : List (List (Fin K))}
    (hf : h.fit sequences = .ok h') : h'.model.isSome := by
  obtain ⟨ws, -, hf⟩ := exists_of_bind_eq_ok hf
  obtain ⟨m, -, hf⟩ := exists_of_bind_eq_ok hf
  rw [← Except.ok.inj hf]
  rfl

/-- The emission log-probabilities of every position. -/
noncomputable def emitPos {S : ℕ} (model : CategoricalHmm S K) (seq : List (Fin K)) :
    List (Fin S → EReal) :=
  seq.map fun x s => log (model.emissionprob s x)

/-- One step of all windows at once: transition, then emission at position `t` of
each window. `alpha` holds one vector a window, the forward log-probabilities of its
states. -/
noncomputable def windowStep {S : ℕ} (model : CategoricalHmm S K) (seq : List (Fin K))
    (nWindows : ℕ) (alpha : List (Fin S → EReal)) (t : ℕ) : List (Fin S → EReal) :=
  List.zipWith (fun a emit s => logsumexp (fun i => a i + log (model.transmat i s)) + emit s)
    alpha (((emitPos model seq).drop t).take nWindows)

/-- The log-likelihoods of all windows of a sequence, computed for all windows at
once. -/
noncomputable def windowLogliks {S : ℕ} (model : CategoricalHmm S K) (window : ℕ)
    (seq : List (Fin K)) : List EReal :=
  let nWindows := seq.length - window + 1
  let alpha := ((emitPos model seq).take nWindows).map fun emit s =>
    log (model.startprob s) + emit s
  let alpha := (List.range' 1 (window - 1)).foldl (windowStep model seq nWindows) alpha
  alpha.map logsumexp

/-- **The score of a sequence**: its log-likelihood per symbol, or with windows the
logarithm of the mean window probability, per symbol of a window. -/
noncomputable def score [Libraries] (h : NormalHmm K) (sequence : List (Fin K)) :
    Except PyError EReal :=
  match h.model with
  | none => .error (.custom "NotCalibratedError" "model is not fitted")
  | some model =>
    if sequence = [] then .ok 0
    else if 0 < h.window ∧ h.window < sequence.length then
      let logliks := windowLogliks model h.window.toNat sequence
      let meanLogprob := logsumexpList logliks - log (logliks.length : ℝ≥0)
      .ok (meanLogprob / ((h.window : ℝ) : EReal))
    else
      let norm : ℤ := if 0 < h.window then h.window else sequence.length
      (Libraries.score model sequence).map fun loglik =>
        loglik / (((max norm 1 : ℤ) : ℝ) : EReal)

section Scores

variable [Libraries]

/-- Scores need a model. -/
theorem isSome_model_of_score {h : NormalHmm K} {seq : List (Fin K)} {v : EReal}
    (hs : h.score seq = .ok v) : h.model.isSome := by
  unfold score at hs
  split at hs
  · exact absurd hs nofun
  · next m hm => rw [hm]; rfl

/-- Without windows the score is hmmlearn's, per symbol. -/
theorem score_of_window_nonpos {h : NormalHmm K} {m : CategoricalHmm h.nStates K}
    (hm : h.model = some m) (hw : h.window ≤ 0) {seq : List (Fin K)} (hne : seq ≠ []) :
    h.score seq = (Libraries.score m seq).map fun loglik =>
      loglik / (((seq.length : ℕ) : ℝ) : EReal) := by
  have hwin : ¬(0 < h.window ∧ h.window < seq.length) := fun h => by omega
  have hlen : max (seq.length : ℤ) 1 = seq.length := by
    have := List.length_pos_iff.mpr hne
    omega
  rw [score, hm]
  simp only [if_neg hne, if_neg hwin, if_neg (not_lt.mpr hw), hlen, Int.cast_natCast]

/-- What hmmlearn raises over a sequence without windows. -/
theorem score_of_error {h : NormalHmm K} {m : CategoricalHmm h.nStates K} (hm : h.model = some m)
    {seq : List (Fin K)} (hne : seq ≠ []) (hwin : ¬(0 < h.window ∧ h.window < seq.length))
    {e : PyError} (he : Libraries.score m seq = .error e) : h.score seq = .error e := by
  rw [score, hm]
  simp only [if_neg hne, if_neg hwin, he]
  rfl

/-- **The sequence is one that hmmlearn's `score` does not raise on**, where it is asked: a
sequence that has windows is scored without it. -/
def Accepts (h : NormalHmm K) (sequence : List (Fin K)) : Prop :=
  ∀ model, h.model = some model → sequence ≠ [] → ¬(0 < h.window ∧ h.window < sequence.length) →
    ∃ loglik, Libraries.score model sequence = .ok loglik

/-- **When a score is returned.** -/
theorem score_isOk_iff {h : NormalHmm K} {seq : List (Fin K)} :
    (∃ v, h.score seq = .ok v) ↔ h.model.isSome ∧ h.Accepts seq := by
  rw [score, Accepts]
  cases h.model with
  | none => exact iff_of_false not_exists_error_eq_ok fun hm => absurd hm.1 Bool.false_ne_true
  | some model =>
    dsimp only
    by_cases hseq : seq = []
    · rw [if_pos hseq]
      exact iff_of_true ⟨_, rfl⟩ ⟨rfl, fun _ _ hne => absurd hseq hne⟩
    · rw [if_neg hseq]
      by_cases hwindow : 0 < h.window ∧ h.window < seq.length
      · rw [if_pos hwindow]
        exact iff_of_true ⟨_, rfl⟩ ⟨rfl, fun _ _ _ hn => absurd hwindow hn⟩
      · rw [if_neg hwindow]
        constructor
        · rintro ⟨v, hv⟩
          obtain ⟨loglik, hll, -⟩ := exists_of_map_eq_ok hv
          exact ⟨rfl, fun model' hm _ _ => ⟨loglik, Option.some.inj hm ▸ hll⟩⟩
        · rintro ⟨-, h⟩
          obtain ⟨loglik, hll⟩ := h model rfl hseq hwindow
          exact ⟨_, by rw [hll]; rfl⟩

/-- A model whose rows are distributions scores every sequence. -/
theorem accepts_of_stochastic (hlib : Libraries.Documented) {h : NormalHmm K}
    (hs : ∀ m, h.model = some m → m.Stochastic) (seq : List (Fin K)) : h.Accepts seq :=
  fun m hm hne _ => (hlib.score_isOk_iff hne).mpr (hs m hm)

theorem isSome_model_of_calibrated {h : NormalHmm K} {validation : List (List (Fin K))} {q : ℝ}
    {t : EReal} (ht : calibrated h.score validation q = .ok t) : h.model.isSome := by
  obtain ⟨-, scores, hs, hne, -⟩ := of_calibrated h.score ht
  obtain ⟨v, hv⟩ := List.exists_mem_of_ne_nil scores hne
  obtain ⟨s, -, hsv⟩ := exists_of_mem_values hs hv
  exact isSome_model_of_score hsv

/-- Set the threshold. -/
noncomputable def calibrate (h : NormalHmm K) (validation : List (List (Fin K)))
    (targetFpr : ℝ := 1 / 100) : Except PyError (NormalHmm K) :=
  match ht : calibrated h.score validation targetFpr with
  | .error e => .error e
  | .ok t =>
    .ok {
      h with
      threshold := some t
      fitted_of_calibrated := fun _ => isSome_model_of_calibrated ht }

theorem calibrate_of_error {h : NormalHmm K} {validation : List (List (Fin K))} {q : ℝ}
    {e : PyError} (he : calibrated h.score validation q = .error e) :
    h.calibrate validation q = .error e := by
  unfold calibrate
  split
  · next e' he' => exact congrArg Except.error (Except.error.inj (he'.symm.trans he))
  · next t ht => exact absurd (ht.symm.trans he) nofun

/-- A threshold that is found is set. -/
theorem calibrate_of_ok {h : NormalHmm K} {validation : List (List (Fin K))} {q : ℝ}
    {t : EReal} (ht : calibrated h.score validation q = .ok t) :
    h.calibrate validation q = .ok {
      h with
      threshold := some t
      fitted_of_calibrated := fun _ => isSome_model_of_calibrated ht } := by
  unfold calibrate
  split
  · next e he => exact absurd (he.symm.trans ht) nofun
  · next t' ht' =>
    obtain rfl := Except.ok.inj (ht'.symm.trans ht)
    rfl

theorem exists_calibrate_of_ok {h : NormalHmm K} {validation : List (List (Fin K))} {q : ℝ}
    {t : EReal} (ht : calibrated h.score validation q = .ok t) :
    ∃ h', h.calibrate validation q = .ok h' :=
  ⟨_, calibrate_of_ok ht⟩

/-- Calibration depends on the threshold it finds alone. -/
theorem calibrate_congr {h : NormalHmm K} {validation validation' : List (List (Fin K))} {q q' : ℝ}
    {t : EReal} (ht : calibrated h.score validation q = .ok t)
    (ht' : calibrated h.score validation' q' = .ok t) :
    h.calibrate validation q = h.calibrate validation' q' := by
  rw [calibrate_of_ok ht, calibrate_of_ok ht']

/-- Calibration sets the threshold and changes nothing else. -/
theorem calibrate_eq_ok {h h' : NormalHmm K} {validation : List (List (Fin K))} {q : ℝ}
    (hc : h.calibrate validation q = .ok h') :
    ∃ t, h'.threshold = some t ∧ calibrated h.score validation q = .ok t ∧ h'.score = h.score := by
  cases ht : calibrated h.score validation q with
  | error e =>
    rw [calibrate_of_error ht] at hc
    cases hc
  | ok t =>
    rw [calibrate_of_ok ht] at hc
    obtain rfl := Except.ok.inj hc
    refine ⟨t, rfl, rfl, funext fun seq => ?_⟩
    cases h with
    | mk _ _ _ _ _ _ model => cases model <;> rfl

/-- Whether a sequence is anomalous, and its score. -/
noncomputable def isAnomaly (h : NormalHmm K) (sequence : List (Fin K)) :
    Except PyError (Bool × EReal) :=
  anomalyBelow h.score "model is not calibrated; call calibrate() first" h.threshold sequence

end Scores

end NormalHmm

end Waf
