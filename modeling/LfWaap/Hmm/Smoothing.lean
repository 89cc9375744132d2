import LfWaap.Hmm.FittedScores

/-!
# Smoothed models and the range of their scores

Smoothing adds a constant to every emission and normalises the rows again, so a model
whose rows are distributions stays one, and none of its emissions is below
`ε / (1 + K ε)` (`Waf.NormalHmm.smooth_stochastic`, `Waf.NormalHmm.le_smooth`).

The three branches of the score are one formula: the logarithm of the mean probability of
the windows, divided by a number of symbols (`Waf.NormalHmm.score_eq_meanProb`). Bounds
on the emissions bound the probability of every window, hence the score
(`Waf.NormalHmm.exists_score_bounds`). Without windows the formula can be turned around:
the scores are those of a probability distribution on the sequences of each length
(`Waf.NormalHmm.score_smoothed`).
-/

namespace Waf

namespace NormalHmm

open Python Stats

open scoped NNReal

variable {K : ℕ}

/-! ### The score in one formula -/

/-- The number of symbols a score is divided by. -/
def scoreNorm (window : ℤ) (seq : List (Fin K)) : ℤ := if 0 < window then window else seq.length

/-- The mean probability of the windows of a sequence. -/
noncomputable def meanProb {S : ℕ} (m : CategoricalHmm S K) (window : ℤ)
    (seq : List (Fin K)) : ℝ≥0 :=
  ((slidingWindows seq window).map m.seqProb).sum / (slidingWindows seq window).length

theorem one_le_scoreNorm (window : ℤ) {seq : List (Fin K)} (hne : seq ≠ []) :
    1 ≤ scoreNorm window seq := by
  have hpos := List.length_pos_iff.mpr hne
  rw [scoreNorm]
  split <;> omega

/-- Every window has the length of a window, or that of a shorter sequence. -/
theorem length_of_mem_windows {window : ℤ} {seq w : List (Fin K)}
    (hw : w ∈ slidingWindows seq window) :
    (w.length : ℤ) = min (scoreNorm window seq) seq.length := by
  rw [scoreNorm]
  by_cases hlong : 0 < window ∧ window < seq.length
  · obtain ⟨n, rfl⟩ : ∃ n : ℕ, window = n := ⟨window.toNat, by omega⟩
    have hlen := length_of_mem_slidingWindows (by omega) (by omega) hw
    rw [if_pos hlong.1]
    omega
  · rw [slidingWindows] at hw
    rw [if_pos (by omega), List.mem_singleton] at hw
    subst hw
    split <;> omega

/-- **The score in one formula**, where the rows of the model are distributions: the logarithm
of the mean window probability, divided by the length of a window, or by that of the sequence
where there are no windows. -/
theorem score_eq_meanProb [Libraries] (hlib : Libraries.Documented) {h : NormalHmm K}
    {m : CategoricalHmm h.nStates K} (hm : h.model = some m) (hs : m.Stochastic)
    {seq : List (Fin K)} (hne : seq ≠ []) :
    h.score seq =
      .ok (log (meanProb m h.window seq) / ((scoreNorm h.window seq : ℝ) : EReal)) := by
  have hnorm := one_le_scoreNorm h.window hne
  by_cases hlong : 0 < h.window ∧ h.window < seq.length
  · obtain ⟨n, hn⟩ : ∃ n : ℕ, h.window = n := ⟨h.window.toNat, by omega⟩
    rw [score_eq_log_mean seq hm hn (by omega) (by omega), scoreNorm, if_pos hlong.1, meanProb, hn]
    norm_cast
  · have hwindows : slidingWindows seq h.window = [seq] := if_pos (by omega)
    have hmean : meanProb m h.window seq = m.seqProb seq := by
      rw [meanProb, hwindows]
      simp
    have hmax : max (scoreNorm h.window seq) 1 = scoreNorm h.window seq := max_eq_left hnorm
    rw [score, hm]
    simp only [if_neg hne, if_neg hlong, hmean, hlib.score_of_stochastic hs hne]
    change Except.ok (log (m.seqProb seq) /
      (((max (scoreNorm h.window seq) 1 : ℤ) : ℝ) : EReal)) = _
    rw [hmax]

/-! ### Bounds on the emissions bound the score -/

/-- The mean of numbers that are not above a bound. -/
theorem mean_le {ps : List ℝ≥0} (hne : ps ≠ []) {b : ℝ≥0} (h : ∀ p ∈ ps, p ≤ b) :
    ps.sum / ps.length ≤ b := by
  have hlen : (0 : ℝ≥0) < ps.length := Nat.cast_pos.mpr (List.length_pos_iff.mpr hne)
  rw [div_le_iff₀ hlen, mul_comm]
  simpa using List.sum_le_card_nsmul ps b h

/-- The mean of numbers that are not below a bound. -/
theorem le_mean {ps : List ℝ≥0} (hne : ps ≠ []) {b : ℝ≥0} (h : ∀ p ∈ ps, b ≤ p) :
    b ≤ ps.sum / ps.length := by
  have hlen : (0 : ℝ≥0) < ps.length := Nat.cast_pos.mpr (List.length_pos_iff.mpr hne)
  rw [le_div_iff₀ hlen, mul_comm]
  simpa using List.card_nsmul_le_sum ps b h

/-- **Bounds on the emissions bound the score.** A score is a real number, and times the
number of symbols it is divided by it lies between the logarithms of the bounds, times the
number of symbols of a window. -/
theorem exists_score_bounds [Libraries] (hlib : Libraries.Documented) {h : NormalHmm K}
    {m : CategoricalHmm h.nStates K} (hm : h.model = some m) (hs : m.Stochastic) {b c : ℝ≥0}
    (hb : 0 < b) (hlo : ∀ s x, b ≤ m.emissionprob s x) (hhi : ∀ s x, m.emissionprob s x ≤ c)
    {seq : List (Fin K)} (hne : seq ≠ []) :
    ∃ (v : ℝ) (n : ℕ), h.score seq = .ok (v : EReal) ∧ 1 ≤ n ∧
      (n : ℤ) = min (scoreNorm h.window seq) seq.length ∧
      n * Real.log b ≤ v * scoreNorm h.window seq ∧
      v * scoreNorm h.window seq ≤ n * Real.log c := by
  have hnorm := one_le_scoreNorm h.window hne
  have hpos := List.length_pos_iff.mpr hne
  obtain ⟨n, hn⟩ : ∃ n : ℕ, (n : ℤ) = min (scoreNorm h.window seq) seq.length :=
    ⟨(min (scoreNorm h.window seq) seq.length).toNat, by omega⟩
  have hlen : ∀ w ∈ slidingWindows seq h.window, w.length = n := fun w hw => by
    have := length_of_mem_windows hw
    omega
  have hwne : (slidingWindows seq h.window).map m.seqProb ≠ [] := by
    rw [ne_eq, List.map_eq_nil_iff]
    exact slidingWindows_ne_nil seq h.window
  -- all windows have the same length, so one power bounds them, and their mean
  have hmean : b ^ n ≤ meanProb m h.window seq ∧ meanProb m h.window seq ≤ c ^ n := by
    rw [meanProb, ← List.length_map m.seqProb]
    constructor
    · refine le_mean hwne fun p hp => ?_
      obtain ⟨w, hw, rfl⟩ := List.mem_map.mp hp
      rw [← hlen w hw]
      exact Hmm.pow_le_seqProb hs.start hs.trans hlo w
    · refine mean_le hwne fun p hp => ?_
      obtain ⟨w, hw, rfl⟩ := List.mem_map.mp hp
      rw [← hlen w hw]
      exact Hmm.seqProb_le_pow hs.start hs.trans hhi w
  have hP : 0 < meanProb m h.window seq := (pow_pos hb n).trans_le hmean.1
  have hnorm' : (scoreNorm h.window seq : ℝ) ≠ 0 := by
    have : scoreNorm h.window seq ≠ 0 := by omega
    exact_mod_cast this
  refine ⟨Real.log (meanProb m h.window seq) / scoreNorm h.window seq, n, ?_, by omega, hn, ?_, ?_⟩
  · rw [score_eq_meanProb hlib hm hs hne, log_of_ne_zero hP.ne', EReal.coe_div]
  · rw [div_mul_cancel₀ _ hnorm', ← Real.log_pow]
    have hbR : (0 : ℝ) < (b : ℝ) ^ n := pow_pos (by exact_mod_cast hb) n
    exact Real.log_le_log hbR (by exact_mod_cast hmean.1)
  · rw [div_mul_cancel₀ _ hnorm', ← Real.log_pow]
    exact Real.log_le_log (by exact_mod_cast hP) (by exact_mod_cast hmean.2)

/-! ### Smoothed models -/

section

variable {S : ℕ} {m : CategoricalHmm S K}

/-- **No emission of a smoothed model is small.** -/
theorem le_smooth (hs : m.Stochastic) (ε : ℝ≥0) (s : Fin S) (x : Fin K) :
    ε / (1 + K * ε) ≤ (smooth ε m).emissionprob s x := by
  change _ ≤ (m.emissionprob s x + ε) / ∑ y, (m.emissionprob s y + ε)
  rw [sum_add_smoothing hs]
  exact div_le_div_of_nonneg_right le_add_self zero_le

/-- No emission exceeds one. -/
theorem emissionprob_le_one (hs : m.Stochastic) (s : Fin S) (x : Fin K) :
    m.emissionprob s x ≤ 1 := by
  rw [← hs.emit s]
  exact Finset.single_le_sum (fun y _ => zero_le) (Finset.mem_univ x)

end

/-- Without windows, a score times the length of its sequence is the logarithm of the
probability of the sequence. -/
theorem exp_mul_score [Libraries] (hlib : Libraries.Documented) {h : NormalHmm K}
    {m : CategoricalHmm h.nStates K} (hm : h.model = some m) (hs : m.Stochastic)
    (hpos : ∀ s x, m.emissionprob s x ≠ 0) (hw : h.window ≤ 0) {seq : List (Fin K)} (hne : seq ≠ [])
    {v : ℝ} (hv : h.score seq = .ok (v : EReal)) : Real.exp (seq.length * v) = m.seqProb seq := by
  have hlen : (seq.length : ℝ) ≠ 0 := Nat.cast_ne_zero.mpr (List.length_pos_iff.mpr hne).ne'
  have hP := Hmm.seqProb_ne_zero (hs.live hpos) seq
  have hmean : meanProb m h.window seq = m.seqProb seq := by
    rw [meanProb, show slidingWindows seq h.window = [seq] from if_pos (Or.inl hw)]
    simp
  have hnorm : ((scoreNorm h.window seq : ℤ) : ℝ) = seq.length := by
    rw [scoreNorm, if_neg (by omega)]
    norm_cast
  rw [score_eq_meanProb hlib hm hs hne, hmean, hnorm, log_of_ne_zero hP, ← EReal.coe_div] at hv
  rw [← EReal.coe_eq_coe_iff.mp (Except.ok.inj hv), mul_div_cancel₀ _ hlen]
  exact Real.exp_log (by exact_mod_cast pos_iff_ne_zero.mpr hP)

/-- **Smoothing yields a proper sequence model with bounded scores.** Every score is a
real number. Without windows, the scores of the sequences of each length are the
logarithms, per symbol, of positive probabilities that sum to one; with windows or
without, the score of a sequence that is not empty lies between
`log (ε / (1 + K ε))` and 0. -/
theorem score_smoothed [Libraries] (hlib : Libraries.Documented) {h : NormalHmm K}
    {m : CategoricalHmm h.nStates K} (hm : h.model = some (smooth h.smoothing m))
    (hs : m.Stochastic) (hε : 0 < h.smoothing) :
    ∃ v : List (Fin K) → ℝ, (∀ seq, h.score seq = .ok (v seq : EReal)) ∧
      (h.window ≤ 0 → ∀ L, 1 ≤ L →
        (∀ x : Fin L → Fin K, 0 < Real.exp (L * v (List.ofFn x))) ∧
          ∑ x : Fin L → Fin K, Real.exp (L * v (List.ofFn x)) = 1) ∧
      ∀ seq ≠ [], Real.log (h.smoothing / (1 + K * h.smoothing)) ≤ v seq ∧ v seq ≤ 0 := by
  have hpos := smooth_ne_zero m hε
  have hstoch := smooth_stochastic hs h.smoothing
  have hreal : ∀ seq, ∃ v : ℝ, h.score seq = .ok (v : EReal) := fun seq => by
    obtain ⟨_, ⟨v, rfl⟩, hv⟩ := exists_score_of_healthy hlib ⟨_, hm, hstoch, hpos⟩ seq
    exact ⟨v, hv⟩
  choose v hv using hreal
  refine ⟨v, hv, ?_, ?_⟩
  · intro hw L hL
    refine ⟨fun x => Real.exp_pos _, ?_⟩
    have hterm : ∀ x : Fin L → Fin K, Real.exp (L * v (List.ofFn x)) =
        (((smooth h.smoothing m).seqProb (List.ofFn x) : ℝ≥0) : ℝ) := by
      intro x
      have hne : List.ofFn x ≠ [] := List.length_pos_iff.mp (by rw [List.length_ofFn]; exact hL)
      have := exp_mul_score hlib hm hstoch hpos hw hne (hv _)
      rwa [List.length_ofFn] at this
    rw [Finset.sum_congr rfl fun x _ => hterm x]
    exact_mod_cast Hmm.sum_seqProb hstoch.start hstoch.trans hstoch.emit L
  · intro seq hne
    have hb : 0 < h.smoothing / (1 + K * h.smoothing) := by positivity
    obtain ⟨w, n, hw, hn1, hn, hlo, hhi⟩ := exists_score_bounds hlib hm hstoch hb
      (le_smooth hs h.smoothing) (emissionprob_le_one hstoch) hne
    obtain rfl : v seq = w := EReal.coe_eq_coe_iff.mp (Except.ok.inj ((hv seq).symm.trans hw))
    have hnorm := one_le_scoreNorm h.window hne
    have hnormR : (1 : ℝ) ≤ scoreNorm h.window seq := by exact_mod_cast hnorm
    have hnR : (n : ℝ) ≤ scoreNorm h.window seq := by
      have : (n : ℤ) ≤ scoreNorm h.window seq := by omega
      exact_mod_cast this
    -- a smoothed emission is a probability, so its logarithm is not positive
    have hlog : Real.log (h.smoothing / (1 + K * h.smoothing)) ≤ 0 := by
      refine Real.log_nonpos (by positivity) (div_le_one_of_le₀ ?_ (by positivity))
      obtain ⟨x, -⟩ := List.exists_mem_of_ne_nil seq hne
      have hK : (1 : ℝ) ≤ K := by exact_mod_cast x.pos
      have hεR : (0 : ℝ) ≤ h.smoothing := NNReal.coe_nonneg _
      nlinarith
    constructor
    · have hcast : ((h.smoothing / (1 + K * h.smoothing) : ℝ≥0) : ℝ) =
          (h.smoothing : ℝ) / (1 + K * h.smoothing) := by push_cast; rfl
      rw [hcast] at hlo
      have hmul := mul_le_mul_of_nonpos_right hnR hlog
      rw [mul_comm (scoreNorm h.window seq : ℝ)] at hmul
      exact le_of_mul_le_mul_right (hmul.trans hlo) (by linarith)
    · rw [NNReal.coe_one, Real.log_one, mul_zero] at hhi
      exact nonpos_of_mul_nonpos_left hhi (by linarith)

/-- A model that has seen nothing, with two symbols: windows of three, and no windows. -/
theorem score_smoothed_uniform :
    let _ : Libraries := .memoryless
    let model : CategoricalHmm 1 2 := smooth (1 / 1000) (CategoricalHmm.uniform 1 2)
    let h : NormalHmm 2 := { nStates := 1, window := 3, model := some model }
    let h' : NormalHmm 2 := { nStates := 1, model := some model }
    (∃ v : List (Fin 2) → ℝ, (∀ seq, h.score seq = .ok (v seq : EReal)) ∧
      Real.log ((1 / 1000 : ℝ≥0) / (1 + (2 : ℕ) * (1 / 1000 : ℝ≥0))) ≤ v [0] ∧ v [0] ≤ 0) ∧
      ∃ v : List (Fin 2) → ℝ, (∀ seq, h'.score seq = .ok (v seq : EReal)) ∧
        (∀ x : Fin 4 → Fin 2, 0 < Real.exp ((4 : ℕ) * v (List.ofFn x))) ∧
          ∑ x : Fin 4 → Fin 2, Real.exp ((4 : ℕ) * v (List.ofFn x)) = 1 := by
  intro _ model h h'
  have hε : (0 : ℝ≥0) < 1 / 1000 := by norm_num
  have hs : (CategoricalHmm.uniform 1 2).Stochastic :=
    CategoricalHmm.uniform_stochastic (by decide) (by decide)
  obtain ⟨v, hv, -, hbounds⟩ := score_smoothed Libraries.documented_memoryless (h := h) rfl hs hε
  obtain ⟨v', hv', hmass, -⟩ := score_smoothed Libraries.documented_memoryless (h := h') rfl hs hε
  exact ⟨⟨v, hv, hbounds [0] (List.cons_ne_nil 0 [])⟩, v', hv', hmass le_rfl 4 (by decide)⟩

end NormalHmm

end Waf
