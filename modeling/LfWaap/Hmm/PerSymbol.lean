import LfWaap.Hmm.Smoothing

/-!
# Scores per symbol

A score is meant to be a mean over the symbols of a sequence, so that sequences of
different lengths share one threshold: it should lie between the logarithms of the
smallest and the largest emission, and be that of the common value where all emissions
are equal. It does for every sequence that is at least as long as a window
(`Waf.NormalHmm.perSymbol_of_window_le`). A shorter one is divided by the length of a
window, not by its own, so it scores too high: under equal emissions the score of `n`
symbols is `n / window` times what it should be
(`Waf.NormalHmm.mul_score_of_equal`), and no length below the window is safe
(`Waf.NormalHmm.perSymbol_iff`).
-/

namespace Waf

namespace NormalHmm

open Python Stats

open scoped NNReal

variable {K : ℕ}

/-! ### The extreme emissions -/

section

variable {S : ℕ} (m : CategoricalHmm S K)

/-- The smallest entry of the emission matrix. -/
noncomputable def smallestEmission : ℝ≥0 := ⨅ e : Fin S × Fin K, m.emissionprob e.1 e.2

/-- The largest entry of the emission matrix. -/
noncomputable def largestEmission : ℝ≥0 := ⨆ e : Fin S × Fin K, m.emissionprob e.1 e.2

theorem smallestEmission_le (s : Fin S) (x : Fin K) : smallestEmission m ≤ m.emissionprob s x :=
  ciInf_le (OrderBot.bddBelow _) (s, x)

theorem le_largestEmission (s : Fin S) (x : Fin K) : m.emissionprob s x ≤ largestEmission m :=
  le_ciSup (Set.finite_range fun e : Fin S × Fin K => m.emissionprob e.1 e.2).bddAbove (s, x)

variable {m}

/-- A model has a state. -/
theorem exists_state (hs : m.Stochastic) : Nonempty (Fin S) := by
  obtain ⟨s, -⟩ := exists_ne_zero_of_sum_eq_one hs.start
  exact ⟨s⟩

/-- The extreme emissions are emissions. -/
theorem exists_extreme_emissions (hs : m.Stochastic) (x : Fin K) :
    (∃ s y, m.emissionprob s y = smallestEmission m) ∧
      ∃ s y, m.emissionprob s y = largestEmission m := by
  obtain ⟨s⟩ := exists_state hs
  have hne : Nonempty (Fin S × Fin K) := ⟨(s, x)⟩
  obtain ⟨e, he⟩ := exists_eq_ciInf_of_finite (f := fun e : Fin S × Fin K => m.emissionprob e.1 e.2)
  obtain ⟨e', he'⟩ :=
    exists_eq_ciSup_of_finite (f := fun e : Fin S × Fin K => m.emissionprob e.1 e.2)
  exact ⟨⟨e.1, e.2, he⟩, e'.1, e'.2, he'⟩

end

/-! ### The property -/

/-- A model object whose model has distributions for rows and emits every symbol in every
state. -/
structure Proper (h : NormalHmm K) (m : CategoricalHmm h.nStates K) : Prop where
  model : h.model = some m
  stochastic : m.Stochastic
  pos : ∀ s x, 0 < m.emissionprob s x

section Scores

variable [Libraries]

/-- **A score is per symbol** if it lies between the logarithms of the extreme
emissions. -/
def PerSymbol (h : NormalHmm K) (m : CategoricalHmm h.nStates K) (seq : List (Fin K)) : Prop :=
  ∃ v : ℝ, h.score seq = .ok (v : EReal) ∧
    Real.log (smallestEmission m) ≤ v ∧ v ≤ Real.log (largestEmission m)

variable {h : NormalHmm K} {m : CategoricalHmm h.nStates K} {seq : List (Fin K)}

omit [Libraries] in
theorem Proper.smallestEmission_pos (hp : h.Proper m) (x : Fin K) : 0 < smallestEmission m := by
  obtain ⟨⟨s, y, hsy⟩, -⟩ := exists_extreme_emissions hp.stochastic x
  rw [← hsy]
  exact hp.pos s y

omit [Libraries] in
/-- The logarithm of the smallest emission is not positive. -/
theorem Proper.log_smallestEmission_le (hp : h.Proper m) (x : Fin K) :
    Real.log (smallestEmission m) ≤ 0 := by
  obtain ⟨s⟩ := exists_state hp.stochastic
  refine Real.log_nonpos (NNReal.coe_nonneg _) ?_
  exact_mod_cast (smallestEmission_le m s x).trans (emissionprob_le_one hp.stochastic s x)

/-- **The lower bound** holds of every sequence: dividing by too much can only raise a
score. -/
theorem Proper.exists_score (hlib : Libraries.Documented) (hp : h.Proper m) (hne : seq ≠ []) :
    ∃ (v : ℝ) (n : ℕ), h.score seq = .ok (v : EReal) ∧ 1 ≤ n ∧
      (n : ℤ) = min (scoreNorm h.window seq) seq.length ∧
      Real.log (smallestEmission m) ≤ v ∧
      v * scoreNorm h.window seq ≤ n * Real.log (largestEmission m) := by
  obtain ⟨x, -⟩ := List.exists_mem_of_ne_nil seq hne
  obtain ⟨v, n, hv, hn1, hn, hlo, hhi⟩ := exists_score_bounds hlib hp.model hp.stochastic
    (hp.smallestEmission_pos x) (smallestEmission_le m) (le_largestEmission m) hne
  refine ⟨v, n, hv, hn1, hn, ?_, hhi⟩
  have hnorm := one_le_scoreNorm h.window hne
  have hnormR : (0 : ℝ) < scoreNorm h.window seq := by exact_mod_cast hnorm
  have hnR : (n : ℝ) ≤ scoreNorm h.window seq := by
    have : (n : ℤ) ≤ scoreNorm h.window seq := by omega
    exact_mod_cast this
  have hmul := mul_le_mul_of_nonpos_right hnR (hp.log_smallestEmission_le x)
  rw [mul_comm (scoreNorm h.window seq : ℝ)] at hmul
  exact le_of_mul_le_mul_right (hmul.trans hlo) hnormR

/-- **A sequence at least as long as a window is scored per symbol.** -/
theorem perSymbol_of_window_le (hlib : Libraries.Documented) (hp : h.Proper m) (hne : seq ≠ [])
    (hw : h.window ≤ 0 ∨ h.window ≤ seq.length) : PerSymbol h m seq := by
  obtain ⟨v, n, hv, hn1, hn, hlo, hhi⟩ := hp.exists_score hlib hne
  refine ⟨v, hv, hlo, ?_⟩
  -- the score is divided by the number of symbols that were scored
  have hsame : scoreNorm h.window seq = n := by
    rw [hn]
    rw [scoreNorm]
    split <;> omega
  have hnR : (0 : ℝ) < n := by exact_mod_cast hn1
  rw [hsame, Int.cast_natCast, mul_comm (n : ℝ)] at hhi
  exact le_of_mul_le_mul_right hhi hnR

/-- **Equal emissions**: the score of a sequence times the number of symbols it is divided
by is the number of symbols that were scored, times the logarithm of the common value. -/
theorem mul_score_of_equal (hlib : Libraries.Documented) (hp : h.Proper m) {p : ℝ≥0}
    (he : ∀ s x, m.emissionprob s x = p) (hne : seq ≠ []) :
    ∃ v : ℝ, h.score seq = .ok (v : EReal) ∧
      v * scoreNorm h.window seq = min (scoreNorm h.window seq) seq.length * Real.log p := by
  obtain ⟨x, -⟩ := List.exists_mem_of_ne_nil seq hne
  obtain ⟨s⟩ := exists_state hp.stochastic
  obtain ⟨v, n, hv, -, hn, hlo, hhi⟩ := exists_score_bounds hlib hp.model hp.stochastic
    (he s x ▸ hp.pos s x) (fun s x => (he s x).ge) (fun s x => (he s x).le) hne
  refine ⟨v, hv, ?_⟩
  have hnR : ((min (scoreNorm h.window seq) seq.length : ℤ) : ℝ) = n := by rw [← hn]; norm_cast
  rw [hnR]
  exact le_antisymm hhi hlo

/-! ### Below the length of a window -/

/-- **A shorter sequence is scored per symbol** only where it is so improbable that the
missing symbols do not show. -/
theorem perSymbol_short_iff (hlib : Libraries.Documented) (hp : h.Proper m) (hne : seq ≠ [])
    (hw : seq.length < h.window) :
    PerSymbol h m seq ↔ m.seqProb seq ≤ largestEmission m ^ h.window.toNat := by
  obtain ⟨x, -⟩ := List.exists_mem_of_ne_nil seq hne
  obtain ⟨s⟩ := exists_state hp.stochastic
  obtain ⟨v, n, hv, -, -, hlo, -⟩ := hp.exists_score hlib hne
  -- the sequence is its own window, and is divided by the length of a longer one
  have hmean : meanProb m h.window seq = m.seqProb seq := by
    rw [meanProb, show slidingWindows seq h.window = [seq] from if_pos (Or.inr hw.le)]
    simp
  have hnorm : scoreNorm h.window seq = h.window := if_pos (by omega)
  have hlive : m.Live := hp.stochastic.live fun s x => (hp.pos s x).ne'
  have hP : 0 < m.seqProb seq := pos_iff_ne_zero.mpr (Hmm.seqProb_ne_zero hlive seq)
  have hB : 0 < largestEmission m := (hp.pos s x).trans_le (le_largestEmission m s x)
  have hvP : v * h.window = Real.log (m.seqProb seq) := by
    have hW : (h.window : ℝ) ≠ 0 := by
      have : h.window ≠ 0 := by omega
      exact_mod_cast this
    have heq := score_eq_meanProb hlib hp.model hp.stochastic hne
    rw [hmean, hnorm, log_of_ne_zero hP.ne', ← EReal.coe_div, hv] at heq
    rw [EReal.coe_eq_coe_iff.mp (Except.ok.inj heq), div_mul_cancel₀ _ hW]
  have hWcast : ((h.window.toNat : ℕ) : ℝ) = h.window := by
    have : ((h.window.toNat : ℕ) : ℤ) = h.window := Int.toNat_of_nonneg (by omega)
    exact_mod_cast this
  have hWpos : (0 : ℝ) < h.window := by
    have : 0 < h.window := by omega
    exact_mod_cast this
  have hbound : v ≤ Real.log (largestEmission m) ↔
      m.seqProb seq ≤ largestEmission m ^ h.window.toNat := by
    rw [← mul_le_mul_iff_left₀ hWpos, hvP, ← hWcast, mul_comm, ← Real.log_pow,
      Real.log_le_log_iff (by exact_mod_cast hP) (by positivity)]
    norm_cast
  rw [← hbound]
  constructor
  · rintro ⟨w, hw', -, hhi⟩
    rwa [EReal.coe_eq_coe_iff.mp (Except.ok.inj (hv.symm.trans hw'))]
  · exact fun hhi => ⟨v, hv, hlo, hhi⟩

/-- With one symbol only, all scores are zero, and all emissions one. -/
theorem perSymbol_of_one_symbol (hlib : Libraries.Documented) (hp : h.Proper m) (hne : seq ≠ [])
    (hK : K ≤ 1) : PerSymbol h m seq := by
  obtain ⟨x, -⟩ := List.exists_mem_of_ne_nil seq hne
  have hone : ∀ s y, m.emissionprob s y = 1 := by
    intro s y
    rw [← hp.stochastic.emit s]
    refine (Finset.sum_eq_single y (fun z _ hz => absurd (Fin.ext ?_) hz) fun hy => ?_).symm
    · omega
    · exact absurd (Finset.mem_univ y) hy
  obtain ⟨-, s, y, hlargest⟩ := exists_extreme_emissions hp.stochastic x
  by_cases hw : seq.length < h.window
  · rw [perSymbol_short_iff hlib hp hne hw, ← hlargest, hone, one_pow]
    calc m.seqProb seq ≤ 1 ^ seq.length :=
          Hmm.seqProb_le_pow hp.stochastic.start hp.stochastic.trans (fun s y => (hone s y).le) seq
      _ = 1 := one_pow _
  · exact perSymbol_of_window_le hlib hp hne (Or.inr (by omega))

omit [Libraries] in
/-- A model without any preference, as a model object. -/
noncomputable def indifferent (K : ℕ) (window : ℤ) : NormalHmm K where
  nStates := 1
  window := window
  smoothing := 0
  model := some (CategoricalHmm.uniform 1 K)

omit [Libraries] in
theorem proper_indifferent (hK : K ≠ 0) (window : ℤ) :
    (indifferent K window).Proper (CategoricalHmm.uniform 1 K) where
  model := rfl
  stochastic := CategoricalHmm.uniform_stochastic one_ne_zero hK
  pos := fun _ _ => inv_pos.mpr (Nat.cast_pos.mpr (Nat.pos_of_ne_zero hK))

/-- **Under a model without any preference no sequence shorter than a window is scored per
symbol**, unless there is one symbol only. -/
theorem not_perSymbol_indifferent (hlib : Libraries.Documented) (hK : 2 ≤ K) {window : ℤ}
    (hne : seq ≠ []) (hw : seq.length < window) :
    ¬PerSymbol (indifferent K window) (CategoricalHmm.uniform 1 K) seq := by
  obtain ⟨x, -⟩ := List.exists_mem_of_ne_nil seq hne
  have hp := proper_indifferent (K := K) (by omega) window
  have hemit : ∀ s y, (CategoricalHmm.uniform 1 K).emissionprob s y = (K : ℝ≥0)⁻¹ := fun _ _ => rfl
  have hlargest : largestEmission (CategoricalHmm.uniform 1 K) = (K : ℝ≥0)⁻¹ := by
    obtain ⟨-, s, y, h⟩ := exists_extreme_emissions hp.stochastic x
    exact h.symm
  have hlo := Hmm.pow_le_seqProb hp.stochastic.start hp.stochastic.trans
    (fun s y => (hemit s y).ge) seq
  have hpos : (0 : ℝ≥0) < (K : ℝ≥0)⁻¹ := inv_pos.mpr (Nat.cast_pos.mpr (by omega))
  have hlt1 : (K : ℝ≥0)⁻¹ < 1 := inv_lt_one_of_one_lt₀ (by exact_mod_cast hK)
  have hpow : (K : ℝ≥0)⁻¹ ^ window.toNat < (K : ℝ≥0)⁻¹ ^ seq.length :=
    pow_lt_pow_right_of_lt_one₀ hpos hlt1 (by omega)
  intro hper
  have hle : (CategoricalHmm.uniform 1 K).seqProb seq ≤
      largestEmission (CategoricalHmm.uniform 1 K) ^ window.toNat :=
    (perSymbol_short_iff hlib hp hne hw).mp hper
  rw [hlargest] at hle
  exact absurd (hpow.trans_le hlo) (not_lt.mpr hle)

/-! ### Which lengths are safe -/

/-- **Scores are per symbol from the length of a window on, and not below.** A sequence is
scored per symbol exactly if there are no windows, or it is at least as long as one, or it
is shorter and so improbable that the missing symbols do not show. So the sequences of a
length are scored per symbol, under every model, exactly if there are no windows, or the
length is at least that of a window, or there is one symbol only. -/
theorem perSymbol_iff (hlib : Libraries.Documented) (K : ℕ) (window : ℤ) :
    (∀ (h : NormalHmm K) (m : CategoricalHmm h.nStates K), h.Proper m → h.window = window →
      ∀ seq ≠ [], (PerSymbol h m seq ↔ window ≤ 0 ∨ window ≤ seq.length ∨
        m.seqProb seq ≤ largestEmission m ^ window.toNat)) ∧
      ∀ n : ℕ, 1 ≤ n → ((∀ (h : NormalHmm K) (m : CategoricalHmm h.nStates K), h.Proper m →
        h.window = window → ∀ seq, seq.length = n → PerSymbol h m seq) ↔
          window ≤ 0 ∨ window ≤ n ∨ K ≤ 1) := by
  constructor
  · rintro h m hp rfl seq hne
    by_cases hw : h.window ≤ 0 ∨ h.window ≤ seq.length
    · refine iff_of_true (perSymbol_of_window_le hlib hp hne hw) ?_
      exact hw.imp_right Or.inl
    · rw [perSymbol_short_iff hlib hp hne (by omega)]
      constructor
      · exact fun hle => Or.inr (Or.inr hle)
      · rintro (h0 | hlen | hle)
        · omega
        · omega
        · exact hle
  · intro n hn
    constructor
    · intro hall
      by_contra hnot
      push Not at hnot
      obtain ⟨hw0, hwn, hK⟩ := hnot
      have hlen : (List.replicate n (⟨0, by omega⟩ : Fin K)).length = n := List.length_replicate
      have hne : List.replicate n (⟨0, by omega⟩ : Fin K) ≠ [] :=
        List.length_pos_iff.mp (by omega)
      have hshort : ((List.replicate n (⟨0, by omega⟩ : Fin K)).length : ℤ) < window := by
        rw [hlen]
        exact hwn
      -- any sequence of the length will do, under the model without a preference
      refine not_perSymbol_indifferent hlib (by omega) hne hshort ?_
      exact hall _ _ (proper_indifferent (by omega) window) rfl _ hlen
    · rintro hcond h m hp rfl seq rfl
      have hne : seq ≠ [] := List.length_pos_iff.mp hn
      rcases hcond with h0 | hlen | hK
      · exact perSymbol_of_window_le hlib hp hne (Or.inl h0)
      · exact perSymbol_of_window_le hlib hp hne (Or.inr hlen)
      · exact perSymbol_of_one_symbol hlib hp hne hK

omit [Libraries] in
/-- Two symbols, windows of two: sequences of two symbols are safe, sequences of one are not. -/
theorem perSymbol_iff_two :
    let _ : Libraries := .memoryless
    PerSymbol (indifferent 2 2) (CategoricalHmm.uniform 1 2) [0, 1] ∧
      (∀ (h : NormalHmm 2) (m : CategoricalHmm h.nStates 2), h.Proper m → h.window = 2 →
        ∀ seq, seq.length = 2 → PerSymbol h m seq) ∧
      ¬∀ (h : NormalHmm 2) (m : CategoricalHmm h.nStates 2), h.Proper m → h.window = 2 →
        ∀ seq, seq.length = 1 → PerSymbol h m seq := by
  intro _
  obtain ⟨hone, hall⟩ := perSymbol_iff Libraries.documented_memoryless 2 2
  refine ⟨?_, (hall 2 (by decide)).mpr (Or.inr (Or.inl le_rfl)), fun h => ?_⟩
  · exact (hone _ _ (proper_indifferent (by decide) 2) rfl _ (List.cons_ne_nil 0 [1])).mpr
      (Or.inr (Or.inl le_rfl))
  · have hsafe := (hall 1 le_rfl).mp h
    norm_num at hsafe

omit [Libraries] in
/-- One symbol of two, windows of two. -/
theorem not_perSymbol_short :
    let _ : Libraries := .memoryless
    (indifferent 2 2).Proper (CategoricalHmm.uniform 1 2) ∧
      ¬PerSymbol (indifferent 2 2) (CategoricalHmm.uniform 1 2) [0] := by
  intro _
  exact ⟨proper_indifferent (by decide) 2, not_perSymbol_indifferent
    Libraries.documented_memoryless (le_refl 2) (List.cons_ne_nil 0 []) (by decide)⟩

end Scores

end NormalHmm

end Waf
