import LfWaap.Hmm.WindowForward
import LfWaap.Hmm.EnsembleHmm

/-!
# What the scores of a fitted model can be

A score is the logarithm of a probability, divided by a number of symbols, so it is a real
number or `-∞` (`Waf.OneClassModel.score_ne_top`). It is a real number if the rows of the
model are distributions and every emission is positive, as smoothing makes it: such a model
has no dead end, and every sequence has a positive probability, for a single model or an
ensemble, with windows or without (`Waf.OneClassModel.Scores`). If they are not distributions,
the model scores windows only, and which symbols these hold does not matter: one sequence has
the score `-∞` if all have (`Waf.OneClassModel.score_eq_bot`). The interpolation of
`numpy.quantile` behaves on scores as an interpolation should (`Waf.interpolates_lerp`); from
`-∞` it does not move (`Waf.leaves_lerp`).
-/

namespace Waf

open Python Stats

open scoped NNReal

/-! ### Interpolating scores -/

/-- The extended reals that are numbers. -/
def realNumbers : Set EReal := {x | ∃ r : ℝ, x = r}

theorem lerp_coe (a b t : ℝ) : lerp a b t = ((a + (b - a) * t : ℝ) : EReal) := by
  rw [lerp]
  push_cast
  rfl

theorem bot_lerp (b : EReal) (t : ℝ) : lerp ⊥ b t = ⊥ := EReal.bot_add _

/-- **Linear interpolation** starts at the first value and does not pass the second. -/
theorem interpolates_lerp : Interpolates lerp where
  zero := fun a b => by rw [lerp, EReal.coe_zero, mul_zero, add_zero]
  le := fun a b hab t ht ht1 => by
    induction a with
    | bot => exact (bot_lerp b t).trans_le bot_le
    | top => exact le_top.trans_eq (top_le_iff.mp hab).symm
    | coe a =>
      induction b with
      | bot => exact absurd (le_bot_iff.mp hab) (EReal.coe_ne_bot a)
      | top => exact le_top
      | coe b =>
        rw [EReal.coe_le_coe_iff] at hab
        rw [lerp_coe, EReal.coe_le_coe_iff]
        have h : (b - a) * t ≤ (b - a) * 1 := mul_le_mul_of_nonneg_left ht1 (sub_nonneg.mpr hab)
        linarith

/-- It leaves the first value at once, unless this is `-∞`. -/
theorem leaves_lerp : Leaves lerp {x | x ≠ ⊥} := by
  intro a ha b _ hab t ht _
  induction a with
  | bot => exact absurd rfl ha
  | top => exact absurd hab not_top_lt
  | coe a =>
    induction b with
    | bot => exact absurd hab not_lt_bot
    | top =>
      rw [lerp, EReal.top_sub_coe, EReal.top_mul_coe_of_pos ht, EReal.coe_add_top]
      exact EReal.coe_lt_top a
    | coe b =>
      rw [EReal.coe_lt_coe_iff] at hab
      rw [lerp_coe, EReal.coe_lt_coe_iff]
      have h : 0 < (b - a) * t := mul_pos (sub_pos.mpr hab) ht
      linarith

/-- On the way to a larger value that is not `+∞` it increases. -/
theorem lerp_mono {a b : EReal} (hb : b ≠ ⊤) (hab : a ≤ b) {t t' : ℝ} (ht : t ≤ t') :
    lerp a b t ≤ lerp a b t' := by
  induction a with
  | bot => rw [bot_lerp, bot_lerp]
  | top => exact absurd (top_le_iff.mp hab) hb
  | coe a =>
    induction b with
    | bot => exact absurd (le_bot_iff.mp hab) (EReal.coe_ne_bot a)
    | top => exact absurd rfl hb
    | coe b =>
      rw [EReal.coe_le_coe_iff] at hab
      rw [lerp_coe, lerp_coe, EReal.coe_le_coe_iff]
      have h : (b - a) * t ≤ (b - a) * t' := mul_le_mul_of_nonneg_left ht (sub_nonneg.mpr hab)
      linarith

/-! ### Real numbers among the scores -/

theorem log_mem_realNumbers {p : ℝ≥0} (hp : p ≠ 0) (r : ℝ) : log p / (r : EReal) ∈ realNumbers :=
  ⟨Real.log p / r, by rw [log_of_ne_zero hp, EReal.coe_div]⟩

/-- The logarithm of a probability is not `+∞`. -/
theorem log_ne_top (p : ℝ≥0) : log p ≠ ⊤ :=
  ENNReal.log_eq_top_iff.not.mpr ENNReal.coe_ne_top

theorem div_ne_top {x : EReal} (hx : x ≠ ⊤) {r : ℝ} (hr : 0 < r) : x / (r : EReal) ≠ ⊤ := by
  induction x with
  | bot =>
    rw [EReal.bot_div_of_pos_ne_top (EReal.coe_pos.mpr hr) (EReal.coe_ne_top r)]
    exact bot_ne_top
  | top => exact absurd rfl hx
  | coe x =>
    rw [← EReal.coe_div]
    exact EReal.coe_ne_top _

theorem sum_ne_top {xs : List EReal} (h : ∀ x ∈ xs, x ≠ ⊤) : xs.sum ≠ ⊤ := by
  induction xs with
  | nil => exact EReal.zero_ne_top
  | cons x xs ih =>
    rw [List.sum_cons]
    exact EReal.add_ne_top (h x List.mem_cons_self) (ih fun y hy => h y (List.mem_cons_of_mem _ hy))

theorem sum_mem_realNumbers {xs : List EReal} (h : ∀ x ∈ xs, x ∈ realNumbers) :
    xs.sum ∈ realNumbers := by
  induction xs with
  | nil => exact ⟨0, by simp⟩
  | cons x xs ih =>
    obtain ⟨a, ha⟩ := h x List.mem_cons_self
    obtain ⟨b, hb⟩ := ih fun y hy => h y (List.mem_cons_of_mem _ hy)
    exact ⟨a + b, by rw [List.sum_cons, ha, hb, EReal.coe_add]⟩

/-- An operation that chooses one of two scores chooses one of a list. -/
theorem foldr_mem_of_choice {op : EReal → EReal → EReal} {e : EReal}
    (hchoice : ∀ a b, op a b = a ∨ op a b = b) (hunit : ∀ a, op a e = a) {xs : List EReal}
    (hne : xs ≠ []) : xs.foldr op e ∈ xs := by
  induction xs with
  | nil => exact absurd rfl hne
  | cons x xs ih =>
    rw [List.foldr_cons]
    by_cases hxs : xs = []
    · rw [hxs, List.foldr_nil, hunit]
      exact List.mem_singleton_self x
    · rcases hchoice x (xs.foldr op e) with h | h
      · rw [h]
        exact List.mem_cons_self
      · rw [h]
        exact List.mem_cons_of_mem _ (ih hxs)

theorem minScore_mem {xs : List EReal} (hne : xs ≠ []) : minScore xs ∈ xs :=
  foldr_mem_of_choice min_choice inf_top_eq hne

theorem maxScore_mem {xs : List EReal} (hne : xs ≠ []) : maxScore xs ∈ xs :=
  foldr_mem_of_choice max_choice sup_bot_eq hne

theorem minScore_le {xs : List EReal} {x : EReal} (hx : x ∈ xs) : minScore xs ≤ x := by
  induction xs with
  | nil => cases hx
  | cons y ys ih =>
    rcases List.mem_cons.mp hx with rfl | hx
    · exact inf_le_left
    · exact inf_le_right.trans (ih hx)

theorem le_maxScore {xs : List EReal} {x : EReal} (hx : x ∈ xs) : x ≤ maxScore xs := by
  induction xs with
  | nil => cases hx
  | cons y ys ih =>
    rcases List.mem_cons.mp hx with rfl | hx
    · exact le_sup_left
    · exact (ih hx).trans le_sup_right

/-- A sum is `-∞` if a summand is. -/
theorem sum_eq_bot_iff {xs : List EReal} : xs.sum = ⊥ ↔ ⊥ ∈ xs := by
  induction xs with
  | nil => exact iff_of_false EReal.zero_ne_bot List.not_mem_nil
  | cons x xs ih => rw [List.sum_cons, EReal.add_eq_bot_iff, ih, List.mem_cons, eq_comm]

/-- Fusing real numbers gives a real number. -/
theorem fuse_mem_realNumbers (comb : Combination) {xs : List EReal} (hne : xs ≠ [])
    (h : ∀ x ∈ xs, x ∈ realNumbers) : comb.fuse xs ∈ realNumbers := by
  cases comb with
  | mean =>
    obtain ⟨r, hr⟩ := sum_mem_realNumbers h
    exact ⟨r / xs.length, by rw [Combination.fuse, meanScore, hr, EReal.coe_div]⟩
  | min => exact h _ (minScore_mem hne)
  | max => exact h _ (maxScore_mem hne)

/-- Fusing scores that are not `+∞` gives one that is not. -/
theorem fuse_ne_top (comb : Combination) {xs : List EReal} (hne : xs ≠ []) (h : ∀ x ∈ xs, x ≠ ⊤) :
    comb.fuse xs ≠ ⊤ := by
  cases comb with
  | mean => exact div_ne_top (sum_ne_top h) (Nat.cast_pos.mpr (List.length_pos_iff.mpr hne))
  | min => exact h _ (minScore_mem hne)
  | max => exact h _ (maxScore_mem hne)

theorem div_eq_bot_iff {x : EReal} {r : ℝ} (hr : 0 < r) : x / (r : EReal) = ⊥ ↔ x = ⊥ := by
  induction x with
  | bot => exact iff_of_true (EReal.bot_div_of_pos_ne_top (EReal.coe_pos.mpr hr)
      (EReal.coe_ne_top r)) rfl
  | top =>
    rw [EReal.top_div_of_pos_ne_top (EReal.coe_pos.mpr hr) (EReal.coe_ne_top r)]
  | coe x =>
    rw [← EReal.coe_div]
    exact iff_of_false (EReal.coe_ne_bot _) (EReal.coe_ne_bot x)

/-- Fused scores are `-∞` again, if the scores of the same members are. -/
theorem fuse_eq_bot (comb : Combination) {vs vs' : List EReal} (hne : vs ≠ [])
    (h : List.Forall₂ (fun v v' => v = ⊥ → v' = ⊥) vs vs') (hbot : comb.fuse vs = ⊥) :
    comb.fuse vs' = ⊥ := by
  have hmem : ⊥ ∈ vs → ⊥ ∈ vs' := fun hv => by
    obtain ⟨i, hi, hget⟩ := List.getElem_of_mem hv
    exact h.get hi (h.length_eq ▸ hi) hget ▸ List.getElem_mem _
  have hne' : vs' ≠ [] := fun hnil => hne (List.forall₂_nil_right_iff.mp (hnil ▸ h))
  cases comb with
  | mean =>
    have hpos : ∀ {xs : List EReal}, xs ≠ [] → (0 : ℝ) < xs.length := fun hx =>
      Nat.cast_pos.mpr (List.length_pos_iff.mpr hx)
    rw [Combination.fuse, meanScore, div_eq_bot_iff (hpos hne), sum_eq_bot_iff] at hbot
    rw [Combination.fuse, meanScore, div_eq_bot_iff (hpos hne'), sum_eq_bot_iff]
    exact hmem hbot
  | min =>
    have hv : minScore vs = ⊥ := hbot
    exact le_bot_iff.mp (minScore_le (hmem (hv ▸ minScore_mem hne)))
  | max =>
    -- the largest of the first is `-∞`, so all are
    obtain ⟨i, hi, hget⟩ := List.getElem_of_mem (maxScore_mem hne')
    have hlen : i < vs.length := h.length_eq.symm ▸ hi
    have hle : vs.get ⟨i, hlen⟩ ≤ ⊥ := (le_maxScore (List.get_mem vs _)).trans_eq hbot
    exact hget.symm.trans (h.get hlen hi (le_bot_iff.mp hle))

/-! ### Models without a dead end -/

theorem exists_ne_zero_of_sum_eq_one {n : ℕ} {f : Fin n → ℝ≥0} (h : ∑ i, f i = 1) :
    ∃ i, f i ≠ 0 := by
  by_contra hn
  refine (one_ne_zero : (1 : ℝ≥0) ≠ 0) (h.symm.trans (Finset.sum_eq_zero fun i _ => ?_))
  by_contra hi
  exact hn ⟨i, hi⟩

/-- **A model with positive emissions** whose rows are distributions has no dead end. -/
theorem CategoricalHmm.Stochastic.live {S K : ℕ} {m : CategoricalHmm S K} (hm : m.Stochastic)
    (hpos : ∀ s x, m.emissionprob s x ≠ 0) : m.Live where
  start := exists_ne_zero_of_sum_eq_one hm.start
  trans := fun i => exists_ne_zero_of_sum_eq_one (hm.trans i)
  emit := hpos

namespace NormalHmm

variable {K : ℕ}

section

variable {S : ℕ} {m : CategoricalHmm S K}

/-- **Smoothing makes every emission positive.** -/
theorem smooth_ne_zero (m : CategoricalHmm S K) {ε : ℝ≥0} (hε : 0 < ε) (s : Fin S) (x : Fin K) :
    (smooth ε m).emissionprob s x ≠ 0 := by
  have hpos : ∀ y, 0 < m.emissionprob s y + ε := fun y => add_pos_of_nonneg_of_pos zero_le hε
  have hsum : 0 < ∑ y, (m.emissionprob s y + ε) :=
    Finset.sum_pos (fun y _ => hpos y) ⟨x, Finset.mem_univ x⟩
  exact (div_pos (hpos x) hsum).ne'

/-- The emissions of a row before it is normalised again. -/
theorem sum_add_smoothing (hs : m.Stochastic) (ε : ℝ≥0) (s : Fin S) :
    ∑ y, (m.emissionprob s y + ε) = 1 + K * ε := by
  rw [Finset.sum_add_distrib, hs.emit, Finset.sum_const, Finset.card_univ, Fintype.card_fin,
    nsmul_eq_mul]

/-- **Smoothing keeps a model a model.** -/
theorem smooth_stochastic (hs : m.Stochastic) (ε : ℝ≥0) : (smooth ε m).Stochastic where
  start := hs.start
  trans := hs.trans
  emit := fun s => by
    have hsum : ∑ y, (m.emissionprob s y + ε) ≠ 0 := by
      rw [sum_add_smoothing hs]
      positivity
    change ∑ x, (m.emissionprob s x + ε) / ∑ y, (m.emissionprob s y + ε) = 1
    rw [← Finset.sum_div, div_self hsum]

end

/-- **A healthy model object**: its model is there, has distributions as its rows, and emits
every symbol in every state. -/
def Healthy (h : NormalHmm K) : Prop :=
  ∃ m, h.model = some m ∧ m.Stochastic ∧ ∀ s x, m.emissionprob s x ≠ 0

/-- What a fit leaves behind is a smoothed model. -/
theorem exists_smoothed_of_fit [Libraries] {h₀ h : NormalHmm K} {sequences : List (List (Fin K))}
    (hf : h₀.fit sequences = .ok h) :
    ∃ ws m, h₀.fitWindows sequences = .ok ws ∧
      Libraries.fit h₀.nStates K h₀.randomState h₀.nIter ws = .ok m ∧
      h = { h₀ with model := some (smooth h₀.smoothing m), fitted_of_calibrated := by simp } := by
  obtain ⟨ws, hws, hf⟩ := exists_of_bind_eq_ok hf
  obtain ⟨m, hm, hf⟩ := exists_of_bind_eq_ok hf
  exact ⟨ws, m, hws, hm, (Except.ok.inj hf).symm⟩

section Scores

variable [Libraries]

/-- **A score is not `+∞`.** -/
theorem score_ne_top (hlib : Libraries.Documented) {h : NormalHmm K} {seq : List (Fin K)}
    {v : EReal} (hv : h.score seq = .ok v) : v ≠ ⊤ := by
  obtain ⟨m, hm⟩ := Option.isSome_iff_exists.mp (isSome_model_of_score hv)
  by_cases hwin : 0 < h.window ∧ h.window < seq.length
  · obtain ⟨n, hn⟩ : ∃ n : ℕ, h.window = n := ⟨h.window.toNat, by omega⟩
    rw [score_eq_log_mean seq hm hn (by omega) (by omega)] at hv
    rw [← Except.ok.inj hv]
    exact div_ne_top (log_ne_top _) (Nat.cast_pos.mpr (by omega))
  · rw [score, hm] at hv
    by_cases hseq : seq = []
    · simp only [if_pos hseq] at hv
      exact Except.ok.inj hv ▸ EReal.zero_ne_top
    · simp only [if_neg hseq, if_neg hwin] at hv
      obtain ⟨loglik, hll, rfl⟩ := exists_of_map_eq_ok hv
      rw [hlib.score_eq hll]
      refine div_ne_top (log_ne_top _) (Int.cast_pos.mpr ?_)
      exact lt_of_lt_of_le one_pos (le_max_right _ _)

/-- **Scores of healthy objects are real numbers.** -/
theorem exists_score_of_healthy (hlib : Libraries.Documented) {h : NormalHmm K} (hh : h.Healthy)
    (seq : List (Fin K)) : ∃ v ∈ realNumbers, h.score seq = .ok v := by
  obtain ⟨m, hm, hs, hpos⟩ := hh
  have hlive := hs.live hpos
  by_cases hwin : seq ≠ [] ∧ 0 < h.window ∧ h.window < seq.length
  · obtain ⟨n, hn⟩ : ∃ n : ℕ, h.window = n := ⟨h.window.toNat, by omega⟩
    have hn1 : 1 ≤ n := by omega
    have hL : n < seq.length := by omega
    -- one window of positive probability makes the mean positive
    refine ⟨_, log_mem_realNumbers ?_ _, score_eq_log_mean seq hm hn hn1 hL⟩
    have hlen : (slidingWindows seq n).length ≠ 0 := by
      rw [slidingWindows_eq hn1 hL.le, List.length_map, List.length_range]
      omega
    obtain ⟨w, hw⟩ := List.exists_mem_of_length_pos (Nat.pos_of_ne_zero hlen)
    refine div_ne_zero (fun hsum => ?_) (Nat.cast_ne_zero.mpr hlen)
    exact Hmm.seqProb_ne_zero hlive w
      (List.sum_eq_zero_iff.mp hsum _ (List.mem_map.mpr ⟨w, hw, rfl⟩))
  · rw [score, hm]
    by_cases hseq : seq = []
    · exact ⟨0, ⟨0, by simp⟩, by simp only [if_pos hseq]⟩
    · have hwin' : ¬(0 < h.window ∧ h.window < seq.length) := fun hc => hwin ⟨hseq, hc⟩
      simp only [if_neg hseq, if_neg hwin', hlib.score_of_stochastic hs hseq]
      exact ⟨_, log_mem_realNumbers (Hmm.seqProb_ne_zero hlive seq) _, rfl⟩

/-- Every symbol can be emitted in every state. -/
def Positive (h : NormalHmm K) : Prop :=
  ∀ m, h.model = some m → ∀ s x, m.emissionprob s x ≠ 0

/-- A model whose rows are no distributions scores windows only: hmmlearn raises on it. -/
theorem window_of_score (hlib : Libraries.Documented) {h : NormalHmm K}
    {m : CategoricalHmm h.nStates K} (hm : h.model = some m) (hs : ¬m.Stochastic)
    {seq : List (Fin K)} (hne : seq ≠ []) {v : EReal} (hv : h.score seq = .ok v) :
    0 < h.window ∧ h.window < seq.length := by
  by_contra hn
  obtain ⟨loglik, hll⟩ := (score_isOk_iff.mp ⟨v, hv⟩).2 m hm hne hn
  exact hs ((hlib.score_isOk_iff hne).mp ⟨loglik, hll⟩)

omit [Libraries] in
/-- Where every symbol can be emitted, the windows of two sequences are possible alike. -/
theorem sum_seqProb_eq_zero {S : ℕ} {m : CategoricalHmm S K}
    (hpos : ∀ s x, m.emissionprob s x ≠ 0) {n : ℕ} (hn : 1 ≤ n) {seq seq' : List (Fin K)}
    (hL : n ≤ seq.length) (hL' : n ≤ seq'.length)
    (h : ((slidingWindows seq n).map m.seqProb).sum = 0) :
    ((slidingWindows seq' n).map m.seqProb).sum = 0 := by
  obtain ⟨w, hw⟩ := List.exists_mem_of_ne_nil _ (slidingWindows_ne_nil seq n)
  have hw0 : m.seqProb w = 0 := List.sum_eq_zero_iff.mp h _ (List.mem_map.mpr ⟨w, hw, rfl⟩)
  refine List.sum_eq_zero_iff.mpr fun p hp => ?_
  obtain ⟨w', hw', rfl⟩ := List.mem_map.mp hp
  refine (Hmm.seqProb_eq_zero_iff hpos ?_).mp hw0
  rw [length_of_mem_slidingWindows hn hL hw, length_of_mem_slidingWindows hn hL' hw']

/-- **One score of `-∞`, all scores `-∞`**, where every symbol can be emitted. -/
theorem score_eq_bot (hlib : Libraries.Documented) {h : NormalHmm K} (hpos : h.Positive)
    {seq seq' : List (Fin K)} (hne : seq' ≠ []) {v : EReal} (hv : h.score seq = .ok ⊥)
    (hv' : h.score seq' = .ok v) : v = ⊥ := by
  obtain ⟨m, hm⟩ := Option.isSome_iff_exists.mp (isSome_model_of_score hv)
  have hs : ¬m.Stochastic := fun hs => by
    obtain ⟨w, ⟨r, rfl⟩, hw⟩ := exists_score_of_healthy hlib ⟨m, hm, hs, hpos m hm⟩ seq
    exact EReal.coe_ne_bot r (Except.ok.inj (hw.symm.trans hv))
  have hseq : seq ≠ [] := by
    rintro rfl
    have hzero : h.score [] = .ok 0 := by rw [score, hm]; exact if_pos rfl
    exact EReal.zero_ne_bot (Except.ok.inj (hzero.symm.trans hv))
  have h₁ := window_of_score hlib hm hs hseq hv
  have h₂ := window_of_score hlib hm hs hne hv'
  obtain ⟨n, hn⟩ : ∃ n : ℕ, h.window = n := ⟨h.window.toNat, by omega⟩
  have hn1 : 1 ≤ n := by omega
  have hL : n < seq.length := by omega
  have hL' : n < seq'.length := by omega
  rw [score_eq_log_mean seq hm hn hn1 hL] at hv
  rw [score_eq_log_mean seq' hm hn hn1 hL'] at hv'
  have hlen : (slidingWindows seq n).length ≠ 0 :=
    List.length_eq_zero_iff.not.mpr (slidingWindows_ne_nil seq n)
  have hzero : ((slidingWindows seq n).map m.seqProb).sum = 0 := by
    by_contra hsum
    obtain ⟨r, hr⟩ := log_mem_realNumbers (div_ne_zero hsum (Nat.cast_ne_zero.mpr hlen)) n
    exact EReal.coe_ne_bot r (hr.symm.trans (Except.ok.inj hv))
  have hzero' := sum_seqProb_eq_zero (hpos m hm) hn1 hL.le hL'.le hzero
  rw [← Except.ok.inj hv', hzero', zero_div, log, ENNReal.coe_zero, ENNReal.log_zero]
  exact (div_eq_bot_iff (Nat.cast_pos.mpr hn1)).mpr rfl

end Scores

end NormalHmm

/-! ### Single models and ensembles alike -/

namespace OneClassModel

variable {K : ℕ} [Libraries]

/-- Every sequence gets a real number as its score. -/
def Scores (m : OneClassModel K) : Prop := ∀ seq, ∃ v ∈ realNumbers, m.score seq = .ok v

/-- **A score is not `+∞`.** -/
theorem score_ne_top (hlib : Libraries.Documented) {m : OneClassModel K} {seq : List (Fin K)}
    {v : EReal} (hv : m.score seq = .ok v) : v ≠ ⊤ := by
  cases m with
  | single h => exact NormalHmm.score_ne_top hlib hv
  | ensemble h =>
    obtain ⟨vs, hvs, rfl⟩ := exists_of_map_eq_ok hv
    refine fuse_ne_top _ (EnsembleNormalHmm.memberScores_ne_nil hvs) fun w hw => ?_
    obtain ⟨h₀, -, hs⟩ := exists_of_mem_values hvs hw
    exact NormalHmm.score_ne_top hlib hs

/-- Every symbol can be emitted in every state of every member. -/
def Positive : OneClassModel K → Prop
  | single h => h.Positive
  | ensemble h => ∀ m ∈ h.members, m.Positive

/-- **One score of `-∞`, all scores `-∞`**, where every symbol can be emitted. -/
theorem score_eq_bot (hlib : Libraries.Documented) {m : OneClassModel K} (hpos : m.Positive)
    {seq seq' : List (Fin K)} (hne : seq' ≠ []) {v : EReal} (hv : m.score seq = .ok ⊥)
    (hv' : m.score seq' = .ok v) : v = ⊥ := by
  cases m with
  | single h => exact NormalHmm.score_eq_bot hlib hpos hne hv hv'
  | ensemble h =>
    obtain ⟨vs, hvs, hbot⟩ := exists_of_map_eq_ok hv
    obtain ⟨vs', hvs', rfl⟩ := exists_of_map_eq_ok hv'
    refine fuse_eq_bot _ (EnsembleNormalHmm.memberScores_ne_nil hvs) ?_ hbot.symm
    have hall := mapM_eq_ok_iff.mp hvs
    have hall' := mapM_eq_ok_iff.mp hvs'
    refine List.forall₂_iff_get.mpr ⟨hall.length_eq.symm.trans hall'.length_eq, ?_⟩
    intro i hi hi' hbot
    have hm : i < h.members.length := hall.length_eq.symm ▸ hi
    exact NormalHmm.score_eq_bot hlib (hpos _ (List.getElem_mem hm)) hne
      (hbot ▸ hall.get hm hi) (hall'.get hm hi')

theorem scores_single (hlib : Libraries.Documented) {h : NormalHmm K} (hh : h.Healthy) :
    (single h).Scores := fun seq => NormalHmm.exists_score_of_healthy hlib hh seq

theorem scores_ensemble (hlib : Libraries.Documented) {h : EnsembleNormalHmm K}
    (hh : ∀ m ∈ h.members, m.Healthy) : (ensemble h).Scores := by
  intro seq
  have hsome : ∀ m ∈ h.members, ∃ v, m.score seq = .ok v := fun m hm => by
    obtain ⟨v, -, hv⟩ := NormalHmm.exists_score_of_healthy hlib (hh m hm) seq
    exact ⟨v, hv⟩
  obtain ⟨vs, hvs⟩ := exists_mapM_eq_ok _ _ hsome
  have hne : vs ≠ [] := EnsembleNormalHmm.memberScores_ne_nil hvs
  refine ⟨h.combination.fuse vs, fuse_mem_realNumbers _ hne fun v hv => ?_, ?_⟩
  · obtain ⟨m, hm, hmv⟩ := exists_of_mem_values hvs hv
    obtain ⟨w, hw, hmw⟩ := NormalHmm.exists_score_of_healthy hlib (hh m hm) seq
    rwa [Except.ok.inj (hmv.symm.trans hmw)]
  · rw [score, EnsembleNormalHmm.score, EnsembleNormalHmm.memberScores, hvs]
    rfl

end OneClassModel

end Waf
