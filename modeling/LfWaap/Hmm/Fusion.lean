import LfWaap.Hmm.Training
import LfWaap.Stats.Dispersion
import LfWaap.Stats.QuantileOrder

/-!
# Three ways to fuse

`waf.infrastructure.hmm.ensemble_hmm` fuses the scores of its members by their mean, or, for a
conservative or a permissive ensemble, by their minimum or maximum. The threshold is calibrated
with the fused scores, so that it moves with them: of three ensembles that are trained on the same
sequences and differ in the rule alone, the minimum has the lowest scores and the lowest threshold,
the mean lies between, and the maximum has the highest (`Waf.EnsembleNormalHmm.train_ordered`).

An ensemble of one has nothing to fuse, and is its member
(`Waf.EnsembleNormalHmm.train_singleton`). The partitioned model takes the plain model for one, so
the ensembles it does build have at least two members.
-/

namespace Waf

open Python Stats

/-! ### Fused scores -/

section

variable {xs : List EReal}

/-- Real numbers, as a list of them. -/
theorem exists_map_coe (h : ∀ x ∈ xs, x ∈ realNumbers) :
    ∃ rs : List ℝ, xs = rs.map fun r : ℝ => (r : EReal) := by
  induction xs with
  | nil => exact ⟨[], rfl⟩
  | cons x xs ih =>
    obtain ⟨r, rfl⟩ := h x List.mem_cons_self
    obtain ⟨rs, rfl⟩ := ih fun y hy => h y (List.mem_cons_of_mem _ hy)
    exact ⟨r :: rs, rfl⟩

theorem sum_map_coe (rs : List ℝ) :
    (rs.map fun r : ℝ => (r : EReal)).sum = ((rs.sum : ℝ) : EReal) := by
  induction rs with
  | nil => rfl
  | cons r rs ih => rw [List.map_cons, List.sum_cons, List.sum_cons, ih, EReal.coe_add]

theorem meanScore_map_coe (rs : List ℝ) :
    meanScore (rs.map fun r : ℝ => (r : EReal)) = ((mean rs : ℝ) : EReal) := by
  rw [meanScore, sum_map_coe, List.length_map, mean, EReal.coe_div]

/-- **The mean lies between the minimum and the maximum.** -/
theorem minScore_le_meanScore_le_maxScore (hne : xs ≠ []) (htop : ∀ x ∈ xs, x ≠ ⊤) :
    minScore xs ≤ meanScore xs ∧ meanScore xs ≤ maxScore xs := by
  by_cases hbot : ⊥ ∈ xs
  · have hpos : (0 : ℝ) < xs.length := Nat.cast_pos.mpr (List.length_pos_iff.mpr hne)
    have hmean : meanScore xs = ⊥ := (div_eq_bot_iff hpos).mpr (sum_eq_bot_iff.mpr hbot)
    rw [hmean]
    exact ⟨minScore_le hbot, bot_le⟩
  · have h : ∀ x ∈ xs, x ∈ realNumbers := fun x hx =>
      ⟨x.toReal, (EReal.coe_toReal (htop x hx) fun hb => hbot (hb ▸ hx)).symm⟩
    obtain ⟨low, hlow⟩ := h _ (minScore_mem hne)
    obtain ⟨high, hhigh⟩ := h _ (maxScore_mem hne)
    obtain ⟨rs, rfl⟩ := exists_map_coe h
    have hbounds : ∀ r ∈ rs, low ≤ r ∧ r ≤ high := by
      intro r hr
      have hmem : (r : EReal) ∈ rs.map fun r : ℝ => (r : EReal) := List.mem_map_of_mem hr
      rw [← EReal.coe_le_coe_iff, ← EReal.coe_le_coe_iff, ← hlow, ← hhigh]
      exact ⟨minScore_le hmem, le_maxScore hmem⟩
    rw [hlow, hhigh, meanScore_map_coe, EReal.coe_le_coe_iff, EReal.coe_le_coe_iff]
    exact mean_mem_of_bounds (fun hnil => hne (by rw [hnil]; rfl)) hbounds

end

/-- The rules, from the conservative to the permissive one. -/
def Combination.rank : Combination → ℕ
  | .min => 0
  | .mean => 1
  | .max => 2

/-- A more permissive rule gives higher scores. -/
theorem Combination.fuse_le_fuse {comb comb' : Combination} (hrank : comb.rank ≤ comb'.rank)
    {xs : List EReal} (hne : xs ≠ []) (htop : ∀ x ∈ xs, x ≠ ⊤) :
    comb.fuse xs ≤ comb'.fuse xs := by
  obtain ⟨hlow, hhigh⟩ := minScore_le_meanScore_le_maxScore hne htop
  cases comb with
  | min =>
    cases comb' with
    | min => exact le_rfl
    | mean => exact hlow
    | max => exact hlow.trans hhigh
  | mean =>
    cases comb' with
    | min => exact absurd hrank (by decide)
    | mean => exact le_rfl
    | max => exact hhigh
  | max =>
    cases comb' with
    | min => exact absurd hrank (by decide)
    | mean => exact absurd hrank (by decide)
    | max => exact le_rfl

/-! ### Thresholds -/

/-- Between larger values the interpolated value is larger. -/
theorem lerp_le_lerp {a b a' b' : EReal} (hb : b ≠ ⊤) (ha' : a' ≠ ⊤) (hb' : b' ≠ ⊤) (haa : a ≤ a')
    (hbb : b ≤ b') {t : ℝ} (ht : 0 ≤ t) (ht1 : t ≤ 1) : lerp a b t ≤ lerp a' b' t := by
  rcases ht.eq_or_lt with rfl | hpos
  · rw [interpolates_lerp.zero a b, interpolates_lerp.zero a' b']
    exact haa
  induction a with
  | bot => exact (bot_lerp b t).trans_le bot_le
  | top => exact absurd (top_le_iff.mp haa) ha'
  | coe a =>
    induction b with
    | top => exact absurd rfl hb
    | bot =>
      rw [lerp, EReal.bot_sub, EReal.bot_mul_coe_of_pos hpos, EReal.add_bot]
      exact bot_le
    | coe b =>
      lift a' to ℝ using ⟨ha', fun h => EReal.coe_ne_bot a (le_bot_iff.mp (h ▸ haa))⟩
      lift b' to ℝ using ⟨hb', fun h => EReal.coe_ne_bot b (le_bot_iff.mp (h ▸ hbb))⟩
      rw [EReal.coe_le_coe_iff] at haa hbb
      rw [lerp_coe, lerp_coe, EReal.coe_le_coe_iff]
      have hleft : a * (1 - t) ≤ a' * (1 - t) := mul_le_mul_of_nonneg_right haa (by linarith)
      have hright : b * t ≤ b' * t := mul_le_mul_of_nonneg_right hbb ht
      linarith

section

variable {K : ℕ}

/-- Two scorers that raise alike, of which the second gives the larger scores. -/
def ScoresBelow (score score' : List (Fin K) → Except PyError EReal) : Prop :=
  ∀ seq, Related (fun v v' => v ≠ ⊤ ∧ v' ≠ ⊤ ∧ v ≤ v') (score seq) (score' seq)

/-- **Higher scores, higher threshold.** Calibration goes alike with both scorers. -/
theorem calibrated_related {score score' : List (Fin K) → Except PyError EReal}
    (h : ScoresBelow score score') (validation : List (List (Fin K))) (q : ℝ) :
    Related (· ≤ ·) (calibrated score validation q) (calibrated score' validation q) := by
  unfold calibrated
  split
  · next hq =>
    have hscores : Related (List.Forall₂ fun v v' => v ≠ ⊤ ∧ v' ≠ ⊤ ∧ v ≤ v')
        ((validation.filter fun s => 0 < s.length).mapM score)
        ((validation.filter fun s => 0 < s.length).mapM score') := .mapM fun seq _ => h seq
    refine hscores.bind fun vs vs' hvs => ?_
    by_cases hnil : vs = []
    · rw [if_pos hnil, if_pos (List.forall₂_nil_left_iff.mp (hnil ▸ hvs))]
      exact .error _
    · have hnil' : vs' ≠ [] := fun he => hnil (List.forall₂_nil_right_iff.mp (he ▸ hvs))
      rw [if_neg hnil, if_neg hnil']
      have htop : ∀ v ∈ vs, v ≠ ⊤ := fun v hv => by
        obtain ⟨i, hi, rfl⟩ := List.getElem_of_mem hv
        exact (hvs.get hi (hvs.length_eq ▸ hi)).1
      have htop' : ∀ v ∈ vs', v ≠ ⊤ := fun v hv => by
        obtain ⟨i, hi, rfl⟩ := List.getElem_of_mem hv
        exact (hvs.get (hvs.length_eq ▸ hi) hi).2.1
      refine .ok (quantile_le_quantile (S := {v | v ≠ ⊤}) ?_ htop htop'
        (hvs.imp fun _ _ hv => hv.2.2) (List.length_pos_iff.mpr hnil) hq.1.le hq.2.le)
      exact fun _ _ _ hb _ ha' _ hb' haa hbb _ ht ht1 => lerp_le_lerp hb ha' hb' haa hbb ht ht1
  · exact .error _

end

/-! ### Ensembles that differ in the rule -/

namespace EnsembleNormalHmm

variable {K : ℕ}

/-- An ensemble from its construction to its threshold. -/
noncomputable def train [Libraries] (nModels : ℤ) (comb : Combination) (member : NormalHmm K)
    (sequences validation : List (List (Fin K))) (targetFpr : ℝ) :
    Except PyError (EnsembleNormalHmm K) := do
  let h ← new nModels comb member
  let h ← h.fit sequences
  h.calibrate validation targetFpr

/-- Two ensembles of the same members. -/
structure Siblings (comb comb' : Combination) (h h' : EnsembleNormalHmm K) : Prop where
  members : h.members = h'.members
  left : h.combination = comb
  right : h'.combination = comb'

variable {comb comb' : Combination}

/-- The rule does not matter to the constructor. -/
theorem new_related (nModels : ℤ) (member : NormalHmm K) :
    Related (Siblings comb comb') (new nModels comb member) (new nModels comb' member) := by
  unfold new
  split
  · exact .error _
  · exact .ok ⟨rfl, rfl, rfl⟩

theorem fit_eq_error [Libraries] {h : EnsembleNormalHmm K} {sequences : List (List (Fin K))}
    {e : PyError} (he : (h.members.mapM fun m => m.fit sequences) = .error e) :
    h.fit sequences = .error e := by
  unfold fit
  split
  · next e' he' => exact congrArg Except.error (Except.error.inj (he'.symm.trans he))
  · next ms hms => exact absurd (hms.symm.trans he) nofun

theorem exists_fit_eq_ok [Libraries] {h : EnsembleNormalHmm K} {sequences : List (List (Fin K))}
    {ms : List (NormalHmm K)} (hms : (h.members.mapM fun m => m.fit sequences) = .ok ms) :
    ∃ h', h.fit sequences = .ok h' ∧ h'.members = ms ∧ h'.combination = h.combination := by
  unfold fit
  split
  · next e he => exact absurd (he.symm.trans hms) nofun
  · next ms' hms' => exact ⟨_, rfl, Except.ok.inj (hms'.symm.trans hms), rfl⟩

/-- Nor to the fit. -/
theorem fit_related [Libraries] {h h' : EnsembleNormalHmm K} (hsib : Siblings comb comb' h h')
    (sequences : List (List (Fin K))) :
    Related (Siblings comb comb') (h.fit sequences) (h'.fit sequences) := by
  cases hms : h.members.mapM fun m => m.fit sequences with
  | error e =>
    rw [fit_eq_error hms, fit_eq_error (hsib.members ▸ hms)]
    exact .error e
  | ok ms =>
    obtain ⟨g, hg, hgm, hgc⟩ := exists_fit_eq_ok hms
    obtain ⟨g', hg', hgm', hgc'⟩ := exists_fit_eq_ok (h := h') (hsib.members ▸ hms)
    rw [hg, hg']
    exact .ok ⟨hgm.trans hgm'.symm, hgc.trans hsib.left, hgc'.trans hsib.right⟩

section Scores

variable [Libraries]

/-- The scores of siblings. -/
theorem scoresBelow_of_siblings (hlib : Libraries.Documented) (hrank : comb.rank ≤ comb'.rank)
    {h h' : EnsembleNormalHmm K} (hsib : Siblings comb comb' h h') :
    ScoresBelow h.score h'.score := by
  intro seq
  rw [score, score, memberScores, memberScores, ← hsib.members, hsib.left, hsib.right]
  cases hvs : h.members.mapM fun m => m.score seq with
  | error e => exact .error e
  | ok vs =>
    have hne : vs ≠ [] := memberScores_ne_nil hvs
    have htop : ∀ v ∈ vs, v ≠ ⊤ := fun v hv => by
      obtain ⟨m, -, hmv⟩ := exists_of_mem_values hvs hv
      exact NormalHmm.score_ne_top hlib hmv
    exact .ok ⟨fuse_ne_top comb hne htop, fuse_ne_top comb' hne htop,
      Combination.fuse_le_fuse hrank hne htop⟩

/-- Calibration of two scorers that go alike. -/
theorem calibrate_related {h h' : EnsembleNormalHmm K} (hs : ScoresBelow h.score h'.score)
    (validation : List (List (Fin K))) (q : ℝ) :
    Related (fun g g' => (∃ t t', g.threshold = some t ∧ g'.threshold = some t' ∧ t ≤ t') ∧
        ∀ seq, Related (· ≤ ·) (g.score seq) (g'.score seq))
      (h.calibrate validation q) (h'.calibrate validation q) := by
  have hcal := calibrated_related hs validation q
  cases ht : calibrated h.score validation q with
  | error e =>
    cases ht' : calibrated h'.score validation q with
    | error e' =>
      rw [ht, ht'] at hcal
      obtain ⟨⟩ := hcal
      rw [calibrate_of_error ht, calibrate_of_error ht']
      exact .error e
    | ok t' =>
      rw [ht, ht'] at hcal
      cases hcal
  | ok t =>
    cases ht' : calibrated h'.score validation q with
    | error e' =>
      rw [ht, ht'] at hcal
      cases hcal
    | ok t' =>
      rw [ht, ht'] at hcal
      obtain ⟨⟩ | ⟨hle⟩ := hcal
      rw [calibrate_of_ok ht, calibrate_of_ok ht']
      refine .ok ⟨⟨t, t', rfl, rfl, hle⟩, fun seq => ?_⟩
      exact (hs seq).imp fun _ _ hv => hv.2.2

/-- **Three ways to fuse, in order.** Two ensembles of the same members on the same traffic, the
second with the more permissive rule: training raises for both, and the same, or for neither; then
the second has the higher threshold, and every sequence is scored by both, and higher by the
second, or raises the same for both. -/
theorem train_ordered (hlib : Libraries.Documented) (hrank : comb.rank ≤ comb'.rank) (nModels : ℤ)
    (member : NormalHmm K) (sequences validation : List (List (Fin K))) (q : ℝ) :
    Related (fun h h' => (∃ t t', h.threshold = some t ∧ h'.threshold = some t' ∧ t ≤ t') ∧
        ∀ seq, Related (· ≤ ·) (h.score seq) (h'.score seq))
      (train nModels comb member sequences validation q)
      (train nModels comb' member sequences validation q) := by
  refine (new_related nModels member).bind fun h h' hsib => ?_
  refine (fit_related hsib sequences).bind fun g g' hsib' => ?_
  exact calibrate_related (scoresBelow_of_siblings hlib hrank hsib') validation q

/-- Training returns where every member can be fitted, and is healthy then. -/
theorem exists_train (hlib : Libraries.Documented) {nModels : ℤ} (hn : 1 ≤ nModels)
    {member : NormalHmm K} {sequences validation : List (List (Fin K))}
    (hfit : ∀ i : ℕ, ∃ m, ({ member with randomState := member.randomState + i } :
      NormalHmm K).fit sequences = .ok m ∧ m.Healthy)
    {q : ℝ} (hq : 0 < q ∧ q < 1) (hne : ∃ s ∈ validation, s ≠ []) :
    ∃ h, train nModels comb member sequences validation q = .ok h ∧
      ∀ seq, ∃ v, h.score seq = .ok v := by
  have hnew : ∃ h, new nModels comb member = .ok h ∧ ∀ m ∈ h.members, ∃ i : ℕ,
      m = { member with randomState := member.randomState + i } := by
    refine ⟨_, dif_neg (not_lt.mpr hn), fun m hm => ?_⟩
    obtain ⟨i, -, rfl⟩ := List.mem_map.mp hm
    exact ⟨i, rfl⟩
  obtain ⟨h, hh, hmem⟩ := hnew
  have hfit' : ∀ m ∈ h.members, ∃ m', m.fit sequences = .ok m' ∧ m'.Healthy := fun m hm => by
    obtain ⟨i, rfl⟩ := hmem m hm
    exact hfit i
  obtain ⟨ms, hms⟩ := exists_mapM_eq_ok (fun m => NormalHmm.fit m sequences) h.members
    fun m hm => (hfit' m hm).imp fun _ hm => hm.1
  obtain ⟨g, hg, hgm, -⟩ := exists_fit_eq_ok hms
  have hhealthy : ∀ m ∈ g.members, m.Healthy := fun m hm => by
    obtain ⟨m₀, hm₀, hfit₀⟩ := exists_of_mem_values hms (hgm ▸ hm)
    obtain ⟨m', hm', hhealthy⟩ := hfit' m₀ hm₀
    exact Except.ok.inj (hm'.symm.trans hfit₀) ▸ hhealthy
  have hscores : ∀ seq, ∃ v, g.score seq = .ok v := fun seq =>
    (OneClassModel.scores_ensemble hlib hhealthy seq).imp fun _ hv => hv.2
  obtain ⟨t, ht⟩ := exists_calibrated g.score hscores hq hne
  obtain ⟨g', hg'⟩ := exists_calibrate_of_ok ht
  obtain ⟨-, -, -, hsame⟩ := calibrate_eq_ok hg'
  exact ⟨g', by rw [train, hh, ok_bind, hg, ok_bind, hg'], fun seq => hsame ▸ hscores seq⟩

end Scores

/-- The libraries without memory train any three members, whatever the rule. -/
theorem exists_train_memoryless (comb : Combination) :
    let _ : Libraries := .memoryless
    ∃ h, train 3 comb ({ } : NormalHmm 2) [[0, 1, 1]] [[0, 1], []] (1 / 100) = .ok h ∧
      ∀ seq, ∃ v, h.score seq = .ok v := by
  intro _
  have hfit : ∀ i : ℕ, ∃ m, ({ randomState := 42 + i } : NormalHmm 2).fit [[0, 1, 1]] = .ok m ∧
      m.Healthy := by
    intro i
    have hws : ({ randomState := 42 + i } : NormalHmm 2).fitWindows [[0, 1, 1]] =
      .ok [[0, 1, 1]] := NormalHmm.fitWindows_one (Or.inl le_rfl) rfl (List.cons_ne_nil _ _)
    have hflat : [[(0 : Fin 2), 1, 1]].flatten ≠ [] := List.cons_ne_nil _ _
    have hS : 8 ≠ 0 := Nat.succ_ne_zero 7
    refine ⟨_, NormalHmm.fit_eq hws (if_pos ⟨hS, hflat⟩), _, rfl, ?_, ?_⟩
    · exact NormalHmm.smooth_stochastic (CategoricalHmm.memoryless_stochastic hS hflat) _
    · exact NormalHmm.smooth_ne_zero _ (by norm_num)
  exact exists_train Libraries.documented_memoryless (by decide) hfit (by norm_num)
    ⟨_, List.mem_cons_self, List.cons_ne_nil _ _⟩

/-- The conservative and the permissive ensemble of three members. -/
theorem train_ordered_three :
    let _ : Libraries := .memoryless
    ∃ h h', train 3 .min ({ } : NormalHmm 2) [[0, 1, 1]] [[0, 1], []] (1 / 100) = .ok h ∧
      train 3 .max ({ } : NormalHmm 2) [[0, 1, 1]] [[0, 1], []] (1 / 100) = .ok h' ∧
      (∃ t t', h.threshold = some t ∧ h'.threshold = some t' ∧ t ≤ t') ∧
      ∀ seq, ∃ v v', h.score seq = .ok v ∧ h'.score seq = .ok v' ∧ v ≤ v' := by
  intro _
  obtain ⟨h, hh, hs⟩ := exists_train_memoryless .min
  obtain ⟨h', hh', hs'⟩ := exists_train_memoryless .max
  have hrank : Combination.min.rank ≤ Combination.max.rank := by decide
  have hrel := train_ordered Libraries.documented_memoryless hrank 3 ({ } : NormalHmm 2)
    [[0, 1, 1]] [[0, 1], []] (1 / 100)
  rw [hh, hh'] at hrel
  obtain ⟨⟩ | ⟨hthreshold, hscores⟩ := hrel
  refine ⟨h, h', hh, hh', hthreshold, fun seq => ?_⟩
  obtain ⟨v, hv⟩ := hs seq
  obtain ⟨v', hv'⟩ := hs' seq
  have hle := hscores seq
  rw [hv, hv'] at hle
  obtain ⟨⟩ | ⟨hle⟩ := hle
  exact ⟨v, v', hv, hv', hle⟩

/-! ### An ensemble of one -/

theorem fuse_singleton (comb : Combination) (v : EReal) : comb.fuse [v] = v := by
  cases comb with
  | mean =>
    rw [Combination.fuse, meanScore, List.sum_singleton, List.length_singleton, Nat.cast_one,
      EReal.coe_one, div_one]
  | min => exact inf_top_eq v
  | max => exact sup_bot_eq v

/-- The score of an ensemble of one. -/
theorem score_of_members [Libraries] {h : EnsembleNormalHmm K} {m : NormalHmm K}
    (hm : h.members = [m]) (seq : List (Fin K)) : h.score seq = m.score seq := by
  rw [score, memberScores, hm, List.mapM_cons, List.mapM_nil]
  cases m.score seq with
  | error e => rfl
  | ok v => exact congrArg Except.ok (fuse_singleton h.combination v)

/-- **An ensemble of one is its member**: whatever the rule, it is trained as the model is, to the
same threshold and the same scores, or raises what the model raises. -/
theorem train_singleton [Libraries] (comb : Combination) (member : NormalHmm K)
    (sequences validation : List (List (Fin K))) (q : ℝ) :
    Related (fun h m => h.threshold = m.threshold ∧ ∀ seq, h.score seq = m.score seq)
      (train 1 comb member sequences validation q)
      (do let m ← member.fit sequences; m.calibrate validation q) := by
  have hnew : ∃ h, new 1 comb member = .ok h ∧ h.members = [member] :=
    ⟨_, dif_neg (by decide), by simp [List.range_succ]⟩
  obtain ⟨h, hh, hmem⟩ := hnew
  rw [train, hh, ok_bind]
  cases hfit : member.fit sequences with
  | error e =>
    have herr : h.fit sequences = .error e :=
      fit_eq_error (by rw [hmem, List.mapM_cons, hfit]; rfl)
    rw [herr]
    exact .error e
  | ok m =>
    have hms : (h.members.mapM fun m => m.fit sequences) = .ok [m] := by
      rw [hmem, List.mapM_cons, hfit]
      rfl
    obtain ⟨g, hg, hgm, -⟩ := exists_fit_eq_ok hms
    have hscore : g.score = m.score := funext (score_of_members hgm)
    rw [hg, ok_bind, ok_bind]
    cases ht : calibrated m.score validation q with
    | error e =>
      rw [calibrate_of_error (hscore ▸ ht), NormalHmm.calibrate_of_error ht]
      exact .error e
    | ok t =>
      obtain ⟨m', hm'⟩ := NormalHmm.exists_calibrate_of_ok ht
      obtain ⟨t', ht', hcal, hs⟩ := NormalHmm.calibrate_eq_ok hm'
      obtain rfl := Except.ok.inj (hcal.symm.trans ht)
      rw [calibrate_of_ok (hscore ▸ ht), hm']
      exact .ok ⟨ht'.symm, fun seq => (congrFun hscore seq).trans (congrFun hs seq).symm⟩

end EnsembleNormalHmm

end Waf
