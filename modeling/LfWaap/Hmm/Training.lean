import LfWaap.Hmm.FittedScores
import LfWaap.Hmm.PartitionedHmm

/-!
# What training yields

A model that comes out of training has a threshold, the quantile of the scores of the
validation sequences of its partition (`Waf.trainModel_spec`). When training returns, the
models are those of the eligible partitions, each trained on the sequences of its own flows
(`Waf.PartitionedHmm.train_spec`); so assessing a validation flow compares with the
threshold exactly the score that went into it
(`Waf.PartitionedHmm.assess_validation`).

Whether training returns is up to the libraries as well: a fit may raise, and so may a score.
`Waf.HmmSettings.Reliable` says that they do not, for models fitted on flows of some kind.
-/

namespace Waf

open Python Stats

open scoped NNReal

variable [Interpreter] [Libraries] {c : HmmSettings}

/-! ### One model -/

omit [Libraries] in
/-- A model object with the hyperparameters of the settings, as a member of an ensemble
if need be. -/
structure NormalHmm.Follows (h : NormalHmm c.nSymbols) : Prop where
  nStates : h.nStates = c.nStates
  window : h.window = c.window
  maxFitWindows : h.maxFitWindows = c.maxFitWindows
  smoothing : h.smoothing = 1 / 1000
  nIter : h.nIter = c.nIter
  randomState : ∃ i : ℕ, h.randomState = c.randomState + i

/-- A model with such members. -/
def OneClassModel.Follows : OneClassModel c.nSymbols → Prop
  | single h => h.Follows
  | ensemble e => ∀ h ∈ e.members, h.Follows

omit [Libraries] in
/-- **An untrained model can be built**, with the hyperparameters of the settings. -/
theorem exists_newModel : ∃ m : OneClassModel c.nSymbols, newModel c = .ok m ∧ m.Follows := by
  unfold newModel
  dsimp only
  by_cases hsize : 1 < c.ensembleSize
  · have hnot : ¬c.ensembleSize < 1 := by omega
    rw [if_pos hsize, EnsembleNormalHmm.new, dif_neg hnot]
    refine ⟨_, rfl, fun h₀ hmem => ?_⟩
    obtain ⟨i, -, rfl⟩ := List.mem_map.mp hmem
    exact ⟨rfl, rfl, rfl, rfl, rfl, i, rfl⟩
  · rw [if_neg hsize]
    exact ⟨_, rfl, rfl, rfl, rfl, rfl, rfl, 0, (add_zero _).symm⟩

omit [Libraries] in
theorem follows_of_newModel {m : OneClassModel c.nSymbols} (h : newModel c = .ok m) :
    m.Follows := by
  obtain ⟨m', hm', hf⟩ := exists_newModel (c := c)
  exact Except.ok.inj (hm'.symm.trans h) ▸ hf

omit [Interpreter] in
theorem members_of_fit {K : ℕ} {e e' : EnsembleNormalHmm K} {sequences : List (List (Fin K))}
    (h : e.fit sequences = .ok e') :
    e.members.mapM (fun m => m.fit sequences) = .ok e'.members := by
  unfold EnsembleNormalHmm.fit at h
  split at h
  · exact absurd h nofun
  · next ms hms =>
    obtain rfl := Except.ok.inj h
    exact hms

/-- **A trained model** has a threshold that is calibrated with its scores. -/
theorem trainModel_spec {sequences validation : List (List (Fin c.nSymbols))}
    {m : OneClassModel c.nSymbols} (h : trainModel c sequences validation = .ok m) :
    ∃ t, m.threshold = some t ∧
      calibrated (fun s => m.score s) validation c.targetFpr = .ok t := by
  obtain ⟨m₀, -, h⟩ := exists_of_bind_eq_ok h
  obtain ⟨m₁, -, hcal⟩ := exists_of_bind_eq_ok h
  obtain ⟨t, ht, hcalib, hsame⟩ := OneClassModel.calibrate_eq_ok hcal
  have hfun : (fun s => m.score s) = fun s => m₁.score s := funext hsame
  exact ⟨t, ht, by rw [hfun, hcalib]⟩

/-! ### The whole object -/

/-- **What training leaves behind when it returns**: the models of the loop over the
groups. -/
theorem PartitionedHmm.train_loop {p p' : PartitionedHmm c} {normal validation : List Flow}
    (h : p.train normal validation = (p', .ok ())) :
    ∃ trainGroups valGroups, groupSequences c normal = .ok trainGroups ∧
      groupSequences c validation = .ok valGroups ∧
      (trainLoop valGroups trainGroups.entries .empty).2 = .ok () ∧
      p'.models = (trainLoop valGroups trainGroups.entries .empty).1 := by
  rcases p.train_cases normal validation with
    ⟨e, -, he⟩ | ⟨trainGroups, valGroups, htrain, hval, heq⟩
  · rw [he] at h
    exact absurd (congrArg Prod.snd h) nofun
  · rw [heq] at h
    exact ⟨trainGroups, valGroups, htrain, hval, congrArg Prod.snd h,
      (congrArg (fun r => r.1.models) h).symm⟩

/-- The models after a training that returns, one by one. -/
theorem PartitionedHmm.train_spec {p p' : PartitionedHmm c} {normal validation : List Flow}
    (h : p.train normal validation = (p', .ok ())) :
    ∃ trainGroups valGroups, groupSequences c normal = .ok trainGroups ∧
      groupSequences c validation = .ok valGroups ∧
      ∀ k m, p'.models.get? k = some m ↔ ∃ sequences, (k, sequences) ∈ trainGroups.entries ∧
        Eligible c valGroups k sequences ∧
        trainModel c sequences (valGroups.getD k []) = .ok m := by
  obtain ⟨trainGroups, valGroups, htrain, hval, hok, hmodels⟩ := train_loop h
  refine ⟨trainGroups, valGroups, htrain, hval, fun k m => ?_⟩
  rw [hmodels]
  exact get?_trainLoop_iff trainGroups.nodup hok

/-- Every model after a training that returns was trained on sequences of its flows. -/
theorem PartitionedHmm.exists_trainModel_of_train {p p' : PartitionedHmm c}
    {normal validation : List Flow} (h : p.train normal validation = (p', .ok ()))
    {k : PartitionKey} {m : OneClassModel c.nSymbols} (hm : p'.models.get? k = some m) :
    ∃ sequences validation', (∀ s ∈ sequences, ∃ f ∈ normal, c.extractor.symbols f = .ok s) ∧
      trainModel c sequences validation' = .ok m := by
  obtain ⟨trainGroups, valGroups, htrain, -, hmodels⟩ := train_spec h
  obtain ⟨sequences, hk, -, hm⟩ := (hmodels k m).mp hm
  refine ⟨sequences, _, fun s hs => ?_, hm⟩
  obtain ⟨f, hf, -, hfs⟩ := exists_of_mem_group htrain ((getD_of_mem_entries hk).symm ▸ hs)
  exact ⟨f, hf, hfs⟩

omit [Interpreter] [Libraries] in
/-- A target rate for small examples. -/
theorem half_rate : (0 : ℝ) < 1 / 2 ∧ (1 / 2 : ℝ) < 1 := by norm_num

/-! ### Where fitting does not raise -/

omit [Libraries] in
/-- A window of the sequence of a flow of a kind. -/
def HmmSettings.IsWindow (c : HmmSettings) (kind : Flow → Prop) (w : List (Fin c.nSymbols)) :
    Prop :=
  ∃ f s, kind f ∧ c.extractor.symbols f = .ok s ∧ w ∈ slidingWindows s c.window

omit [Libraries] in
/-- A window of a flow is not empty. -/
theorem HmmSettings.IsWindow.ne_nil {kind : Flow → Prop} {w : List (Fin c.nSymbols)}
    (h : c.IsWindow kind w) : w ≠ [] := by
  obtain ⟨f, s, -, hs, hw⟩ := h
  have hpos := List.length_pos_iff.mpr (FeatureExtractor.symbols_ne_nil hs)
  unfold slidingWindows at hw
  split at hw
  · rw [List.mem_singleton.mp hw]
    exact FeatureExtractor.symbols_ne_nil hs
  · obtain ⟨i, hi, rfl⟩ := List.mem_map.mp hw
    rw [List.mem_range] at hi
    refine List.length_pos_iff.mp ?_
    rw [List.length_take, List.length_drop]
    omega

/-- **The libraries do not raise** under the settings, with the seed of any member of an
ensemble: windows of the flows of a kind can be fitted, and every sequence can be scored with
the smoothed model; a choice of no more elements than there are returns; and no negative number
of windows is asked for. -/
structure HmmSettings.Reliable (c : HmmSettings) (kind : Flow → Prop) : Prop where
  fit : ∀ (i : ℕ) (ws : List (List (Fin c.nSymbols))), ws ≠ [] → (∀ w ∈ ws, c.IsWindow kind w) →
    ∃ m, Libraries.fit c.nStates c.nSymbols (c.randomState + i) c.nIter ws = .ok m
  score : ∀ (i : ℕ) (ws : List (List (Fin c.nSymbols))) m, (∀ w ∈ ws, c.IsWindow kind w) →
    Libraries.fit c.nStates c.nSymbols (c.randomState + i) c.nIter ws = .ok m →
      ∀ seq ≠ [], ∃ v, Libraries.score (NormalHmm.smooth (1 / 1000) m) seq = .ok v
  choice : ∀ (i n : ℕ) (size : ℤ), 0 ≤ size → size ≤ n →
    ∃ is, Libraries.choice (c.randomState + i) n size = .ok is
  cap : ∀ cap, c.maxFitWindows = some cap → 0 ≤ cap

omit [Interpreter] in
/-- **What a model is fitted on**: some windows of the sequences that are not empty. -/
theorem NormalHmm.fitWindows_spec (hlib : Libraries.Documented) {K : ℕ} {h : NormalHmm K}
    {sequences ws : List (List (Fin K))} (hws : h.fitWindows sequences = .ok ws) :
    ws ≠ [] ∧ ∀ w ∈ ws, ∃ s ∈ sequences, w ∈ slidingWindows s h.window := by
  unfold fitWindows at hws
  dsimp only at hws
  split at hws
  · cases hws
  · next hfilter =>
    have hall : ∀ w ∈ (sequences.filter fun s => 0 < s.length).flatMap
        (fun s => slidingWindows s h.window), ∃ s ∈ sequences, w ∈ slidingWindows s h.window := by
      intro w hw
      obtain ⟨s, hs, hw⟩ := List.mem_flatMap.mp hw
      exact ⟨s, (List.mem_filter.mp hs).1, hw⟩
    have hwne : (sequences.filter fun s => 0 < s.length).flatMap
        (fun s => slidingWindows s h.window) ≠ [] := by
      obtain ⟨s, hs⟩ := List.exists_mem_of_ne_nil _ hfilter
      obtain ⟨w, hw⟩ := List.exists_mem_of_ne_nil _ (slidingWindows_ne_nil s h.window)
      exact List.ne_nil_of_mem (List.mem_flatMap.mpr ⟨s, hs, hw⟩)
    split at hws
    · exact Except.ok.inj hws ▸ ⟨hwne, hall⟩
    · split at hws
      · next hcap =>
        -- as many windows are picked as the cap says, which is not zero
        obtain ⟨is, his, rfl⟩ := exists_of_map_eq_ok hws
        constructor
        · have hlen := hlib.length_choice his
          rw [ne_eq, List.map_eq_nil_iff, ← List.length_eq_zero_iff]
          omega
        · intro w hw
          obtain ⟨i, hi, rfl⟩ := List.mem_map.mp hw
          have hlt := hlib.choice_lt his i hi
          rw [List.getD_eq_getElem _ _ hlt]
          exact hall _ (List.getElem_mem hlt)
      · exact Except.ok.inj hws ▸ ⟨hwne, hall⟩

omit [Interpreter] in
/-- There are some, unless a choice raises. -/
theorem NormalHmm.exists_fitWindows {K : ℕ} {h : NormalHmm K}
    (hchoice : ∀ (n : ℕ) (size : ℤ), 0 ≤ size → size ≤ n →
      ∃ is, Libraries.choice h.randomState n size = .ok is)
    (hcap : ∀ cap, h.maxFitWindows = some cap → 0 ≤ cap) {sequences : List (List (Fin K))}
    (hne : ∃ s ∈ sequences, s ≠ []) : ∃ ws, h.fitWindows sequences = .ok ws := by
  obtain ⟨s, hs, hsne⟩ := hne
  have hfilter : sequences.filter (fun s => 0 < s.length) ≠ [] :=
    List.ne_nil_of_mem (List.mem_filter.mpr ⟨hs, by simpa using List.length_pos_iff.mpr hsne⟩)
  unfold fitWindows
  simp only [if_neg hfilter]
  cases hmax : h.maxFitWindows with
  | none => exact ⟨_, rfl⟩
  | some cap =>
    dsimp only
    split
    · next hlt =>
      obtain ⟨is, his⟩ := hchoice _ cap (hcap cap hmax) hlt.2.le
      exact ⟨_, by rw [his]; rfl⟩
    · exact ⟨_, rfl⟩

omit [Interpreter] in
theorem NormalHmm.fit_eq {K : ℕ} {h : NormalHmm K} {sequences ws : List (List (Fin K))}
    (hws : h.fitWindows sequences = .ok ws) {m : CategoricalHmm h.nStates K}
    (hm : Libraries.fit h.nStates K h.randomState h.nIter ws = .ok m) :
    h.fit sequences =
      .ok { h with model := some (smooth h.smoothing m), fitted_of_calibrated := by simp } := by
  rw [fit, hws]
  change (Libraries.fit h.nStates K h.randomState h.nIter ws >>= _) = _
  rw [hm]
  rfl

section

variable {kind : Flow → Prop} {sequences : List (List (Fin c.nSymbols))}

/-- The model of a member that has been fitted on flows of the kind. -/
theorem NormalHmm.exists_of_fit (hlib : Libraries.Documented) {h h' : NormalHmm c.nSymbols}
    (hf : h.Follows) (hseqs : ∀ s ∈ sequences, ∃ f, kind f ∧ c.extractor.symbols f = .ok s)
    (hfit : h.fit sequences = .ok h') :
    ∃ (i : ℕ) (ws : _) (m : CategoricalHmm c.nStates c.nSymbols),
      ws ≠ [] ∧ (∀ w ∈ ws, c.IsWindow kind w) ∧
      Libraries.fit c.nStates c.nSymbols (c.randomState + i) c.nIter ws = .ok m ∧
      h' = { h with
        nStates := c.nStates
        model := some (smooth (1 / 1000) m), fitted_of_calibrated := by simp } := by
  obtain ⟨nStates, window, maxFitWindows, smoothing, nIter, randomState, model, threshold, hfc⟩ := h
  obtain ⟨hS, hwin, hcap, hε, hi, i, hr⟩ := hf
  dsimp only at hS hwin hcap hε hi hr
  subst hS hwin hcap hε hi hr
  obtain ⟨ws, m, hws, hm, rfl⟩ := exists_smoothed_of_fit hfit
  obtain ⟨hne, hall⟩ := fitWindows_spec hlib hws
  refine ⟨i, ws, m, hne, fun w hw => ?_, hm, rfl⟩
  obtain ⟨s, hs, hw⟩ := hall w hw
  obtain ⟨f, hf, hfs⟩ := hseqs s hs
  exact ⟨f, s, hf, hfs, hw⟩

theorem NormalHmm.exists_fit (hlib : Libraries.Documented) (hc : c.Reliable kind)
    {h : NormalHmm c.nSymbols} (hf : h.Follows)
    (hseqs : ∀ s ∈ sequences, ∃ f, kind f ∧ c.extractor.symbols f = .ok s)
    (hne : sequences ≠ []) : ∃ h', h.fit sequences = .ok h' := by
  obtain ⟨i, hr⟩ := hf.randomState
  obtain ⟨s, hs⟩ := List.exists_mem_of_ne_nil _ hne
  obtain ⟨f, -, hfs⟩ := hseqs s hs
  obtain ⟨ws, hws⟩ := exists_fitWindows (h := h) (fun n size => hr ▸ hc.choice i n size)
    (fun cap hcap => hc.cap cap (hf.maxFitWindows ▸ hcap))
    ⟨s, hs, FeatureExtractor.symbols_ne_nil hfs⟩
  obtain ⟨hwne, hall⟩ := fitWindows_spec hlib hws
  have hfit : ∃ m, Libraries.fit h.nStates c.nSymbols h.randomState h.nIter ws = .ok m := by
    rw [hf.nStates, hf.nIter, hr]
    refine hc.fit i ws hwne fun w hw => ?_
    obtain ⟨s, hs, hw⟩ := hall w hw
    obtain ⟨f, hf', hfs⟩ := hseqs s hs
    exact ⟨f, s, hf', hfs, hf.window ▸ hw⟩
  obtain ⟨m, hm⟩ := hfit
  exact ⟨_, fit_eq hws hm⟩

/-- What was fitted on flows of the kind is healthy, with libraries that do not raise. -/
theorem NormalHmm.healthy_of_fit (hlib : Libraries.Documented) (hc : c.Reliable kind)
    {h h' : NormalHmm c.nSymbols} (hf : h.Follows)
    (hseqs : ∀ s ∈ sequences, ∃ f, kind f ∧ c.extractor.symbols f = .ok s)
    (hfit : h.fit sequences = .ok h') : h'.Healthy := by
  obtain ⟨i, ws, m, hne, hws, hm, rfl⟩ := exists_of_fit hlib hf hseqs hfit
  -- a window can be scored, so the rows of the model are distributions
  obtain ⟨w, hw⟩ := List.exists_mem_of_ne_nil _ hne
  have hwne : w ≠ [] := (hws w hw).ne_nil
  have hs := (hlib.score_isOk_iff hwne).mp (hc.score i ws m hws hm w hwne)
  exact ⟨_, rfl, hs, smooth_ne_zero m (by norm_num)⟩

/-- **Fitting returns**, with libraries that do not raise. -/
theorem OneClassModel.exists_fit (hlib : Libraries.Documented) (hc : c.Reliable kind)
    {m : OneClassModel c.nSymbols} (hf : m.Follows)
    (hseqs : ∀ s ∈ sequences, ∃ f, kind f ∧ c.extractor.symbols f = .ok s)
    (hne : sequences ≠ []) : ∃ m', m.fit sequences = .ok m' := by
  cases m with
  | single h =>
    obtain ⟨h', hh'⟩ := NormalHmm.exists_fit hlib hc hf hseqs hne
    exact ⟨.single h', by rw [fit, hh']; rfl⟩
  | ensemble e =>
    obtain ⟨ms, hms⟩ := exists_mapM_eq_ok (fun m => NormalHmm.fit m sequences) e.members
      fun h hmem => NormalHmm.exists_fit hlib hc (hf h hmem) hseqs hne
    have hfit : ∃ e', e.fit sequences = .ok e' := by
      unfold EnsembleNormalHmm.fit
      split
      · next err herr => exact absurd (herr.symm.trans hms) nofun
      · exact ⟨_, rfl⟩
    obtain ⟨e', he'⟩ := hfit
    exact ⟨.ensemble e', by rw [fit, he']; rfl⟩

/-- **A fitted model scores every sequence**, with libraries that do not raise. -/
theorem OneClassModel.scores_of_fit (hlib : Libraries.Documented) (hc : c.Reliable kind)
    {m m' : OneClassModel c.nSymbols} (hf : m.Follows)
    (hseqs : ∀ s ∈ sequences, ∃ f, kind f ∧ c.extractor.symbols f = .ok s)
    (hfit : m.fit sequences = .ok m') : m'.Scores := by
  cases m with
  | single h =>
    obtain ⟨h', hfit', rfl⟩ := exists_of_map_eq_ok hfit
    exact scores_single hlib (NormalHmm.healthy_of_fit hlib hc hf hseqs hfit')
  | ensemble e =>
    obtain ⟨e', hfit', rfl⟩ := exists_of_map_eq_ok hfit
    refine scores_ensemble hlib fun h' hmem => ?_
    obtain ⟨h, hmem₀, hfit₀⟩ := exists_of_mem_values (members_of_fit hfit') hmem
    exact NormalHmm.healthy_of_fit hlib hc (hf h hmem₀) hseqs hfit₀

/-- So does a trained model. -/
theorem scores_of_trainModel (hlib : Libraries.Documented) (hc : c.Reliable kind)
    (hseqs : ∀ s ∈ sequences, ∃ f, kind f ∧ c.extractor.symbols f = .ok s)
    {validation : List (List (Fin c.nSymbols))} {m : OneClassModel c.nSymbols}
    (h : trainModel c sequences validation = .ok m) : m.Scores := by
  obtain ⟨m₀, hnew, h⟩ := exists_of_bind_eq_ok h
  obtain ⟨m₁, hfit, hcal⟩ := exists_of_bind_eq_ok h
  obtain ⟨-, -, -, hsame⟩ := OneClassModel.calibrate_eq_ok hcal
  intro seq
  rw [hsame seq]
  exact OneClassModel.scores_of_fit hlib hc (follows_of_newModel hnew) hseqs hfit seq

end

/-! ### Scores of `-∞` -/

omit [Interpreter] in
/-- A fit leaves positive emissions behind. -/
theorem NormalHmm.positive_of_fit {K : ℕ} {h h' : NormalHmm K} {sequences : List (List (Fin K))}
    (hε : 0 < h.smoothing) (hfit : h.fit sequences = .ok h') : h'.Positive := by
  obtain ⟨ws, m, -, -, rfl⟩ := exists_smoothed_of_fit hfit
  rintro m' hm' s x
  obtain rfl := Option.some.inj hm'
  exact smooth_ne_zero m hε s x

/-- **One score of `-∞`, all scores `-∞`**, of a trained model. -/
theorem score_eq_bot_of_trainModel (hlib : Libraries.Documented)
    {sequences validation : List (List (Fin c.nSymbols))} {m : OneClassModel c.nSymbols}
    (h : trainModel c sequences validation = .ok m) {s s' : List (Fin c.nSymbols)} (hne : s' ≠ [])
    {v : EReal} (hs : m.score s = .ok ⊥) (hs' : m.score s' = .ok v) : v = ⊥ := by
  obtain ⟨m₀, hnew, h⟩ := exists_of_bind_eq_ok h
  obtain ⟨m₁, hfit, hcal⟩ := exists_of_bind_eq_ok h
  obtain ⟨-, -, -, hsame⟩ := OneClassModel.calibrate_eq_ok hcal
  have hf := follows_of_newModel hnew
  have hε : ∀ {h : NormalHmm c.nSymbols}, h.Follows → 0 < h.smoothing := fun hf => by
    rw [hf.smoothing]
    norm_num
  have hpos : m₁.Positive := by
    cases m₀ with
    | single h =>
      obtain ⟨h', hfit', rfl⟩ := exists_of_map_eq_ok hfit
      exact NormalHmm.positive_of_fit (hε hf) hfit'
    | ensemble e =>
      obtain ⟨e', hfit', rfl⟩ := exists_of_map_eq_ok hfit
      intro h' hmem
      obtain ⟨h, hmem₀, hfit₀⟩ := exists_of_mem_values (members_of_fit hfit') hmem
      exact NormalHmm.positive_of_fit (hε (hf h hmem₀)) hfit₀
  rw [hsame] at hs hs'
  exact OneClassModel.score_eq_bot hlib hpos hne hs hs'

/-! ### Scores and thresholds -/

/-- The threshold of a trained model, and the scores it is the quantile of. -/
theorem calibrated_scores {m : OneClassModel c.nSymbols} {t : EReal}
    {validation : List (List (Fin c.nSymbols))}
    (ht : calibrated (fun s => m.score s) validation c.targetFpr = .ok t)
    (hne : ∀ s ∈ validation, s ≠ []) :
    (0 < c.targetFpr ∧ c.targetFpr < 1) ∧ ∃ scores,
      List.Forall₂ (fun s v => m.score s = .ok v) validation scores ∧ scores ≠ [] ∧
        t = npQuantile scores c.targetFpr := by
  obtain ⟨hq, scores, hs, hnil, ht⟩ := of_calibrated _ ht
  have hfilter : validation.filter (fun s => 0 < s.length) = validation :=
    List.filter_eq_self.mpr fun s hs => by simpa using List.length_pos_iff.mpr (hne s hs)
  rw [hfilter] at hs
  exact ⟨hq, scores, mapM_eq_ok_iff.mp hs, hnil, ht⟩

/-- **Training and assessing agree on the validation flows.** For every partition with
a model, the flows of this partition are judged by the scores that its threshold is the
quantile of; and if one of them is `-∞`, all are. -/
theorem PartitionedHmm.assess_validation (hlib : Libraries.Documented) {p p' : PartitionedHmm c}
    {normal validation : List Flow}
    (h : p.train normal validation = (p', .ok ())) {k : PartitionKey} (hk : k ∈ p'.models.keys) :
    ∃ t scores, scores ≠ [] ∧ t = npQuantile scores c.targetFpr ∧
      (⊥ ∈ scores → ∀ v ∈ scores, v = ⊥) ∧
      List.Forall₂ (fun f v => p'.assess f = .ok (.judged k t (decide (v < t)) v))
        (validation.filter fun f => partitionKey f = k) scores := by
  obtain ⟨trainGroups, valGroups, -, hval, hmodels⟩ := train_spec h
  obtain ⟨m, hm⟩ := Dict.mem_keys_iff.mp hk
  obtain ⟨sequences, -, -, htrain⟩ := (hmodels k m).mp hm
  obtain ⟨t, ht, hcal⟩ := trainModel_spec htrain
  have hgroup := (groupSequences_spec hval k).1
  have hne : ∀ s ∈ valGroups.getD k [], s ≠ [] := fun s => ne_nil_of_mem_group hval
  obtain ⟨-, scores, hall, hnil, htq⟩ := calibrated_scores hcal hne
  have hbot : ⊥ ∈ scores → ∀ v ∈ scores, v = ⊥ := fun hb v hv => by
    obtain ⟨s, -, hs⟩ := exists_of_mem_values (mapM_eq_ok_iff.mpr hall) hb
    obtain ⟨s', hs', hv⟩ := exists_of_mem_values (mapM_eq_ok_iff.mpr hall) hv
    exact score_eq_bot_of_trainModel hlib htrain (hne s' hs') hs hv
  refine ⟨t, scores, hnil, htq, hbot, ?_⟩
  have hmem : ∀ f ∈ validation.filter fun f => partitionKey f = k, partitionKey f = k := fun f hf =>
    by simpa using (List.mem_filter.mp hf).2
  clear hne hcal htq hnil hbot
  -- flow, sequence and score stand at the same position of the three lists
  generalize valGroups.getD k [] = group at hgroup hall
  generalize (validation.filter fun f => partitionKey f = k) = flows at hgroup hmem ⊢
  induction hgroup generalizing scores with
  | nil =>
    cases hall
    exact List.Forall₂.nil
  | @cons f s flows group hfs _ ih =>
    obtain ⟨v, scores, hsv, hrest, rfl⟩ := List.forall₂_cons_left_iff.mp hall
    refine List.Forall₂.cons ?_ (ih scores hrest fun g hg => hmem g (List.mem_cons_of_mem _ hg))
    have hkf : partitionKey f = k := hmem f List.mem_cons_self
    rw [assess_of_get? (hkf.symm ▸ hm) ht hfs, hsv, hkf]
    rfl

/-! ### Training returns -/

omit [Interpreter] [Libraries] in
theorem exists_calibrated {K : ℕ} (score : List (Fin K) → Except PyError EReal)
    (hs : ∀ s, ∃ v, score s = .ok v) {validation : List (List (Fin K))} {q : ℝ}
    (hq : 0 < q ∧ q < 1) (hne : ∃ s ∈ validation, s ≠ []) :
    ∃ t, calibrated score validation q = .ok t := by
  obtain ⟨scores, hscores⟩ := exists_mapM_eq_ok score
    (validation.filter fun s => 0 < s.length) fun s _ => hs s
  have hnil : scores ≠ [] := by
    rintro rfl
    obtain ⟨s, hmem, hsne⟩ := hne
    have hlen := length_of_mapM hscores
    have hpos : 0 < (validation.filter fun s => 0 < s.length).length :=
      List.length_pos_of_mem (List.mem_filter.mpr
        ⟨hmem, by simpa using List.length_pos_iff.mpr hsne⟩)
    simp only [List.length_nil] at hlen
    omega
  refine ⟨npQuantile scores q, ?_⟩
  rw [calibrated, if_pos hq, hscores]
  exact if_neg hnil

omit [Interpreter] in
theorem OneClassModel.exists_calibrate {K : ℕ} {m : OneClassModel K}
    (hs : ∀ seq, ∃ v, m.score seq = .ok v) {validation : List (List (Fin K))} {q : ℝ}
    (hq : 0 < q ∧ q < 1) (hne : ∃ s ∈ validation, s ≠ []) :
    ∃ m', m.calibrate validation q = .ok m' := by
  obtain ⟨t, ht⟩ := exists_calibrated (fun s => m.score s) hs hq hne
  exact exists_calibrate_of_ok ht

/-- A model that has been fitted is calibrated on any sequences that are not all
empty. -/
theorem exists_trainModel_of_fit (hq : 0 < c.targetFpr ∧ c.targetFpr < 1)
    {m₀ m₁ : OneClassModel c.nSymbols} {sequences validation : List (List (Fin c.nSymbols))}
    (hnew : newModel c = .ok m₀) (hfit : m₀.fit sequences = .ok m₁)
    (hs : ∀ seq, ∃ v, m₁.score seq = .ok v) (hval : ∃ s ∈ validation, s ≠ []) :
    ∃ m, trainModel c sequences validation = .ok m := by
  obtain ⟨m, hm⟩ := OneClassModel.exists_calibrate hs hq hval
  refine ⟨m, ?_⟩
  rw [trainModel, hnew, ok_bind, hfit, ok_bind, hm]

/-- **A model is trained** on the sequences of flows of the kind. -/
theorem exists_trainModel (hlib : Libraries.Documented) {kind : Flow → Prop} (hc : c.Reliable kind)
    (hq : 0 < c.targetFpr ∧ c.targetFpr < 1) {sequences validation : List (List (Fin c.nSymbols))}
    (hseqs : ∀ s ∈ sequences, ∃ f, kind f ∧ c.extractor.symbols f = .ok s)
    (hne : sequences ≠ []) (hval : ∃ s ∈ validation, s ≠ []) :
    ∃ m, trainModel c sequences validation = .ok m := by
  obtain ⟨m₀, hnew, hf⟩ := exists_newModel (c := c)
  obtain ⟨m₁, hfit⟩ := OneClassModel.exists_fit hlib hc hf hseqs hne
  have hs := OneClassModel.scores_of_fit hlib hc hf hseqs hfit
  refine exists_trainModel_of_fit hq hnew hfit (fun seq => ?_) hval
  obtain ⟨v, -, hv⟩ := hs seq
  exact ⟨v, hv⟩

/-- The loop returns when no eligible group makes a model raise. -/
theorem trainLoop_isOk {valGroups : Groups c}
    {groups : List (PartitionKey × List (List (Fin c.nSymbols)))}
    (h : ∀ g ∈ groups, Eligible c valGroups g.1 g.2 →
      ∃ m, trainModel c g.2 (valGroups.getD g.1 []) = .ok m) (models : Models c) :
    (trainLoop valGroups groups models).2 = .ok () := by
  induction groups generalizing models with
  | nil => rfl
  | cons g groups ih =>
    obtain ⟨key, sequences⟩ := g
    have hrest := fun models => ih (fun g hg => h g (List.mem_cons_of_mem _ hg)) models
    rw [trainLoop]
    split
    · next he =>
      obtain ⟨m, hm⟩ := h (key, sequences) List.mem_cons_self he
      simp only [hm]
      exact hrest _
    · exact hrest _

omit [Libraries] in
theorem exists_groupSequences {flows : List Flow} (h : ∀ f ∈ flows, c.extractor.Extracts f)
    (groups : Groups c) :
    ∃ groups', flows.foldlM (fun groups flow =>
      (c.extractor.symbols flow).map fun s => groups.appendAt (partitionKey flow) s) groups =
        .ok groups' := by
  induction flows generalizing groups with
  | nil => exact ⟨groups, rfl⟩
  | cons f flows ih =>
    obtain ⟨s, hs⟩ := c.extractor.symbols_of_extracts (h f List.mem_cons_self)
    rw [List.foldlM_cons, hs]
    exact ih (fun g hg => h g (List.mem_cons_of_mem _ hg)) _

/-- **Training does not raise** on flows whose sequences can be extracted, with a target
rate between 0 and 1 and libraries that do not raise. -/
theorem PartitionedHmm.train_isOk (hlib : Libraries.Documented) {kind : Flow → Prop}
    (hc : c.Reliable kind) (hq : 0 < c.targetFpr ∧ c.targetFpr < 1)
    {normal validation : List Flow} (hkind : ∀ f ∈ normal, kind f)
    (hn : ∀ f ∈ normal, c.extractor.Extracts f) (hv : ∀ f ∈ validation, c.extractor.Extracts f)
    (p : PartitionedHmm c) : (p.train normal validation).2 = .ok () := by
  obtain ⟨trainGroups, htrain⟩ := exists_groupSequences (c := c) hn .empty
  obtain ⟨valGroups, hval⟩ := exists_groupSequences (c := c) hv .empty
  have hloop : (trainLoop valGroups trainGroups.entries .empty).2 = .ok () := by
    refine trainLoop_isOk (fun g hg he => ?_) _
    obtain ⟨k, sequences⟩ := g
    have hgetD := getD_of_mem_entries hg
    obtain ⟨hgroup, hkeys⟩ := groupSequences_spec htrain k
    refine exists_trainModel hlib hc hq (fun s hs => ?_) ?_ ?_
    · obtain ⟨f, hf, -, hfs⟩ := exists_of_mem_group htrain (hgetD.symm ▸ hs)
      exact ⟨f, hkind f hf, hfs⟩
    · obtain ⟨f, hf, hfk⟩ := hkeys.mp (List.mem_map.mpr ⟨_, hg, rfl⟩)
      have hpos : 0 < (normal.filter fun f => partitionKey f = k).length :=
        List.length_pos_of_mem (List.mem_filter.mpr ⟨hf, by simpa using hfk⟩)
      rw [hgroup.length_eq, hgetD] at hpos
      exact List.length_pos_iff.mp hpos
    · obtain ⟨s, hs⟩ := List.exists_mem_of_ne_nil _ fun hnil => he (Or.inr hnil)
      exact ⟨s, hs, ne_nil_of_mem_group hval hs⟩
  have htrain' : groupSequences c normal = .ok trainGroups := htrain
  have hval' : groupSequences c validation = .ok valGroups := hval
  simp only [train, htrain', hval']
  exact hloop

/-- Every model that a training leaves behind scores every sequence, with libraries that do not
raise. -/
theorem PartitionedHmm.scores_of_train (hlib : Libraries.Documented) {kind : Flow → Prop}
    (hc : c.Reliable kind) {p p' : PartitionedHmm c} {normal validation : List Flow}
    (hkind : ∀ f ∈ normal, kind f) (h : p.train normal validation = (p', .ok ()))
    {k : PartitionKey} {m : OneClassModel c.nSymbols} (hm : p'.models.get? k = some m) :
    m.Scores := by
  obtain ⟨sequences, validation', hseqs, htrain⟩ := exists_trainModel_of_train h hm
  refine scores_of_trainModel hlib hc ?_ htrain
  exact fun s hs => (hseqs s hs).imp fun f hf => ⟨hkind f hf.1, hf.2⟩

/-- So none of them raises on a flow. -/
theorem PartitionedHmm.accepts_of_scores {p : PartitionedHmm c}
    (h : ∀ k m, p.models.get? k = some m → m.Scores) (f : Flow) : p.Accepts f := by
  intro m seq hm hcal _
  obtain ⟨v, -, hv⟩ := h _ m hm seq
  exact (OneClassModel.score_isOk_iff hcal).mp ⟨v, hv⟩

/-! ### Training on one flow -/

omit [Interpreter] in
/-- A sequence that is not longer than a window is the only one of its windows. -/
theorem NormalHmm.fitWindows_one {K : ℕ} {h : NormalHmm K} {s : List (Fin K)}
    (hw : h.window ≤ 0 ∨ s.length ≤ h.window) (hcap : h.maxFitWindows = none) (hs : s ≠ []) :
    h.fitWindows [s] = .ok [s] := by
  have hfilter : [s].filter (fun s => 0 < s.length) = [s] := by
    rw [List.filter_cons_of_pos (by simpa using List.length_pos_iff.mpr hs), List.filter_nil]
  rw [fitWindows, hcap]
  simp only [hfilter, List.flatMap_singleton, slidingWindows, if_pos hw]
  exact if_neg (List.cons_ne_nil s [])

/-- A single model that is trained on one such sequence. -/
theorem trainModel_one (hsize : c.ensembleSize = 1) {s : List (Fin c.nSymbols)}
    (hw : c.window ≤ 0 ∨ s.length ≤ c.window) (hcap : c.maxFitWindows = none) (hs : s ≠ [])
    {m : CategoricalHmm c.nStates c.nSymbols}
    (hm : Libraries.fit c.nStates c.nSymbols c.randomState c.nIter [s] = .ok m)
    (validation : List (List (Fin c.nSymbols))) :
    trainModel c [s] validation =
      ((c.fitted m).calibrate validation c.targetFpr).map OneClassModel.single := by
  let single : NormalHmm c.nSymbols := {
    nStates := c.nStates
    window := c.window
    maxFitWindows := c.maxFitWindows
    nIter := c.nIter
    randomState := c.randomState }
  have hnew : newModel c = .ok (.single single) := if_neg (by omega)
  have hfit : single.fit [s] = .ok (c.fitted m) :=
    NormalHmm.fit_eq (NormalHmm.fitWindows_one (h := single) hw hcap hs) hm
  rw [trainModel, hnew, ok_bind, OneClassModel.fit, hfit]
  rfl

/-- Training on one flow, and validating with some of its partition. -/
theorem PartitionedHmm.train_one (p : PartitionedHmm c) {f : Flow} {s : List (Fin c.nSymbols)}
    (hs : c.extractor.symbols f = .ok s) (hmin : c.minTrain ≤ 1) {validation : List Flow}
    {vs : List (List (Fin c.nSymbols))}
    (hvs : List.Forall₂ (fun g v => c.extractor.symbols g = .ok v) validation vs)
    (hkey : ∀ g ∈ validation, partitionKey g = partitionKey f) (hne : vs ≠ []) :
    p.train [f] validation =
      match trainModel c [s] vs with
      | .error e => ({ p.counted [f] validation with models := .empty }, .error e)
      | .ok m => ({ p.counted [f] validation with
          models := Dict.empty.set (partitionKey f) m }, .ok ()) := by
  let groups : Groups c := Dict.empty.appendAt (partitionKey f) s
  have hgroup : groupSequences c [f] = .ok groups := by
    rw [groupSequences, List.foldlM_cons, hs]
    rfl
  have hext : ∀ g ∈ validation, c.extractor.Extracts g := fun g hg => by
    obtain ⟨v, hv⟩ := exists_of_mem_of_mapM (mapM_eq_ok_iff.mpr hvs) hg
    exact ⟨_, FeatureExtractor.extract_of_symbols hv⟩
  obtain ⟨valGroups, hval⟩ := exists_groupSequences (c := c) hext .empty
  have hval' : groupSequences c validation = .ok valGroups := hval
  have hget : valGroups.getD (partitionKey f) [] = vs := by
    have hall := (groupSequences_spec hval' (partitionKey f)).1
    rw [List.filter_eq_self.mpr fun g hg => decide_eq_true (hkey g hg)] at hall
    exact Except.ok.inj ((mapM_eq_ok_iff.mpr hall).symm.trans (mapM_eq_ok_iff.mpr hvs))
  have he : Eligible c valGroups (partitionKey f) [s] := by
    rw [Eligible, hget, List.length_singleton]
    simpa using ⟨hmin, hne⟩
  have hentries : groups.entries = [(partitionKey f, [s])] := rfl
  unfold train
  simp only [hgroup, hval', hentries, trainLoop, if_pos he, hget]
  cases trainModel c [s] vs <;> rfl

/-- What such a training makes of a flow of the partition: it is judged by the single model. -/
theorem PartitionedHmm.assess_one {p p' : PartitionedHmm c} {f : Flow} {s : List (Fin c.nSymbols)}
    (hs : c.extractor.symbols f = .ok s) (hmin : c.minTrain ≤ 1) {validation : List Flow}
    {vs : List (List (Fin c.nSymbols))}
    (hvs : List.Forall₂ (fun g v => c.extractor.symbols g = .ok v) validation vs)
    (hkey : ∀ g ∈ validation, partitionKey g = partitionKey f) (hne : vs ≠ [])
    (hsize : c.ensembleSize = 1) (hw : c.window ≤ 0 ∨ s.length ≤ c.window)
    (hcap : c.maxFitWindows = none) {m : CategoricalHmm c.nStates c.nSymbols}
    (hm : Libraries.fit c.nStates c.nSymbols c.randomState c.nIter [s] = .ok m)
    (h : p.train [f] validation = (p', .ok ())) :
    ∃ t, p'.threshold? (partitionKey f) = some t ∧
      calibrated (c.fitted m).score vs c.targetFpr = .ok t ∧
      ∀ g, partitionKey g = partitionKey f → p'.assess g = c.extractor.symbols g >>= fun seq =>
        ((c.fitted m).score seq).map fun v => .judged (partitionKey f) t (decide (v < t)) v := by
  rw [train_one p hs hmin hvs hkey hne,
    trainModel_one hsize hw hcap (FeatureExtractor.symbols_ne_nil hs) hm] at h
  cases hcal : (c.fitted m).calibrate vs c.targetFpr with
  | error e =>
    rw [hcal] at h
    exact absurd (congrArg Prod.snd h) nofun
  | ok h₁ =>
    rw [hcal] at h
    obtain ⟨t, ht, hcalib, hscore⟩ := NormalHmm.calibrate_eq_ok hcal
    obtain rfl : _ = p' := congrArg Prod.fst h
    have hget : (Dict.empty.set (partitionKey f) (OneClassModel.single h₁) : Models c).get?
        (partitionKey f) = some (.single h₁) := by
      rw [Dict.get?_set, if_pos rfl]
    refine ⟨t, ?_, hcalib, fun g hg => ?_⟩
    · exact (congrArg (Option.bind · OneClassModel.threshold) hget).trans ht
    · have hget' : (Dict.empty.set (partitionKey f) (OneClassModel.single h₁) : Models c).get?
          (partitionKey g) = some (.single h₁) := by
        rw [hg]
        exact hget
      have hassess := assess_eq_bind (p := { p.counted [f] validation with
        models := Dict.empty.set (partitionKey f) (OneClassModel.single h₁) }) hget' (t := t) ht
      rw [hg] at hassess
      simp only [OneClassModel.score, hscore] at hassess
      exact hassess

/-! ### Libraries that do not raise -/

omit [Libraries] in
/-- The libraries without memory do not raise. -/
theorem HmmSettings.reliable_memoryless (hS : c.nStates ≠ 0)
    (hcap : ∀ cap, c.maxFitWindows = some cap → 0 ≤ cap) (kind : Flow → Prop) :
    @HmmSettings.Reliable _ Libraries.memoryless c kind := by
  let _ : Libraries := .memoryless
  refine ⟨fun i ws hne hws => ?_, fun i ws m _ hm seq hne => ?_,
    fun _ _ _ h0 hn => ⟨_, if_pos ⟨h0, hn⟩⟩, hcap⟩
  · obtain ⟨w, hw⟩ := List.exists_mem_of_ne_nil _ hne
    refine ⟨_, if_pos ⟨hS, fun hnil => ?_⟩⟩
    exact (hws w hw).ne_nil (List.flatten_eq_nil_iff.mp hnil w hw)
  · have hm' : (if c.nStates ≠ 0 ∧ ws.flatten ≠ [] then
        Except.ok (CategoricalHmm.memoryless c.nStates ws) else _) = Except.ok m := hm
    split at hm'
    · next h =>
      obtain rfl := Except.ok.inj hm'
      have hs := NormalHmm.smooth_stochastic (CategoricalHmm.memoryless_stochastic h.1 h.2)
      exact (Libraries.documented_memoryless.score_isOk_iff hne).mpr (hs _)
    · cases hm'

omit [Libraries] in
/-- Training with such libraries does not raise on flows of bytes. -/
theorem PartitionedHmm.train_memoryless (hS : c.nStates ≠ 0) (hcap : c.maxFitWindows = none)
    (hq : 0 < c.targetFpr ∧ c.targetFpr < 1) {normal validation : List Flow}
    (hn : ∀ f ∈ normal, f.packets = []) (hv : ∀ f ∈ validation, f.packets = [])
    (p : PartitionedHmm c) : (@train _ c Libraries.memoryless p normal validation).2 = .ok () := by
  let _ : Libraries := .memoryless
  exact train_isOk Libraries.documented_memoryless
    (HmmSettings.reliable_memoryless hS (fun cap h => absurd (hcap.symm.trans h) nofun)
      fun _ => True) hq (fun _ _ => trivial)
    (fun f hf => c.extractor.extract_isOk f (Flow.measurable_of_packets_eq_nil (hn f hf)))
    (fun f hf => c.extractor.extract_isOk f (Flow.measurable_of_packets_eq_nil (hv f hf))) p

omit [Interpreter] [Libraries] in
/-- The model without memory, smoothed, finds a symbol the more probable the more often it
occurs. -/
theorem CategoricalHmm.seqProb_smooth_memoryless {S K : ℕ} (hS : S ≠ 0) (ws : List (List (Fin K)))
    (ε : ℝ≥0) (x : Fin K) :
    (NormalHmm.smooth ε (memoryless S ws)).seqProb [x] =
      ((ws.flatten.count x : ℝ≥0) / ws.flatten.length + ε) /
        ∑ y, ((ws.flatten.count y : ℝ≥0) / ws.flatten.length + ε) := by
  rw [← Hmm.sum_forward]
  change ∑ _ : Fin S, (S : ℝ≥0)⁻¹ * (((ws.flatten.count x : ℝ≥0) / ws.flatten.length + ε) /
    ∑ y, ((ws.flatten.count y : ℝ≥0) / ws.flatten.length + ε)) = _
  rw [← Finset.sum_mul, sum_inv_card hS, one_mul]

omit [Libraries] in
/-- **A training on one flow, where flows of one symbol are validated**: the threshold is the
quantile of their scores, and a flow of one symbol has the lower score the more seldom the symbol
occurs. -/
theorem PartitionedHmm.assess_memoryless (p : PartitionedHmm c) {f : Flow}
    {s : List (Fin c.nSymbols)} (hs : c.extractor.symbols f = .ok s) (hmin : c.minTrain ≤ 1)
    (hS : c.nStates ≠ 0) (hsize : c.ensembleSize = 1) (hwin : c.window ≤ 0)
    (hcap : c.maxFitWindows = none) (hq : 0 < c.targetFpr ∧ c.targetFpr < 1)
    {validation : List Flow} {xs : List (Fin c.nSymbols)}
    (hxs : List.Forall₂ (fun g x => c.extractor.symbols g = .ok [x]) validation xs)
    (hkey : ∀ g ∈ validation, partitionKey g = partitionKey f) (hne : xs ≠ []) :
    let _ : Libraries := .memoryless
    ∃ (p' : PartitionedHmm c) (v : Fin c.nSymbols → EReal),
      p.train [f] validation = (p', .ok ()) ∧
      (∀ x, v x ∈ realNumbers) ∧ (∀ x y, v x < v y ↔ s.count x < s.count y) ∧
      p'.threshold? (partitionKey f) = some (npQuantile (xs.map v) c.targetFpr) ∧
      ∀ g x, partitionKey g = partitionKey f → c.extractor.symbols g = .ok [x] →
        p'.assess g = .ok (.judged (partitionKey f) (npQuantile (xs.map v) c.targetFpr)
          (decide (v x < npQuantile (xs.map v) c.targetFpr)) (v x)) := by
  intro _
  have hlib := Libraries.documented_memoryless
  have hvs : List.Forall₂ (fun g v => c.extractor.symbols g = .ok v) validation
      (xs.map fun x => [x]) := List.forall₂_map_right_iff.mpr hxs
  have hext : ∀ g ∈ validation, c.extractor.Extracts g := fun g hg => by
    obtain ⟨v, hv⟩ := exists_of_mem_of_mapM (mapM_eq_ok_iff.mpr hvs) hg
    exact ⟨_, FeatureExtractor.extract_of_symbols hv⟩
  have hext₀ : ∀ g ∈ [f], c.extractor.Extracts g := fun g hg => by
    rw [List.mem_singleton.mp hg]
    exact ⟨_, FeatureExtractor.extract_of_symbols hs⟩
  have hok := train_isOk hlib (HmmSettings.reliable_memoryless hS
    (fun cap h => absurd (hcap.symm.trans h) (Option.some_ne_none cap).symm) fun _ => True) hq
    (fun _ _ => trivial) hext₀ hext p
  have hsne := FeatureExtractor.symbols_ne_nil hs
  have hflat : [s].flatten = s := by rw [List.flatten_cons, List.flatten_nil, List.append_nil]
  let m := CategoricalHmm.memoryless c.nStates [s]
  have hm : Libraries.fit c.nStates c.nSymbols c.randomState c.nIter [s] = .ok m :=
    if_pos ⟨hS, hflat.symm ▸ hsne⟩
  obtain ⟨t, ht, hcal, hassess⟩ := assess_one hs hmin hvs hkey
    (List.map_eq_nil_iff.not.mpr hne) hsize (Or.inl hwin) hcap hm (Prod.ext rfl hok)
  -- the score of a symbol
  let prob : Fin c.nSymbols → ℝ≥0 := fun x => ((s.count x : ℝ≥0) / s.length + 1 / 1000) /
    ∑ y, ((s.count y : ℝ≥0) / s.length + 1 / 1000)
  have hstoch := NormalHmm.smooth_stochastic
    (CategoricalHmm.memoryless_stochastic hS (hflat.symm ▸ hsne)) (1 / 1000)
  have hscore : ∀ x, (c.fitted m).score [x] = .ok (log (prob x)) := fun x => by
    have hprob := CategoricalHmm.seqProb_smooth_memoryless hS [s] (1 / 1000) x
    rw [hflat] at hprob
    have hlog := hlib.score_of_stochastic hstoch (List.cons_ne_nil x [])
    rw [hprob] at hlog
    rw [NormalHmm.score_of_window_nonpos (h := c.fitted m) rfl hwin (List.cons_ne_nil x [])]
    refine (congrArg (Except.map _) hlog).trans ?_
    simp [Except.map, prob]
  have hpos : 0 < s.length := List.length_pos_iff.mpr hsne
  have hsum : 0 < ∑ y, ((s.count y : ℝ≥0) / s.length + 1 / 1000) :=
    Finset.sum_pos (fun y _ => by positivity) ⟨s.head hsne, Finset.mem_univ _⟩
  have hreal : ∀ x, log (prob x) ∈ realNumbers := fun x =>
    ⟨Real.log (prob x), log_of_ne_zero (div_pos (by positivity) hsum).ne'⟩
  have hmono : ∀ x y, log (prob x) < log (prob y) ↔ s.count x < s.count y := fun x y => by
    have hlen : (0 : ℝ≥0) < s.length := Nat.cast_pos.mpr hpos
    rw [log, log, ENNReal.log_lt_log_iff, ENNReal.coe_lt_coe, div_lt_div_iff_of_pos_right hsum,
      add_lt_add_iff_right, div_lt_div_iff_of_pos_right hlen, Nat.cast_lt]
  have ht' : t = npQuantile (xs.map fun x => log (prob x)) c.targetFpr := by
    obtain ⟨-, scores, hscores, -, rfl⟩ := of_calibrated _ hcal
    have hfilter : (xs.map fun x => [x]).filter (fun s => 0 < s.length) = xs.map fun x => [x] :=
      List.filter_eq_self.mpr fun s hs => by
        obtain ⟨x, -, rfl⟩ := List.mem_map.mp hs
        rfl
    have hall : (xs.map fun x => [x]).mapM (c.fitted m).score =
        .ok (xs.map fun x => log (prob x)) := by
      rw [mapM_eq_ok_iff, List.forall₂_map_left_iff, List.forall₂_map_right_iff]
      exact List.forall₂_same.mpr fun x _ => hscore x
    rw [hfilter] at hscores
    rw [Except.ok.inj (hscores.symm.trans hall)]
  refine ⟨_, fun x => log (prob x), Prod.ext rfl hok, hreal, hmono, ht' ▸ ht, fun g x hg hx => ?_⟩
  rw [hassess g hg, hx, ok_bind, hscore x, ← ht']
  rfl

end Waf
