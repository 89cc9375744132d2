import LfWaap.Hmm.Coverage

/-!
# What a training that raises leaves behind

Training is not a transaction. It records the sizes of its lists before anything else,
and it drops all models before it trains the first new one. So a training that raises
over a sequence it cannot extract keeps the models, and one that raises over a model
leaves the new models of the groups before it, in the order in which the partitions
occur, and nothing of the old ones (`Waf.PartitionedHmm.train_error`).

The closed example is a retraining that turns a trained object into an untrained one: a
second training on a request of one byte, of which hmmlearn makes a model without transitions
that it then refuses to score with.
-/

namespace Waf

open Python

variable [Interpreter] [Libraries] {c : HmmSettings}

/-! ### Extraction -/

omit [Libraries] in
/-- Grouping raises only what extracting one of the sequences raises. -/
theorem groupSequences_error {flows : List Flow} {e : PyError}
    (h : groupSequences c flows = .error e) : ∃ f ∈ flows, c.extractor.symbols f = .error e := by
  rw [groupSequences] at h
  generalize (Dict.empty : Groups c) = groups at h
  induction flows generalizing groups with
  | nil => cases h
  | cons f flows ih =>
    rw [List.foldlM_cons] at h
    cases hs : c.extractor.symbols f with
    | error e' =>
      rw [hs] at h
      obtain rfl := Except.error.inj h
      exact ⟨f, List.mem_cons_self, hs⟩
    | ok s =>
      rw [hs] at h
      obtain ⟨g, hg, hge⟩ := ih _ h
      exact ⟨g, List.mem_cons_of_mem _ hg, hge⟩

/-- Assessing asks the models only. -/
theorem PartitionedHmm.assess_congr {p p' : PartitionedHmm c} (h : p'.models = p.models) :
    p'.isTrained = p.isTrained ∧ ∀ f, p'.assess f = p.assess f := by
  constructor
  · rw [isTrained, isTrained, h]
  · intro f
    rw [assess, assess, h]

/-! ### What is left -/

/-- The models of the groups of a list, each trained on its group. -/
def PartitionedHmm.TrainedOn (p : PartitionedHmm c)
    (done : List (PartitionKey × List (List (Fin c.nSymbols)))) (valGroups : Groups c) : Prop :=
  ∀ k m, p.models.get? k = some m ↔ ∃ sequences, (k, sequences) ∈ done ∧
    Eligible c valGroups k sequences ∧ trainModel c sequences (valGroups.getD k []) = .ok m

/-- **What a training that raises leaves behind.** The sizes of its lists are recorded in
every case. If a sequence could not be extracted, the models are those before. Otherwise
some group's model raised: the models are those newly trained on the eligible groups
before it, and a flow of any other partition is no longer judged. -/
theorem PartitionedHmm.train_error {p p' : PartitionedHmm c} {normal validation : List Flow}
    {e : PyError} (h : p.train normal validation = (p', .error e)) :
    p'.trainCount = some normal.length ∧ p'.valCount = some validation.length ∧
      ((∃ f ∈ normal ++ validation, c.extractor.symbols f = .error e) ∧ p'.models = p.models ∧
          p'.isTrained = p.isTrained ∧ (∀ f, p'.assess f = p.assess f) ∨
        ∃ trainGroups valGroups done key sequences rest,
          groupSequences c normal = .ok trainGroups ∧
          groupSequences c validation = .ok valGroups ∧
          trainGroups.entries = done ++ (key, sequences) :: rest ∧
          Eligible c valGroups key sequences ∧
          trainModel c sequences (valGroups.getD key []) = .error e ∧
          p'.TrainedOn done valGroups ∧
          ∀ f, partitionKey f ∉ done.map Prod.fst →
            p'.assess f = .ok (.abstain (partitionKey f))) := by
  rcases p.train_cases normal validation with
    ⟨e', hraise, heq⟩ | ⟨trainGroups, valGroups, htrain, hval, heq⟩
  · rw [heq] at h
    obtain rfl := Except.error.inj (congrArg Prod.snd h)
    obtain rfl := congrArg Prod.fst h
    have hmodels : (p.counted normal validation).models = p.models := rfl
    refine ⟨rfl, rfl, Or.inl ⟨?_, hmodels, assess_congr hmodels⟩⟩
    rcases hraise with hn | ⟨-, hv⟩
    · obtain ⟨f, hf, hfe⟩ := groupSequences_error hn
      exact ⟨f, List.mem_append_left _ hf, hfe⟩
    · obtain ⟨f, hf, hfe⟩ := groupSequences_error hv
      exact ⟨f, List.mem_append_right _ hf, hfe⟩
  · rw [heq] at h
    obtain rfl := congrArg Prod.fst h
    obtain ⟨done, key, sequences, rest, hsplit, he, hfail, hok, hmodels⟩ :=
      trainLoop_error (congrArg Prod.snd h)
    have hnodup : (done.map Prod.fst).Nodup := by
      have hall := trainGroups.nodup
      rw [hsplit, List.map_append] at hall
      exact (List.nodup_append.mp hall).1
    refine ⟨rfl, rfl, Or.inr ⟨trainGroups, valGroups, done, key, sequences, rest, htrain, hval,
      hsplit, he, hfail, ?_, ?_⟩⟩
    · intro k m
      dsimp only
      rw [hmodels]
      exact get?_trainLoop_iff hnodup hok
    · intro f hf
      refine assess_of_not_covers ?_
      rintro ⟨m, hm, -⟩
      dsimp only at hm
      rw [hmodels, get?_trainLoop_of_notMem _ _ hf] at hm
      exact absurd hm nofun

/-! ### A model that is lost -/

omit [Libraries] in
/-- Of one symbol, libraries that look for transitions make a model without any, and no threshold
can be found with it. -/
theorem trainModel_observing (hS : c.nStates ≠ 0) (hsize : c.ensembleSize = 1) (hw : c.window = 0)
    (hcap : c.maxFitWindows = none) (hq : 0 < c.targetFpr ∧ c.targetFpr < 1)
    (x : Fin c.nSymbols) :
    @trainModel _ Libraries.observing c [[x]] [[x]] =
      .error (.valueError "transmat_ rows must sum to 1 (got row sums of [0.])") := by
  let _ : Libraries := .observing
  let m := (CategoricalHmm.memoryless c.nStates [[x]]).still
  have hfit : Libraries.fit c.nStates c.nSymbols c.randomState c.nIter [[x]] = .ok m := by
    refine (if_pos ⟨hS, List.cons_ne_nil x []⟩).trans (if_neg ?_)
    rintro ⟨w, hmem, hlen⟩
    obtain rfl := List.mem_singleton.mp hmem
    exact absurd hlen (by simp)
  have hscore : (c.fitted m).score [x] =
      .error (.valueError "transmat_ rows must sum to 1 (got row sums of [0.])") := by
    refine NormalHmm.score_of_error (h := c.fitted m) rfl (List.cons_ne_nil x []) ?_
      (if_neg (CategoricalHmm.not_stochastic_of_transmat hS rfl))
    exact fun h => absurd h.1 (by rw [HmmSettings.fitted, hw]; exact lt_irrefl 0)
  have hcal : calibrated (c.fitted m).score [[x]] c.targetFpr =
      .error (.valueError "transmat_ rows must sum to 1 (got row sums of [0.])") := by
    rw [calibrated, if_pos hq, List.filter_cons_of_pos (by simp), List.filter_nil, List.mapM_cons,
      hscore]
    rfl
  rw [trainModel_one hsize (Or.inl hw.le) hcap (List.cons_ne_nil x []) hfit,
    NormalHmm.calibrate_of_error hcal]
  rfl

omit [Libraries] in
/-- Of two symbols they make one that a threshold can be found with. -/
theorem exists_trainModel_observing (hS : c.nStates ≠ 0) (hsize : c.ensembleSize = 1)
    (hw : c.window = 0) (hcap : c.maxFitWindows = none) (hq : 0 < c.targetFpr ∧ c.targetFpr < 1)
    {s : List (Fin c.nSymbols)} (hs : 2 ≤ s.length) :
    ∃ m, @trainModel _ Libraries.observing c [s] [s] = .ok m := by
  let _ : Libraries := .observing
  have hne : s ≠ [] := List.length_pos_iff.mp (by omega)
  have hflat : [s].flatten ≠ [] := by
    rw [List.flatten_cons, List.flatten_nil, List.append_nil]
    exact hne
  let m := CategoricalHmm.memoryless c.nStates [s]
  have hfit : Libraries.fit c.nStates c.nSymbols c.randomState c.nIter [s] = .ok m :=
    (if_pos ⟨hS, hflat⟩).trans (if_pos ⟨s, List.mem_singleton_self s, hs⟩)
  have hhealthy : (c.fitted m).Healthy :=
    ⟨_, rfl, NormalHmm.smooth_stochastic (CategoricalHmm.memoryless_stochastic hS hflat) _,
      NormalHmm.smooth_ne_zero m (by norm_num)⟩
  have hscore : ∀ seq, ∃ v, (c.fitted m).score seq = .ok v := fun seq =>
    (NormalHmm.exists_score_of_healthy Libraries.documented_observing hhealthy seq).imp
      fun _ hv => hv.2
  obtain ⟨t, ht⟩ := exists_calibrated _ hscore hq ⟨s, List.mem_singleton_self s, hne⟩
  rw [trainModel_one hsize (Or.inl hw.le) hcap hne hfit, NormalHmm.calibrate_of_ok ht]
  exact ⟨_, rfl⟩

omit [Interpreter] [Libraries] in
/-- A training on a request of one byte, which such libraries cannot calibrate with. -/
theorem PartitionedHmm.train_error_short :
    let _ : Interpreter := .ascii
    let _ : Libraries := .observing
    let c : HmmSettings := { extractor := byteClassExtractor, nStates := 1, minTrain := 1 }
    let short := Flow.new (text "http") 80 .inbound [71]
    (({ } : PartitionedHmm c).train [short] [short]).1.trainCount = some 1 ∧
      ∀ f, (({ } : PartitionedHmm c).train [short] [short]).1.assess f =
        .ok (.abstain (partitionKey f)) := by
  intro _ _ c short
  let upper : Fin c.nSymbols := ⟨4, by decide⟩
  have hshort : c.extractor.symbols short = .ok [upper] := rfl
  have hq : 0 < c.targetFpr ∧ c.targetFpr < 1 := by norm_num
  have hone := train_one ({ } : PartitionedHmm c) hshort le_rfl (.cons hshort .nil)
    (fun g hg => by rw [List.mem_singleton.mp hg]) (List.cons_ne_nil _ _)
  rw [trainModel_observing one_ne_zero rfl rfl rfl hq upper] at hone
  obtain ⟨hcount, -, ⟨⟨f, hf, hfe⟩, -⟩ | ⟨trainGroups, _, done, _, _, rest, htrain, -, hentries, -,
    -, -, habstain⟩⟩ := train_error hone
  · rw [List.eq_of_mem_singleton (List.mem_append.mp hf |>.elim id id), hshort] at hfe
    cases hfe
  · have hgroup : trainGroups.entries = [(partitionKey short, [[upper]])] := by
      obtain rfl := Except.ok.inj htrain
      rfl
    have hnil : done = [] := by
      have hlen := congrArg List.length (hgroup.symm.trans hentries)
      simp only [List.length_append, List.length_cons, List.length_nil] at hlen
      exact List.length_eq_zero_iff.mp (by omega)
    rw [hone]
    exact ⟨hcount, fun f => habstain f (by rw [hnil]; exact List.not_mem_nil)⟩

omit [Interpreter] [Libraries] in
/-- **A retraining that raises loses the model**: after a training on `GET` the object is
trained; a second training, on a request of one byte, raises and leaves it untrained. -/
theorem PartitionedHmm.train_error_observing :
    let _ : Interpreter := .ascii
    let _ : Libraries := .observing
    let c : HmmSettings :=
      { extractor := byteClassExtractor, nStates := 1, minTrain := 1, targetFpr := 1 / 2 }
    let get := Flow.new (text "http") 80 .inbound [71, 69, 84]
    let short := Flow.new (text "http") 80 .inbound [71]
    let p := (({ } : PartitionedHmm c).train [get] [get]).1
    (({ } : PartitionedHmm c).train [get] [get]).2 = .ok () ∧ p.isTrained = true ∧
      (p.train [short] [short]).2 =
        .error (.valueError "transmat_ rows must sum to 1 (got row sums of [0.])") ∧
      (p.train [short] [short]).1.isTrained = false := by
  intro _ _ c get short p
  let upper : Fin c.nSymbols := ⟨4, by decide⟩
  have hget : c.extractor.symbols get = .ok [upper, upper, upper] := rfl
  have hshort : c.extractor.symbols short = .ok [upper] := rfl
  have hq : 0 < c.targetFpr ∧ c.targetFpr < 1 := half_rate
  have hkey : ∀ f : Flow, ∀ g ∈ [f], partitionKey g = partitionKey f := fun f g hg => by
    rw [List.mem_singleton.mp hg]
  obtain ⟨m, hm⟩ := exists_trainModel_observing (c := c) one_ne_zero rfl rfl rfl hq
    (s := [upper, upper, upper]) (by decide)
  have hfirst := train_one ({ } : PartitionedHmm c) hget le_rfl (.cons hget .nil) (hkey get)
    (List.cons_ne_nil _ _)
  rw [hm] at hfirst
  have hsecond := train_one p hshort le_rfl (.cons hshort .nil) (hkey short) (List.cons_ne_nil _ _)
  rw [trainModel_observing one_ne_zero rfl rfl rfl hq upper] at hsecond
  have hok : (({ } : PartitionedHmm c).train [get] [get]).2 = .ok () := by rw [hfirst]
  refine ⟨hok, ?_, by rw [hsecond], by rw [hsecond]; rfl⟩
  refine (isTrained_train_iff (Prod.ext rfl hok)).mpr ⟨partitionKey get, ?_⟩
  decide

end Waf
