import LfWaap.Hmm.HmmDetector
import LfWaap.Hmm.Training

/-!
# Which partitions are covered

The documented rule: a partition gets a model if the normal flows hold enough of its
flows and the validation flows at least one. After a training that returns this is
exactly so (`Waf.PartitionedHmm.mem_keys_train_iff`), every model is calibrated, and
the object counts as trained exactly when the rule holds of some partition
(`Waf.PartitionedHmm.isTrained_train_iff`).
-/

namespace Waf

open Python

variable [Interpreter] {c : HmmSettings}

/-! ### The rule -/

/-- **The rule**: there are at least `minTrain` normal flows of a partition, and at least
one, and at least one validation flow. -/
def Coverable (c : HmmSettings) (normal validation : List Flow) (k : PartitionKey) : Prop :=
  max 1 c.minTrain ≤ ((normal.filter fun f => partitionKey f = k).length : ℤ) ∧
    1 ≤ (validation.filter fun f => partitionKey f = k).length

instance (normal validation : List Flow) (k : PartitionKey) :
    Decidable (Coverable c normal validation k) :=
  inferInstanceAs (Decidable (_ ∧ _))

/-- The groups that get a model are those of the partitions the rule holds of. -/
theorem eligible_iff_coverable {normal validation : List Flow} {trainGroups valGroups : Groups c}
    (htrain : groupSequences c normal = .ok trainGroups)
    (hval : groupSequences c validation = .ok valGroups) {k : PartitionKey}
    {sequences : List (List (Fin c.nSymbols))} (hk : (k, sequences) ∈ trainGroups.entries) :
    Eligible c valGroups k sequences ↔ Coverable c normal validation k := by
  obtain ⟨hall, hkeys⟩ := groupSequences_spec htrain k
  have hallv := (groupSequences_spec hval k).1
  rw [getD_of_mem_entries hk] at hall
  -- the group is not empty, since its partition is that of some normal flow
  obtain ⟨f, hf, hfk⟩ := hkeys.mp (List.mem_map.mpr ⟨_, hk, rfl⟩)
  have hpos : 0 < (normal.filter fun f => partitionKey f = k).length :=
    List.length_pos_of_mem (List.mem_filter.mpr ⟨hf, by simpa using hfk⟩)
  have hlen := hall.length_eq
  have hlenv := hallv.length_eq
  rw [Eligible, Coverable, not_or, ← List.length_eq_zero_iff, ← hlenv, ← hlen]
  constructor
  · rintro ⟨hmin, hne⟩
    omega
  · rintro ⟨hmin, hne⟩
    omega

/-! ### After a training that returns -/

variable [Libraries] {p p' : PartitionedHmm c} {normal validation : List Flow}

/-- **The partitions with a model** are those the rule holds of. -/
theorem PartitionedHmm.mem_keys_train_iff (h : p.train normal validation = (p', .ok ()))
    {k : PartitionKey} : k ∈ p'.models.keys ↔ Coverable c normal validation k := by
  obtain ⟨trainGroups, valGroups, htrain, hval, hok, hmodels⟩ := train_loop h
  rw [Dict.mem_keys_iff, hmodels]
  constructor
  · rintro ⟨m, hm⟩
    obtain ⟨sequences, hk, he, -⟩ := (get?_trainLoop_iff trainGroups.nodup hok).mp hm
    exact (eligible_iff_coverable htrain hval hk).mp he
  · intro hcov
    -- enough normal flows of a partition put it among the groups
    have hpos : 0 < (normal.filter fun f => partitionKey f = k).length := by
      have := hcov.1
      omega
    obtain ⟨f, hf⟩ := List.exists_mem_of_length_pos hpos
    obtain ⟨hf, hfk⟩ := List.mem_filter.mp hf
    have hkey : k ∈ trainGroups.keys :=
      ((groupSequences_spec htrain k).2).mpr ⟨f, hf, by simpa using hfk⟩
    obtain ⟨sequences, hs⟩ := Dict.mem_keys_iff.mp hkey
    have hk := Dict.mem_entries_iff.mpr hs
    have he := (eligible_iff_coverable htrain hval hk).mpr hcov
    obtain ⟨m, hm⟩ := exists_trainModel_of_trainLoop trainGroups.nodup hok hk he
    exact ⟨m, (get?_trainLoop_iff trainGroups.nodup hok).mpr ⟨sequences, hk, he, hm⟩⟩

/-- Every model is calibrated. -/
theorem PartitionedHmm.isCalibrated_of_train (h : p.train normal validation = (p', .ok ()))
    {k : PartitionKey} {m : OneClassModel c.nSymbols} (hm : p'.models.get? k = some m) :
    m.isCalibrated = true := by
  obtain ⟨trainGroups, valGroups, -, -, hmodels⟩ := train_spec h
  obtain ⟨sequences, -, -, htrain⟩ := (hmodels k m).mp hm
  obtain ⟨t, ht, -⟩ := trainModel_spec htrain
  exact m.isCalibrated_iff.mpr ⟨t, ht⟩

/-- **The object is trained** exactly when the rule holds of some partition. -/
theorem PartitionedHmm.isTrained_train_iff (h : p.train normal validation = (p', .ok ())) :
    p'.isTrained = true ↔ ∃ k, Coverable c normal validation k := by
  rw [isTrained, List.any_eq_true]
  constructor
  · rintro ⟨⟨k, m⟩, hmem, -⟩
    exact ⟨k, (mem_keys_train_iff h).mp (List.mem_map.mpr ⟨_, hmem, rfl⟩)⟩
  · rintro ⟨k, hk⟩
    obtain ⟨m, hm⟩ := Dict.mem_keys_iff.mp ((mem_keys_train_iff h).mpr hk)
    exact ⟨(k, m), Dict.mem_entries_iff.mpr hm, isCalibrated_of_train h hm⟩

/-- **A flow is covered** after a training exactly when the rule holds of its partition. -/
theorem PartitionedHmm.covers_train_iff (h : p.train normal validation = (p', .ok ())) {f : Flow} :
    p'.Covers f ↔ Coverable c normal validation (partitionKey f) := by
  rw [← mem_keys_train_iff h, Dict.mem_keys_iff]
  constructor
  · rintro ⟨m, hm, -⟩
    exact ⟨m, hm⟩
  · rintro ⟨m, hm⟩
    exact ⟨m, hm, isCalibrated_of_train h hm⟩

omit [Interpreter] [Libraries] in
/-- A detector trained on one request covers its partition. -/
theorem HmmDetector.covers_one :
    let _ : Interpreter := .ascii
    let _ : Libraries := .memoryless
    let c : HmmSettings :=
      { extractor := byteClassExtractor, nStates := 1, minTrain := 1, targetFpr := 1 / 2 }
    let flow := Flow.new (text "http") 80 .inbound [71, 69, 84]
    ∀ f : Flow, partitionKey f = partitionKey flow →
      (HmmDetector.train ⟨c, { }⟩ [flow] [flow]).1.partitioned.Covers f := by
  intro _ _ c flow f hf
  have hq : 0 < c.targetFpr ∧ c.targetFpr < 1 := half_rate
  have hp : ∀ f ∈ [flow], f.packets = [] := fun f hf => by rw [List.mem_singleton.mp hf]; rfl
  have hok : (({ } : PartitionedHmm c).train [flow] [flow]).2 = .ok () :=
    PartitionedHmm.train_memoryless (by decide) rfl hq hp hp _
  refine (PartitionedHmm.covers_train_iff (Prod.ext rfl hok)).mpr ?_
  rw [hf]
  decide

omit [Interpreter] [Libraries] in
/-- A detector trained on one request. -/
theorem HmmDetector.isTrained_one :
    let _ : Interpreter := .ascii
    let _ : Libraries := .memoryless
    let c : HmmSettings :=
      { extractor := byteClassExtractor, nStates := 1, minTrain := 1, targetFpr := 1 / 2 }
    let flow := Flow.new (text "http") 80 .inbound [71, 69, 84]
    (HmmDetector.train ⟨c, { }⟩ [flow] [flow]).1.isTrained = true := by
  intro _ _ c flow
  have hq : 0 < c.targetFpr ∧ c.targetFpr < 1 := half_rate
  have hp : ∀ f ∈ [flow], f.packets = [] := fun f hf => by rw [List.mem_singleton.mp hf]; rfl
  have hok : (({ } : PartitionedHmm c).train [flow] [flow]).2 = .ok () :=
    PartitionedHmm.train_memoryless (by decide) rfl hq hp hp _
  refine (PartitionedHmm.isTrained_train_iff (Prod.ext rfl hok)).mpr ⟨partitionKey flow, ?_⟩
  decide

omit [Interpreter] [Libraries] in
/-- It does not raise over a flow. -/
theorem HmmDetector.accepts_one :
    let _ : Interpreter := .ascii
    let _ : Libraries := .memoryless
    let c : HmmSettings :=
      { extractor := byteClassExtractor, nStates := 1, minTrain := 1, targetFpr := 1 / 2 }
    let flow := Flow.new (text "http") 80 .inbound [71, 69, 84]
    ∀ f, (HmmDetector.train ⟨c, { }⟩ [flow] [flow]).1.partitioned.Accepts f := by
  intro _ _ c flow
  have hc : c.Reliable fun _ => True := HmmSettings.reliable_memoryless one_ne_zero
    (fun cap h => absurd h.symm (Option.some_ne_none cap)) _
  have hp : ∀ f ∈ [flow], f.packets = [] := fun f hf => by rw [List.mem_singleton.mp hf]; rfl
  have hok : (({ } : PartitionedHmm c).train [flow] [flow]).2 = .ok () :=
    PartitionedHmm.train_memoryless one_ne_zero rfl half_rate hp hp _
  exact PartitionedHmm.accepts_of_scores fun _ _ => PartitionedHmm.scores_of_train
    Libraries.documented_memoryless hc (fun _ _ => trivial) (Prod.ext rfl hok)

/-! ### A model without transitions -/

omit [Interpreter] [Libraries] in
/-- **A trained detector that raises.** A model of windows of length 20 is fitted on a flow of one
symbol, so it has no transitions, and is calibrated on a flow that is longer than a window. Longer
flows are scored by their windows. Over a shorter one hmmlearn is asked, and raises. -/
theorem HmmDetector.assess_still :
    let _ : Interpreter := .ascii
    let _ : Libraries := .observing
    let c : HmmSettings := {
      extractor := byteClassExtractor
      nStates := 1
      window := 20
      minTrain := 1
      targetFpr := 1 / 2 }
    let byte := Flow.new (text "http") 80 .inbound [71]
    let long := Flow.new (text "http") 80 .inbound (List.replicate 25 71)
    let d := (HmmDetector.train ⟨c, { }⟩ [byte] [long]).1
    (HmmDetector.train ⟨c, { }⟩ [byte] [long]).2 = .ok () ∧ d.isTrained = true ∧
      (∀ f, partitionKey f = partitionKey byte → f.payload.length ≤ 20 → d.assessFlow f =
        .error (.valueError "transmat_ rows must sum to 1 (got row sums of [0.])")) ∧
      ∀ f, partitionKey f = partitionKey byte → 20 < f.payload.length →
        ∃ a, d.assessFlow f = .ok a := by
  intro _ _ c byte long d
  let upper : Fin c.nSymbols := ⟨4, by decide⟩
  have hbyte : c.extractor.symbols byte = .ok [upper] := rfl
  have hlong : c.extractor.symbols long = .ok (List.replicate 25 upper) := rfl
  have hvs : List.Forall₂ (fun g v => c.extractor.symbols g = .ok v) [long]
      [List.replicate 25 upper] := .cons hlong .nil
  have hkey : ∀ g ∈ [long], partitionKey g = partitionKey byte := fun g hg => by
    rw [List.mem_singleton.mp hg]
    rfl
  let m := (CategoricalHmm.memoryless c.nStates [[upper]]).still
  have hfit : Libraries.fit c.nStates c.nSymbols c.randomState c.nIter [[upper]] = .ok m := by
    refine (if_pos ⟨one_ne_zero, List.cons_ne_nil upper []⟩).trans (if_neg ?_)
    rintro ⟨w, hmem, hlen⟩
    obtain rfl := List.mem_singleton.mp hmem
    exact absurd hlen (by simp)
  have hscored : ∀ seq : List (Fin c.nSymbols), 20 < seq.length →
      ∃ v, (c.fitted m).score seq = .ok v := fun seq hlen => by
    refine NormalHmm.score_isOk_iff.mpr ⟨rfl, fun _ _ _ h => absurd ⟨by decide, ?_⟩ h⟩
    exact Int.ofNat_lt.mpr hlen
  have hraises : ∀ seq : List (Fin c.nSymbols), seq ≠ [] → seq.length ≤ 20 →
      (c.fitted m).score seq =
        .error (.valueError "transmat_ rows must sum to 1 (got row sums of [0.])") :=
    fun seq hne hlen => NormalHmm.score_of_error (h := c.fitted m) rfl hne
      (fun h => absurd hlen (not_le.mpr (Int.ofNat_lt.mp h.2)))
      (if_neg (CategoricalHmm.not_stochastic_of_transmat one_ne_zero rfl))
  obtain ⟨t, ht⟩ : ∃ t, calibrated (c.fitted m).score [List.replicate 25 upper] c.targetFpr =
      .ok t := by
    obtain ⟨v, hv⟩ := hscored (List.replicate 25 upper) (by decide)
    refine ⟨npQuantile [v] c.targetFpr, ?_⟩
    rw [calibrated, if_pos half_rate, List.filter_cons_of_pos (by decide), List.filter_nil,
      List.mapM_cons, hv]
    rfl
  have hok : (({ } : PartitionedHmm c).train [byte] [long]).2 = .ok () := by
    rw [PartitionedHmm.train_one _ hbyte le_rfl hvs hkey (List.cons_ne_nil _ _),
      trainModel_one rfl (Or.inr (by decide)) rfl (List.cons_ne_nil _ _) hfit,
      NormalHmm.calibrate_of_ok ht]
    rfl
  obtain ⟨t', -, -, hassess⟩ := PartitionedHmm.assess_one hbyte le_rfl hvs hkey
    (List.cons_ne_nil _ _) rfl (Or.inr (by decide)) rfl hfit (Prod.ext rfl hok)
  have hsymbols : ∀ f : Flow, ∃ seq, c.extractor.symbols f = .ok seq ∧
      seq.length = max 1 f.payload.length := fun f => by
    obtain ⟨seq, hseq⟩ := FeatureExtractor.symbols_of_extracts (x := c.extractor) (f := f) ⟨_, rfl⟩
    have hlen := congrArg List.length (Except.ok.inj (FeatureExtractor.extract_of_symbols hseq))
    rw [length_nonempty, List.length_map, List.length_map] at hlen
    exact ⟨seq, hseq, hlen.symm⟩
  refine ⟨hok, ?_, fun f hf hlen => ?_, fun f hf hlen => ?_⟩
  · exact (PartitionedHmm.isTrained_train_iff (Prod.ext rfl hok)).mpr ⟨partitionKey byte, by decide⟩
  · obtain ⟨seq, hseq, hseqlen⟩ := hsymbols f
    refine (hassess f hf).trans ?_
    rw [hseq, ok_bind, hraises seq (FeatureExtractor.symbols_ne_nil hseq) (by omega)]
    rfl
  · obtain ⟨seq, hseq, hseqlen⟩ := hsymbols f
    obtain ⟨v, hv⟩ := hscored seq (by omega)
    have hjudged : d.assessFlow f = .ok (.judged (partitionKey byte) t' (decide (v < t')) v) := by
      refine (hassess f hf).trans ?_
      rw [hseq, ok_bind, hv]
      rfl
    exact ⟨_, hjudged⟩

end Waf
