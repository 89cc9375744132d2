import LfWaap.Hmm.Training

/-!
# Partitions do not interfere

Training groups the flows of all partitions in one pass and trains the models one after
another, yet what it learns about a partition depends on the flows of this partition
alone: on its normal flows in their order, and on its validation flows in any order,
since a quantile does not see the order of its sample. Two trainings that agree on a
partition give the same model for it, whatever else they are given
(`Waf.PartitionedHmm.assess_eq_of_partition`).
-/

namespace Waf

open Python Stats

variable [Interpreter] {c : HmmSettings}

/-! ### One group -/

/-- Flows with one partition in common, in the same order, have the same group there. -/
theorem getD_groupSequences_congr {flows flows' : List Flow} {groups groups' : Groups c}
    (h : groupSequences c flows = .ok groups) (h' : groupSequences c flows' = .ok groups')
    {k : PartitionKey}
    (hk : (flows.filter fun f => partitionKey f = k) = flows'.filter fun f => partitionKey f = k) :
    groups.getD k [] = groups'.getD k [] := by
  have hall := mapM_eq_ok_iff.mpr (groupSequences_spec h k).1
  have hall' := mapM_eq_ok_iff.mpr (groupSequences_spec h' k).1
  rw [hk, hall'] at hall
  exact (Except.ok.inj hall).symm

/-- In another order, they have the same sequences in another order. -/
theorem getD_groupSequences_perm {flows flows' : List Flow} {groups groups' : Groups c}
    (h : groupSequences c flows = .ok groups) (h' : groupSequences c flows' = .ok groups')
    {k : PartitionKey} (hk : (flows.filter fun f => partitionKey f = k).Perm
      (flows'.filter fun f => partitionKey f = k)) :
    (groups.getD k []).Perm (groups'.getD k []) := by
  have hall := mapM_eq_ok_iff.mpr (groupSequences_spec h k).1
  have hall' := mapM_eq_ok_iff.mpr (groupSequences_spec h' k).1
  obtain ⟨ys, hys, hperm⟩ := mapM_perm hk hall
  rwa [Except.ok.inj (hall'.symm.trans hys)]

variable [Libraries]

/-- **A model is trained on the validation sequences as a multiset.** -/
theorem trainModel_perm {sequences validation validation' : List (List (Fin c.nSymbols))}
    (h : validation.Perm validation') {m : OneClassModel c.nSymbols}
    (hm : trainModel c sequences validation = .ok m) :
    trainModel c sequences validation' = .ok m := by
  obtain ⟨m₀, hnew, hm⟩ := exists_of_bind_eq_ok hm
  obtain ⟨m₁, hfit, hcal⟩ := exists_of_bind_eq_ok hm
  obtain ⟨t, -, ht, -⟩ := OneClassModel.calibrate_eq_ok hcal
  -- the validation sequences are seen through the threshold alone
  have ht' := calibrated_perm (fun s => m₁.score s) h ht
  rw [trainModel, hnew, ok_bind, hfit, ok_bind, ← OneClassModel.calibrate_congr ht ht', hcal]

/-! ### Two trainings -/

variable {p p' q q' : PartitionedHmm c} {normal validation normal' validation' : List Flow}
  {k : PartitionKey}

/-- What one training learns about a partition, the other learns as well. -/
theorem PartitionedHmm.get?_of_partition (hp : p.train normal validation = (p', .ok ()))
    (hq : q.train normal' validation' = (q', .ok ()))
    (hn : (normal.filter fun f => partitionKey f = k) = normal'.filter fun f => partitionKey f = k)
    (hv : (validation.filter fun f => partitionKey f = k).Perm
      (validation'.filter fun f => partitionKey f = k)) {m : OneClassModel c.nSymbols}
    (hm : p'.models.get? k = some m) : q'.models.get? k = some m := by
  obtain ⟨trainGroups, valGroups, htrain, hval, hmodels⟩ := train_spec hp
  obtain ⟨trainGroups', valGroups', htrain', hval', hmodels'⟩ := train_spec hq
  obtain ⟨sequences, hmem, he, hmodel⟩ := (hmodels k m).mp hm
  have hgroup := getD_groupSequences_congr htrain htrain' hn
  have hperm := getD_groupSequences_perm hval hval' hv
  -- the partition is among the groups of both trainings, since it has a normal flow
  have hkey : k ∈ trainGroups'.keys := by
    obtain ⟨f, hf, hfk⟩ := ((groupSequences_spec htrain k).2).mp
      (List.mem_map.mpr ⟨_, hmem, rfl⟩)
    have hf' : f ∈ normal'.filter fun f => partitionKey f = k :=
      hn ▸ List.mem_filter.mpr ⟨hf, by simpa using hfk⟩
    obtain ⟨hf', hfk'⟩ := List.mem_filter.mp hf'
    exact ((groupSequences_spec htrain' k).2).mpr ⟨f, hf', by simpa using hfk'⟩
  obtain ⟨sequences', hs'⟩ := Dict.mem_keys_iff.mp hkey
  have hsame : sequences' = sequences := by
    have h := Dict.mem_entries_iff.mp hmem
    rw [Dict.getD, Dict.getD, h, hs'] at hgroup
    exact hgroup.symm
  refine (hmodels' k m).mpr ⟨sequences, ?_, ?_, trainModel_perm hperm hmodel⟩
  · rw [← hsame]
    exact Dict.mem_entries_iff.mpr hs'
  · rw [Eligible] at he ⊢
    intro hnot
    refine he (hnot.imp_right fun hnil => ?_)
    rw [hnil] at hperm
    exact hperm.eq_nil

/-- **Partitions do not interfere.** Two trainings that return, and that are given the
same normal flows of a partition in the same order and the same validation flows of it in
any order, have the same model for it: its flows are compared with the same threshold,
and each of them is assessed alike. -/
theorem PartitionedHmm.assess_eq_of_partition (hp : p.train normal validation = (p', .ok ()))
    (hq : q.train normal' validation' = (q', .ok ()))
    (hn : (normal.filter fun f => partitionKey f = k) = normal'.filter fun f => partitionKey f = k)
    (hv : (validation.filter fun f => partitionKey f = k).Perm
      (validation'.filter fun f => partitionKey f = k)) :
    p'.threshold? k = q'.threshold? k ∧
      ∀ f, partitionKey f = k → p'.assess f = q'.assess f := by
  have hmodel : p'.models.get? k = q'.models.get? k := by
    refine Option.ext fun m => ⟨?_, ?_⟩
    · exact get?_of_partition hp hq hn hv
    · exact get?_of_partition hq hp hn.symm hv.symm
  constructor
  · rw [threshold?, threshold?, hmodel]
  · rintro f rfl
    rw [assess, assess, hmodel]

omit [Interpreter] [Libraries] in
/-- Two flows of one service, and a retraining with a flow of another service in
between. -/
theorem PartitionedHmm.assess_eq_of_partition_interleaved :
    let _ : Interpreter := .ascii
    let _ : Libraries := .memoryless
    let c : HmmSettings :=
      { extractor := byteClassExtractor, nStates := 1, minTrain := 1, targetFpr := 1 / 2 }
    let f := Flow.new (text "http") 80 .inbound [71, 69, 84]
    let g := Flow.new (text "http") 80 .inbound [80, 79, 83, 84]
    let other := Flow.new (text "http") 8080 .inbound [0, 0]
    let p := (PartitionedHmm.train (c := c) { } [f, g] [f, g]).1
    let q := (PartitionedHmm.train (c := c) p [f, other, g] [g, other, f]).1
    p.threshold? (partitionKey f) = q.threshold? (partitionKey f) ∧ p.assess f = q.assess f := by
  intro _ _ c f g other p q
  have hfpr : 0 < c.targetFpr ∧ c.targetFpr < 1 := half_rate
  have hbytes : ∀ h ∈ [f, g, other], h.packets = [] := by
    intro h hh
    fin_cases hh <;> rfl
  have hsub : ∀ flows : List Flow, flows ⊆ [f, g, other] → ∀ h ∈ flows, h.packets = [] :=
    fun flows hflows h hh => hbytes h (hflows hh)
  have hp : (PartitionedHmm.train (c := c) { } [f, g] [f, g]) = (p, .ok ()) :=
    Prod.ext rfl (PartitionedHmm.train_memoryless (by decide) rfl hfpr
      (hsub _ (by simp)) (hsub _ (by simp)) _)
  have hq : (PartitionedHmm.train (c := c) p [f, other, g] [g, other, f]) = (q, .ok ()) :=
    Prod.ext rfl (PartitionedHmm.train_memoryless (by decide) rfl hfpr
      (hsub _ (by simp)) (hsub _ (by simp)) _)
  have hmain := PartitionedHmm.assess_eq_of_partition hp hq (k := partitionKey f) rfl
    (List.Perm.swap g f [])
  exact ⟨hmain.1, hmain.2 f rfl⟩

end Waf
