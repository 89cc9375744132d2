import LfWaap.Hmm.Training

/-!
# The calibrated false-positive rate

What a target false-positive rate `q` means for the flows it was calibrated on. A
partition with `n` validation flows has at most `⌈(n - 1) q⌉` of them blocked, exactly
as many if their scores differ, and at least one passes; flows of partitions without a
model are never blocked. Over all partitions this is at most `q` times the number of
validation flows, plus one for each model.

The order-statistics argument is `Stats.countP_lt_quantile_le`; that training and
assessing see the same scores is `Waf.PartitionedHmm.assess_validation`.
-/

namespace Waf

open Python Stats

variable [Interpreter] [Libraries] {c : HmmSettings}

/-! ### Blocked flows and their scores -/

/-- A flow is blocked. -/
noncomputable def PartitionedHmm.blocks (p : PartitionedHmm c) (flow : Flow) : Bool :=
  match p.assess flow with
  | .ok a => a.blocked
  | .error _ => false

/-- The score of a flow. -/
noncomputable def PartitionedHmm.scoreOf (p : PartitionedHmm c) (flow : Flow) : EReal :=
  match p.assess flow with
  | .ok a => a.score
  | .error _ => 0

theorem PartitionedHmm.blocks_of_assess {p : PartitionedHmm c} {flow : Flow} {a : Assessment}
    (h : p.assess flow = .ok a) : p.blocks flow = a.blocked := by
  rw [blocks, h]

theorem PartitionedHmm.scoreOf_of_assess {p : PartitionedHmm c} {flow : Flow} {a : Assessment}
    (h : p.assess flow = .ok a) : p.scoreOf flow = a.score := by
  rw [scoreOf, h]

/-- A flow whose partition has no model is not blocked. -/
theorem PartitionedHmm.not_blocks_of_notMem {p : PartitionedHmm c} {flow : Flow}
    (h : partitionKey flow ∉ p.models.keys) : p.blocks flow = false := by
  refine blocks_of_assess (assess_of_not_covers fun hc => h ?_)
  obtain ⟨m, hm, -⟩ := hc
  exact Dict.mem_keys_iff.mpr ⟨m, hm⟩

/-- Flows that are judged by a list of scores are blocked where the score is below the
threshold. -/
theorem PartitionedHmm.judged_scores {p : PartitionedHmm c} {k : PartitionKey} {t : EReal}
    {flows : List Flow} {scores : List EReal}
    (h : List.Forall₂ (fun f v => p.assess f = .ok (.judged k t (decide (v < t)) v)) flows scores) :
    flows.countP p.blocks = scores.countP (· < t) ∧ flows.map p.scoreOf = scores := by
  induction h with
  | nil => exact ⟨rfl, rfl⟩
  | @cons f v flows scores hf _ ih =>
    have hb : p.blocks f = decide (v < t) := blocks_of_assess hf
    have hs : p.scoreOf f = v := scoreOf_of_assess hf
    rw [List.countP_cons, List.countP_cons, List.map_cons, ih.1, ih.2, hb, hs]
    exact ⟨rfl, rfl⟩

/-! ### One partition -/

variable {p p' : PartitionedHmm c} {normal validation : List Flow}

/-- **The guarantee of one partition**: at most `⌈(n - 1) q⌉` of its `n` validation
flows are blocked, exactly as many if their scores differ, and one passes. -/
theorem PartitionedHmm.countP_blocks_partition (hlib : Libraries.Documented) (hq0 : 0 < c.targetFpr)
    (hq1 : c.targetFpr < 1) (h : p.train normal validation = (p', .ok ())) {k : PartitionKey}
    (hk : k ∈ p'.models.keys) :
    (validation.filter fun f => partitionKey f = k).countP p'.blocks ≤
        ⌈(((validation.filter fun f => partitionKey f = k).length : ℝ) - 1) * c.targetFpr⌉₊ ∧
      (((validation.filter fun f => partitionKey f = k).map p'.scoreOf).Nodup →
        (validation.filter fun f => partitionKey f = k).countP p'.blocks =
          ⌈(((validation.filter fun f => partitionKey f = k).length : ℝ) - 1) * c.targetFpr⌉₊) ∧
      (validation.filter fun f => partitionKey f = k).countP p'.blocks <
        (validation.filter fun f => partitionKey f = k).length := by
  obtain ⟨t, scores, hne, ht, hbot, hall⟩ := assess_validation hlib h hk
  obtain ⟨hcount, hscores⟩ := judged_scores hall
  have hlen : (validation.filter fun f => partitionKey f = k).length = scores.length :=
    hall.length_eq
  have hpos : 0 < scores.length := List.length_pos_iff.mpr hne
  have hle : scores.countP (· < npQuantile scores c.targetFpr) ≤
      ⌈((scores.length : ℝ) - 1) * c.targetFpr⌉₊ :=
    countP_lt_quantile_le interpolates_lerp hpos hq0.le hq1.le
  rw [hcount, hscores, hlen, ht]
  refine ⟨hle, fun hn => ?_, hle.trans_lt (ceil_index_lt hpos hq1.le)⟩
  by_cases hmem : ⊥ ∈ scores
  · -- all scores are `-∞`, so that there is one only
    have hone : scores.length = 1 := by
      rw [List.eq_replicate_iff.mpr ⟨rfl, hbot hmem⟩, List.nodup_replicate] at hn
      omega
    have hzero : ⌈((scores.length : ℝ) - 1) * c.targetFpr⌉₊ = 0 := by simp [hone]
    omega
  · exact countP_lt_quantile_eq interpolates_lerp leaves_lerp
      (fun v hv => fun hb => hmem (hb ▸ hv)) hn hpos hq0.le hq1.le

/-- In numbers that can be added up: a fraction `q` of the flows of a partition, and
one more. -/
theorem PartitionedHmm.countP_blocks_le (hlib : Libraries.Documented) (hq0 : 0 < c.targetFpr)
    (hq1 : c.targetFpr < 1) (h : p.train normal validation = (p', .ok ())) {k : PartitionKey}
    (hk : k ∈ p'.models.keys) :
    ((validation.filter fun f => partitionKey f = k).countP p'.blocks : ℝ) ≤
      c.targetFpr * (validation.countP fun f => partitionKey f = k) + 1 := by
  obtain ⟨hle, -, hlt⟩ := countP_blocks_partition hlib hq0 hq1 h hk
  have hceil := ceil_index_le (lt_of_le_of_lt (Nat.zero_le _) hlt) hq0.le
  rw [List.countP_eq_length_filter (p := fun f => decide (partitionKey f = k)), mul_comm]
  exact le_trans (Nat.cast_le.mpr hle) hceil

/-! ### All partitions -/

/-- **The guarantee over all partitions.** -/
theorem PartitionedHmm.countP_blocks_total (hlib : Libraries.Documented) (hq0 : 0 < c.targetFpr)
    (hq1 : c.targetFpr < 1) (h : p.train normal validation = (p', .ok ())) :
    (validation.countP p'.blocks : ℝ) ≤
      c.targetFpr * validation.length + p'.models.keys.length := by
  have hcovered : ∀ f ∈ validation, p'.blocks f = true → partitionKey f ∈ p'.models.keys := by
    intro f _ hf
    by_contra hn
    rw [not_blocks_of_notMem hn] at hf
    exact absurd hf (by simp)
  have hsplit := countP_le_sum_countP partitionKey p'.blocks validation hcovered
  have hsizes := sum_countP_le_length partitionKey validation p'.models.nodup
  -- the bounds of the partitions are added up, one key after the other
  have hsum : ∀ ks : List PartitionKey, (∀ k ∈ ks, k ∈ p'.models.keys) →
      ((ks.map fun k => (validation.filter fun f => partitionKey f = k).countP p'.blocks).sum : ℝ) ≤
        c.targetFpr * (ks.map fun k => validation.countP fun f => partitionKey f = k).sum +
          ks.length := by
    intro ks hks
    induction ks with
    | nil => simp
    | cons k ks ih =>
      have hk := countP_blocks_le hlib hq0 hq1 h (hks k List.mem_cons_self)
      have hrest := ih fun k' hk' => hks k' (List.mem_cons_of_mem _ hk')
      simp only [List.map_cons, List.sum_cons, List.length_cons]
      push_cast at hrest ⊢
      linarith
  calc (validation.countP p'.blocks : ℝ)
      ≤ ((p'.models.keys.map fun k =>
          (validation.filter fun f => partitionKey f = k).countP p'.blocks).sum : ℕ) := by
        exact_mod_cast hsplit
    _ ≤ c.targetFpr * ((p'.models.keys.map fun k =>
          validation.countP fun f => partitionKey f = k).sum : ℕ) + p'.models.keys.length :=
        hsum _ fun _ hk => hk
    _ ≤ c.targetFpr * validation.length + p'.models.keys.length := by
        have : ((p'.models.keys.map fun k => validation.countP fun f => partitionKey f = k).sum : ℝ)
            ≤ validation.length := by exact_mod_cast hsizes
        have := mul_le_mul_of_nonneg_left this hq0.le
        linarith

/-- Validation flows are assessed without an error. -/
theorem PartitionedHmm.exists_assess_validation (hlib : Libraries.Documented)
    (h : p.train normal validation = (p', .ok ())) {f : Flow} (hf : f ∈ validation) :
    ∃ a, p'.assess f = .ok a := by
  by_cases hk : partitionKey f ∈ p'.models.keys
  · obtain ⟨t, scores, -, -, -, hall⟩ := assess_validation hlib h hk
    have hmap : (validation.filter fun g => partitionKey g = partitionKey f).mapM p'.assess =
        .ok (scores.map fun v => .judged (partitionKey f) t (decide (v < t)) v) :=
      mapM_eq_ok_iff.mpr (List.forall₂_map_right_iff.mpr hall)
    exact exists_of_mem_of_mapM hmap (List.mem_filter.mpr ⟨hf, by simp⟩)
  · refine ⟨_, assess_of_not_covers fun hc => hk ?_⟩
    obtain ⟨m, hm, -⟩ := hc
    exact Dict.mem_keys_iff.mpr ⟨m, hm⟩

/-- **The calibrated false-positive guarantee, end to end.** After a training that
returns, with a target rate `q` between 0 and 1: every validation flow is assessed; of
the `n` flows of a partition with a model, at most `⌈(n - 1) q⌉` are blocked, exactly as
many if their scores differ, and one passes; flows of other partitions are not blocked;
and in all at most `q N + #models` of the `N` flows are blocked. -/
theorem PartitionedHmm.false_positive_guarantee (hlib : Libraries.Documented)
    (hq0 : 0 < c.targetFpr) (hq1 : c.targetFpr < 1) (h : p.train normal validation = (p', .ok ())) :
    (∀ f ∈ validation, ∃ a, p'.assess f = .ok a) ∧
      (∀ k ∈ p'.models.keys, ∀ flows, flows = validation.filter (fun f => partitionKey f = k) →
        flows.countP p'.blocks ≤ ⌈((flows.length : ℝ) - 1) * c.targetFpr⌉₊ ∧
          ((flows.map p'.scoreOf).Nodup →
            flows.countP p'.blocks = ⌈((flows.length : ℝ) - 1) * c.targetFpr⌉₊) ∧
          ∃ f ∈ flows, p'.blocks f = false) ∧
      (∀ f ∈ validation, partitionKey f ∉ p'.models.keys → p'.blocks f = false) ∧
      (validation.countP p'.blocks : ℝ) ≤
        c.targetFpr * validation.length + p'.models.keys.length := by
  refine ⟨fun f hf => exists_assess_validation hlib h hf, ?_, fun f _ hf => not_blocks_of_notMem hf,
    countP_blocks_total hlib hq0 hq1 h⟩
  rintro k hk flows rfl
  obtain ⟨hle, heq, hlt⟩ := countP_blocks_partition hlib hq0 hq1 h hk
  refine ⟨hle, heq, ?_⟩
  -- if none passed, as many would be blocked as there are
  by_contra hn
  refine hlt.ne (List.countP_eq_length.mpr fun f hf => ?_)
  by_contra hb
  exact hn ⟨f, hf, by simpa using hb⟩

omit [Interpreter] [Libraries] in
/-- Three flows with different scores to validate with, of which the target rate 1/2 has one
blocked. -/
theorem PartitionedHmm.false_positive_guarantee_one :
    let _ : Interpreter := .ascii
    let _ : Libraries := .memoryless
    let c : HmmSettings :=
      { extractor := byteClassExtractor, nStates := 1, minTrain := 1, targetFpr := 1 / 2 }
    let flow := fun payload : List Byte => Flow.new (text "http") 80 .inbound payload
    let validation := [flow [71], flow [49], flow [32]]
    let p' := (({ } : PartitionedHmm c).train [flow [71, 71, 49]] validation).1
    (validation.map p'.scoreOf).Nodup ∧ validation.countP p'.blocks = 1 := by
  intro _ _ c flow validation p'
  have hq : 0 < c.targetFpr ∧ c.targetFpr < 1 := half_rate
  let x : Byte → Fin 8 := fun b => ⟨byteClass b, byteClass_lt b⟩
  have hs : ∀ b, c.extractor.symbols (flow [b]) = .ok [x b] := fun _ => rfl
  have hkey : ∀ g ∈ validation, partitionKey g = partitionKey (flow [71, 71, 49]) := by
    simp only [validation, List.forall_mem_cons]
    exact ⟨rfl, rfl, rfl, List.forall_mem_nil _⟩
  obtain ⟨p'', v, hp, -, hv, ht, hassess⟩ := assess_memoryless ({ } : PartitionedHmm c)
    (f := flow [71, 71, 49]) (s := [x 71, x 71, x 49]) rfl le_rfl one_ne_zero rfl le_rfl rfl hq
    (.cons (hs 71) (.cons (hs 49) (.cons (hs 32) .nil))) hkey (List.cons_ne_nil _ _)
  obtain rfl : p' = p'' := congrArg Prod.fst hp
  have hscores : validation.map p'.scoreOf = [v (x 71), v (x 49), v (x 32)] := by
    have hscore : ∀ b, p'.scoreOf (flow [b]) = v (x b) := fun b =>
      scoreOf_of_assess (hassess (flow [b]) (x b) rfl (hs b))
    simp only [validation, List.map_cons, List.map_nil, hscore]
  have h₁ : v (x 49) < v (x 71) := (hv _ _).mpr (by decide)
  have h₂ : v (x 32) < v (x 49) := (hv _ _).mpr (by decide)
  have hnodup : (validation.map p'.scoreOf).Nodup := by
    rw [hscores]
    simp [h₁.ne', h₂.ne', (h₂.trans h₁).ne']
  have hk : partitionKey (flow [71, 71, 49]) ∈ p'.models.keys := by
    obtain ⟨m, hm, -⟩ := Option.bind_eq_some_iff.mp ht
    exact Dict.mem_keys_iff.mpr ⟨m, hm⟩
  obtain ⟨-, hpart, -, -⟩ :=
    false_positive_guarantee Libraries.documented_memoryless hq.1 hq.2 hp
  have hcount := (hpart _ hk validation rfl).2.1 hnodup
  refine ⟨hnodup, hcount.trans ?_⟩
  have hceil : ((validation.length : ℝ) - 1) * c.targetFpr = (1 : ℕ) := by
    change ((3 : ℕ) - 1 : ℝ) * (1 / 2) = _
    norm_num
  rw [hceil, Nat.ceil_natCast]

end Waf
