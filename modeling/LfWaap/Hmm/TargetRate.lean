import LfWaap.Hmm.Training

/-!
# Raising the target rate

Two objects with the same hyperparameters but for the target false-positive rate, trained
on the same flows. The rate enters when a threshold is set and nowhere else: the models
are fitted alike, so they give every sequence the same score, and a quantile increases
with its fraction. So the two trainings run in lockstep
(`Waf.PartitionedHmm.train_lockstep`), and whatever the object with the lower rate blocks,
the one with the higher rate blocks as well
(`Waf.PartitionedHmm.blocked_of_targetFpr_le`).
-/

namespace Waf

open Python Stats

variable [Interpreter] [Libraries] {c : HmmSettings}

/-! ### Two models that differ in their thresholds -/

/-- The settings with another target rate. -/
abbrev HmmSettings.withTarget (c : HmmSettings) (q : ℝ) : HmmSettings := { c with targetFpr := q }

omit [Interpreter] in
/-- **A stricter threshold, a laxer threshold**: two models with the same scores, of which
the first has a threshold that is not above that of the second. -/
structure Laxer {K : ℕ} (m m' : OneClassModel K) : Prop where
  score : ∀ seq, m.score seq = m'.score seq
  threshold : ∃ t t', m.threshold = some t ∧ m'.threshold = some t' ∧ t ≤ t'

/-- The same error, or two models of which the first is the laxer one. -/
inductive Lockstep {K : ℕ} :
    Except PyError (OneClassModel K) → Except PyError (OneClassModel K) → Prop
  | error (e : PyError) : Lockstep (.error e) (.error e)
  | ok {m m' : OneClassModel K} (h : Laxer m m') : Lockstep (.ok m) (.ok m')

omit [Interpreter] [Libraries] in
/-- Quantiles of scores that are not `+∞` increase with the target rate. -/
theorem npQuantile_mono {scores : List EReal} (htop : ∀ v ∈ scores, v ≠ ⊤)
    (hne : scores ≠ []) {q q' : ℝ} (hq : 0 < q) (hqq : q ≤ q') (hq' : q' < 1) :
    npQuantile scores q ≤ npQuantile scores q' :=
  quantile_mono (S := {v | v ≠ ⊤}) interpolates_lerp
    (fun _ _ _ hb hab _ _ ht => lerp_mono hb hab ht) htop
    (List.length_pos_iff.mpr hne) hq.le hqq hq'.le

omit [Interpreter] in
/-- **Calibrating with two target rates.** -/
theorem calibrated_lockstep (hlib : Libraries.Documented) {K : ℕ} {m : OneClassModel K}
    (validation : List (List (Fin K))) {q q' : ℝ} (hq : 0 < q) (hqq : q ≤ q') (hq' : q' < 1) :
    (∃ e, calibrated (fun s => m.score s) validation q = .error e ∧
        calibrated (fun s => m.score s) validation q' = .error e) ∨
      ∃ t t', calibrated (fun s => m.score s) validation q = .ok t ∧
        calibrated (fun s => m.score s) validation q' = .ok t' ∧ t ≤ t' := by
  rw [calibrated, calibrated, if_pos ⟨hq, hqq.trans_lt hq'⟩, if_pos ⟨hq.trans_le hqq, hq'⟩]
  cases hs : (validation.filter fun s => 0 < s.length).mapM fun s => m.score s with
  | error e => exact Or.inl ⟨e, rfl, rfl⟩
  | ok scores =>
    rw [ok_bind, ok_bind]
    by_cases hne : scores = []
    · rw [if_pos hne, if_pos hne]
      exact Or.inl ⟨_, rfl, rfl⟩
    · rw [if_neg hne, if_neg hne]
      refine Or.inr ⟨_, _, rfl, rfl, npQuantile_mono ?_ hne hq hqq hq'⟩
      intro v hv
      obtain ⟨s, -, hsv⟩ := exists_of_mem_values hs hv
      exact OneClassModel.score_ne_top hlib hsv

omit [Interpreter] in
theorem OneClassModel.calibrate_lockstep (hlib : Libraries.Documented) {K : ℕ}
    {m : OneClassModel K} (validation : List (List (Fin K))) {q q' : ℝ} (hq : 0 < q)
    (hqq : q ≤ q') (hq' : q' < 1) :
    Lockstep (m.calibrate validation q) (m.calibrate validation q') := by
  rcases calibrated_lockstep hlib validation hq hqq hq' with ⟨e, he, he'⟩ | ⟨t, t', ht, ht', hle⟩
  · rw [calibrate_of_error he, calibrate_of_error he']
    exact Lockstep.error e
  · obtain ⟨m₁, hm₁⟩ := exists_calibrate_of_ok ht
    obtain ⟨m₂, hm₂⟩ := exists_calibrate_of_ok ht'
    obtain ⟨v, hv, hcal, hscore⟩ := calibrate_eq_ok hm₁
    obtain ⟨v', hv', hcal', hscore'⟩ := calibrate_eq_ok hm₂
    obtain rfl := Except.ok.inj (hcal.symm.trans ht)
    obtain rfl := Except.ok.inj (hcal'.symm.trans ht')
    rw [hm₁, hm₂]
    exact Lockstep.ok ⟨fun seq => (hscore seq).trans (hscore' seq).symm, v, v', hv, hv', hle⟩

/-- **Training one model with two target rates.** -/
theorem trainModel_lockstep (hlib : Libraries.Documented)
    (sequences validation : List (List (Fin c.nSymbols))) {q q' : ℝ} (hq : 0 < q)
    (hqq : q ≤ q') (hq' : q' < 1) :
    Lockstep (trainModel (c.withTarget q) sequences validation)
      (trainModel (c.withTarget q') sequences validation) := by
  -- neither building nor fitting a model looks at the target rate
  change Lockstep (newModel c >>= fun m => m.fit sequences >>= fun m => m.calibrate validation q)
    (newModel c >>= fun m => m.fit sequences >>= fun m => m.calibrate validation q')
  cases hnew : newModel c with
  | error e => exact Lockstep.error e
  | ok m₀ =>
    rw [ok_bind, ok_bind]
    cases hfit : m₀.fit sequences with
    | error e => exact Lockstep.error e
    | ok m₁ => exact OneClassModel.calibrate_lockstep hlib validation hq hqq hq'

/-! ### Two runs of the loop -/

/-- **The two loops run in lockstep**: they end alike, and leave models for the same
partitions behind, of which the first has the laxer ones. -/
theorem trainLoop_lockstep (hlib : Libraries.Documented) (valGroups : Groups c) {q q' : ℝ}
    (hq : 0 < q) (hqq : q ≤ q') (hq' : q' < 1)
    (groups : List (PartitionKey × List (List (Fin c.nSymbols)))) {models models' : Models c}
    (h : ∀ k, Option.Rel Laxer (models.get? k) (models'.get? k)) :
    (trainLoop (c := c.withTarget q) valGroups groups models).2 =
        (trainLoop (c := c.withTarget q') valGroups groups models').2 ∧
      ∀ k, Option.Rel Laxer ((trainLoop (c := c.withTarget q) valGroups groups models).1.get? k)
        ((trainLoop (c := c.withTarget q') valGroups groups models').1.get? k) := by
  induction groups generalizing models models' with
  | nil => exact ⟨rfl, h⟩
  | cons g groups ih =>
    obtain ⟨key, sequences⟩ := g
    -- which groups are trained does not depend on the rate
    by_cases he : Eligible c valGroups key sequences
    · have he₁ : Eligible (c.withTarget q) valGroups key sequences := he
      have he₂ : Eligible (c.withTarget q') valGroups key sequences := he
      rw [trainLoop, trainLoop, if_pos he₁, if_pos he₂]
      have hstep := trainModel_lockstep (c := c) hlib sequences (valGroups.getD key []) hq hqq hq'
      revert hstep
      generalize trainModel (c.withTarget q) sequences (valGroups.getD key []) = x
      generalize trainModel (c.withTarget q') sequences (valGroups.getD key []) = x'
      intro hstep
      cases hstep with
      | error e => exact ⟨rfl, h⟩
      | ok hm =>
        refine ih fun k => ?_
        rw [Dict.get?_set, Dict.get?_set]
        split
        · exact Option.Rel.some hm
        · exact h k
    · have he₁ : ¬Eligible (c.withTarget q) valGroups key sequences := he
      have he₂ : ¬Eligible (c.withTarget q') valGroups key sequences := he
      rw [trainLoop, trainLoop, if_neg he₁, if_neg he₂]
      exact ih h

/-! ### Two trainings -/

/-- **The two trainings run in lockstep.** They end alike, and when they return, the
object with the lower rate has the laxer models. -/
theorem PartitionedHmm.train_lockstep (hlib : Libraries.Documented) {q q' : ℝ} (hq : 0 < q)
    (hqq : q ≤ q') (hq' : q' < 1) (p : PartitionedHmm (c.withTarget q))
    (p' : PartitionedHmm (c.withTarget q')) (normal validation : List Flow) :
    (p.train normal validation).2 = (p'.train normal validation).2 ∧
      ((p.train normal validation).2 = .ok () → ∀ k,
        Option.Rel Laxer ((p.train normal validation).1.models.get? k)
          ((p'.train normal validation).1.models.get? k)) := by
  cases htrain : groupSequences c normal with
  | error e =>
    have h₁ : groupSequences (c.withTarget q) normal = .error e := htrain
    have h₂ : groupSequences (c.withTarget q') normal = .error e := htrain
    simp only [train, h₁, h₂, true_and]
    rintro ⟨⟩
  | ok trainGroups =>
    have h₁ : groupSequences (c.withTarget q) normal = .ok trainGroups := htrain
    have h₂ : groupSequences (c.withTarget q') normal = .ok trainGroups := htrain
    cases hval : groupSequences c validation with
    | error e =>
      have hv₁ : groupSequences (c.withTarget q) validation = .error e := hval
      have hv₂ : groupSequences (c.withTarget q') validation = .error e := hval
      simp only [train, h₁, h₂, hv₁, hv₂, true_and]
      rintro ⟨⟩
    | ok valGroups =>
      have hv₁ : groupSequences (c.withTarget q) validation = .ok valGroups := hval
      have hv₂ : groupSequences (c.withTarget q') validation = .ok valGroups := hval
      simp only [train, h₁, h₂, hv₁, hv₂]
      have hempty : ∀ k, Option.Rel Laxer ((Dict.empty : Models (c.withTarget q)).get? k)
          ((Dict.empty : Models (c.withTarget q')).get? k) := fun _ => Option.Rel.none
      have hloop := trainLoop_lockstep hlib valGroups hq hqq hq' trainGroups.entries hempty
      exact ⟨hloop.1, fun _ => hloop.2⟩

/-- What two objects say about a flow, of which the first has the laxer models: it is
covered by both or by neither, and what the first blocks, the second blocks. -/
theorem PartitionedHmm.assess_of_laxer {q q' : ℝ} {p : PartitionedHmm (c.withTarget q)}
    {p' : PartitionedHmm (c.withTarget q')} {f : Flow}
    (h : Option.Rel Laxer (p.models.get? (partitionKey f)) (p'.models.get? (partitionKey f))) :
    (∃ e, p.assess f = .error e ∧ p'.assess f = .error e) ∨
      ∃ a a', p.assess f = .ok a ∧ p'.assess f = .ok a' ∧ a.covered = a'.covered ∧
        a.score = a'.score ∧ (a.blocked = true → a'.blocked = true) := by
  cases hm : p.models.get? (partitionKey f) with
  | none =>
    cases hm' : p'.models.get? (partitionKey f) with
    | some m' =>
      rw [hm, hm'] at h
      cases h
    | none =>
      refine Or.inr ⟨_, _, assess_of_not_covers ?_, assess_of_not_covers ?_, rfl, rfl, id⟩
      · rintro ⟨m, hget, -⟩
        exact absurd (hm.symm.trans hget) nofun
      · rintro ⟨m, hget, -⟩
        exact absurd (hm'.symm.trans hget) nofun
  | some m =>
    cases hm' : p'.models.get? (partitionKey f) with
    | none =>
      rw [hm, hm'] at h
      cases h
    | some m' =>
      rw [hm, hm'] at h
      obtain ⟨hscore, t, t', ht, ht', hle⟩ : Laxer m m' := by
        cases h with
        | some hlax => exact hlax
      -- both extract the same sequence, and both models give it the same score
      rw [assess_eq_bind hm ht, assess_eq_bind hm' ht']
      change (∃ e, c.extractor.symbols f >>= _ = .error e ∧
          c.extractor.symbols f >>= _ = .error e) ∨
        ∃ a a', c.extractor.symbols f >>= _ = .ok a ∧ c.extractor.symbols f >>= _ = .ok a' ∧ _
      cases c.extractor.symbols f with
      | error e => exact Or.inl ⟨e, rfl, rfl⟩
      | ok seq =>
        rw [ok_bind, ok_bind, ← hscore seq]
        cases m.score seq with
        | error e => exact Or.inl ⟨e, rfl, rfl⟩
        | ok v =>
          refine Or.inr ⟨_, _, rfl, rfl, rfl, rfl, fun hb => ?_⟩
          have hlt : v < t := of_decide_eq_true hb
          exact decide_eq_true (hlt.trans_le hle)

/-- **Blocking is monotone in the target rate.** Of two objects that differ in their
target rates only, trained on the same flows, the one with the lower rate has the lower
thresholds; each flow is covered by both or by neither and has the same score; and what
the one with the lower rate blocks, the other blocks as well. -/
theorem PartitionedHmm.blocked_of_targetFpr_le (hlib : Libraries.Documented) {q q' : ℝ}
    (hq : 0 < q) (hqq : q ≤ q') (hq' : q' < 1) {p₀ p : PartitionedHmm (c.withTarget q)}
    {p₀' p' : PartitionedHmm (c.withTarget q')} {normal validation : List Flow}
    (h : p₀.train normal validation = (p, .ok ()))
    (h' : p₀'.train normal validation = (p', .ok ())) (f : Flow) :
    Option.Rel (· ≤ ·) (p.threshold? (partitionKey f)) (p'.threshold? (partitionKey f)) ∧
      ((∃ e, p.assess f = .error e ∧ p'.assess f = .error e) ∨
        ∃ a a', p.assess f = .ok a ∧ p'.assess f = .ok a' ∧ a.covered = a'.covered ∧
          a.score = a'.score ∧ (a.blocked = true → a'.blocked = true)) := by
  have hlock := (train_lockstep hlib hq hqq hq' p₀ p₀' normal validation).2 (congrArg Prod.snd h)
    (partitionKey f)
  rw [h, h'] at hlock
  refine ⟨?_, assess_of_laxer hlock⟩
  rw [threshold?, threshold?]
  revert hlock
  generalize p.models.get? (partitionKey f) = x
  generalize p'.models.get? (partitionKey f) = x'
  intro hlock
  cases hlock with
  | none => exact Option.Rel.none
  | some hlax =>
    obtain ⟨-, t, t', ht, ht', hle⟩ := hlax
    rw [Option.bind_some, Option.bind_some, ht, ht']
    exact Option.Rel.some hle

omit [Interpreter] [Libraries] in
/-- The second of three scores is below a threshold if two of them are. -/
theorem lt_iff_two_le_countP {low mid high t : EReal} (h₁ : low < mid) (h₂ : mid < high) :
    mid < t ↔ 2 ≤ [high, mid, low].countP (· < t) := by
  constructor
  · intro h
    simp only [List.countP_cons, List.countP_nil, h, h₁.trans h, decide_true, if_true]
    omega
  · intro h
    by_contra hn
    have hhigh : ¬high < t := fun hh => hn (h₂.trans hh)
    simp only [List.countP_cons, List.countP_nil, hn, hhigh, decide_false, Bool.false_eq_true,
      if_false] at h
    split at h <;> omega

omit [Interpreter] [Libraries] in
/-- Two target rates, and three flows with different scores: the second of them is blocked with
the higher rate only. -/
theorem PartitionedHmm.blocked_of_targetFpr_le_one :
    let _ : Interpreter := .ascii
    let _ : Libraries := .memoryless
    let c : HmmSettings := { extractor := byteClassExtractor, nStates := 1, minTrain := 1 }
    let flow := fun payload : List Byte => Flow.new (text "http") 80 .inbound payload
    let f := flow [71, 71, 49]
    let validation := [flow [71], flow [49], flow [32]]
    let p := (PartitionedHmm.train (c := c.withTarget (1 / 4)) { } [f] validation).1
    let p' := (PartitionedHmm.train (c := c.withTarget (3 / 4)) { } [f] validation).1
    Option.Rel (· ≤ ·) (p.threshold? (partitionKey f)) (p'.threshold? (partitionKey f)) ∧
      ∃ a a', p.assess (flow [49]) = .ok a ∧ p'.assess (flow [49]) = .ok a' ∧
        a.covered = a'.covered ∧ a.score = a'.score ∧ a.blocked = false ∧ a'.blocked = true := by
  intro _ _ c flow f validation p p'
  let x : Byte → Fin 8 := fun b => ⟨byteClass b, byteClass_lt b⟩
  have hs : ∀ b, c.extractor.symbols (flow [b]) = .ok [x b] := fun _ => rfl
  have hkey : ∀ g ∈ validation, partitionKey g = partitionKey f := by
    simp only [validation, List.forall_mem_cons]
    exact ⟨rfl, rfl, rfl, List.forall_mem_nil _⟩
  have hvs : List.Forall₂ (fun g y => c.extractor.symbols g = .ok [y]) validation
      [x 71, x 49, x 32] := .cons (hs 71) (.cons (hs 49) (.cons (hs 32) .nil))
  have hq : (0 : ℝ) < 1 / 4 ∧ (1 / 4 : ℝ) < 1 := by norm_num
  have hq' : (0 : ℝ) < 3 / 4 ∧ (3 / 4 : ℝ) < 1 := by norm_num
  obtain ⟨p₁, v, hp, hreal, hv, -, hassess⟩ := assess_memoryless (c := c.withTarget (1 / 4)) { }
    (f := f) (s := [x 71, x 71, x 49]) rfl le_rfl one_ne_zero rfl le_rfl rfl hq hvs hkey
    (List.cons_ne_nil _ _)
  obtain ⟨p₂, v', hp', hreal', hv', -, hassess'⟩ := assess_memoryless
    (c := c.withTarget (3 / 4)) { } (f := f) (s := [x 71, x 71, x 49]) rfl le_rfl one_ne_zero rfl
    le_rfl rfl hq' hvs hkey (List.cons_ne_nil _ _)
  obtain rfl : p = p₁ := congrArg Prod.fst hp
  obtain rfl : p' = p₂ := congrArg Prod.fst hp'
  have hle : (1 / 4 : ℝ) ≤ 3 / 4 := by norm_num
  -- of three different scores, the first rate has one below the threshold, the second two
  have hmid : ∀ {v : Fin 8 → EReal} {q : ℝ}, 0 < q → q < 1 → (∀ y, v y ∈ realNumbers) →
      (∀ y z, v y < v z ↔ [x 71, x 71, x 49].count y < [x 71, x 71, x 49].count z) →
      (v (x 49) < npQuantile ([x 71, x 49, x 32].map v) q ↔ 1 < ⌈((3 : ℕ) - 1) * q⌉₊) := by
    intro v q hq hq1 hreal hv
    have h₁ : v (x 49) < v (x 71) := (hv _ _).mpr (by decide)
    have h₂ : v (x 32) < v (x 49) := (hv _ _).mpr (by decide)
    have hbot : ∀ w ∈ [v (x 71), v (x 49), v (x 32)], w ∈ {w : EReal | w ≠ ⊥} := by
      have hne : ∀ y, v y ≠ ⊥ := fun y => by
        obtain ⟨r, hr⟩ := hreal y
        exact hr ▸ EReal.coe_ne_bot r
      simp only [List.forall_mem_cons]
      exact ⟨hne _, hne _, hne _, List.forall_mem_nil _⟩
    have hnodup : [v (x 71), v (x 49), v (x 32)].Nodup := by
      simp [h₁.ne', h₂.ne', (h₂.trans h₁).ne']
    rw [lt_iff_two_le_countP h₂ h₁]
    exact iff_of_eq (congrArg (2 ≤ ·)
      (countP_lt_quantile_eq interpolates_lerp leaves_lerp hbot hnodup Nat.succ_pos' hq.le hq1.le))
  obtain ⟨hthr, hcases⟩ := blocked_of_targetFpr_le Libraries.documented_memoryless (c := c) hq.1
    hle hq'.2 hp hp' (flow [49])
  have ha := hassess (flow [49]) (x 49) rfl (hs 49)
  have ha' := hassess' (flow [49]) (x 49) rfl (hs 49)
  have hlow : ¬v (x 49) < npQuantile ([x 71, x 49, x 32].map v) (1 / 4) := fun h => by
    have h2 := Nat.lt_ceil.mp ((hmid hq.1 hq.2 hreal hv).mp h)
    norm_num at h2
  have hhigh : v' (x 49) < npQuantile ([x 71, x 49, x 32].map v') (3 / 4) := by
    refine (hmid hq'.1 hq'.2 hreal' hv').mpr (Nat.lt_ceil.mpr ?_)
    norm_num
  refine ⟨hthr, _, _, ha, ha', rfl, ?_, decide_eq_false hlow, decide_eq_true hhigh⟩
  obtain ⟨e, he, -⟩ | ⟨a, a', h, h', -, hscore, -⟩ := hcases
  · cases he.symm.trans ha
  · obtain rfl := Except.ok.inj (h.symm.trans ha)
    obtain rfl := Except.ok.inj (h'.symm.trans ha')
    exact hscore

end Waf
