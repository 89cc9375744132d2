import LfWaap.Hmm.Benchmark

/-!
# What a tally accounts for

The loops that score a detector stop at the first flow that cannot be assessed, and gather
scores and counts of all others. So what they gather is a function of the list of the
assessments, each with the class of its flow (`Waf.tallyOf`), and this function can be
written down without a loop: every field is a count, or the scores, of the assessments of
one kind (`Waf.tallyOf_eq`). Conservation laws and independence of the order are then facts
about counting.

The class of a flow may be unknown (`none`): such a flow is counted as covered, and adds
neither to the scores nor to the confusion matrix.
-/

namespace Waf

open Python

/-! ### Loops over assessments -/

/-- A loop whose body makes one call that may raise makes all calls first, as far as can be
seen from its result. -/
theorem foldlM_map_eq {α β σ : Type} (call : α → Except PyError β) (step : σ → β → σ)
    (xs : List α) (s : σ) :
    xs.foldlM (fun s x => (call x).map (step s)) s =
      (xs.mapM call).map fun ys => ys.foldl step s := by
  induction xs generalizing s with
  | nil => rfl
  | cons x xs ih =>
    rw [List.foldlM_cons, List.mapM_cons]
    cases call x with
    | error e => rfl
    | ok y =>
      show xs.foldlM _ (step s y) = _
      rw [ih]
      cases xs.mapM call with
      | error e => rfl
      | ok ys => rfl

/-- An assessment, with the class of its flow: whether it is an attack, if that is known. -/
abbrev Assessed : Type := Assessment × Option Bool

/-- The assessment is one of a covered flow of a class. -/
def Assessed.inClass (isAttack : Bool) (e : Assessed) : Bool :=
  e.1.covered && decide (e.2 = some isAttack)

/-- What an assessment adds to a tally. -/
def Tally.add (t : Tally) (e : Assessed) : Tally :=
  if e.1.covered = false then t.addUncovered
  else
    match e.2 with
    | some true => t.addCovered.addAttack e.1
    | some false => t.addCovered.addNormal e.1
    | none => t.addCovered

/-- The tally of assessments. -/
def tallyOf (assessed : List Assessed) : Tally := assessed.foldl Tally.add { }

/-- **A tally without a loop.** -/
theorem tallyOf_eq (assessed : List Assessed) :
    tallyOf assessed = {
      normalScores := (assessed.filter (Assessed.inClass false)).map fun e => e.1.score
      attackScores := (assessed.filter (Assessed.inClass true)).map fun e => e.1.score
      tp := assessed.countP fun e => e.inClass true && e.1.blocked
      fp := assessed.countP fun e => e.inClass false && e.1.blocked
      fn := assessed.countP fun e => e.inClass true && !e.1.blocked
      tn := assessed.countP fun e => e.inClass false && !e.1.blocked
      covered := assessed.countP fun e => e.1.covered
      uncovered := assessed.countP fun e => !e.1.covered } := by
  induction assessed using List.reverseRecOn with
  | nil => rfl
  | append_singleton assessed e ih =>
    have hsnoc : tallyOf (assessed ++ [e]) = (tallyOf assessed).add e := by
      rw [tallyOf, List.foldl_append]
      rfl
    simp only [hsnoc, ih, List.filter_append, List.map_append, List.countP_append,
      List.countP_singleton]
    obtain ⟨a, label⟩ := e
    cases hc : a.covered with
    | false => simp [Tally.add, Tally.addUncovered, Assessed.inClass, hc]
    | true =>
      rcases label with _ | _ | _
      · simp [Tally.add, Tally.addCovered, Assessed.inClass, hc]
      · cases hb : a.blocked <;>
          simp [Tally.add, Tally.addCovered, Tally.addNormal, Assessed.inClass, hc, hb]
      · cases hb : a.blocked <;>
          simp [Tally.add, Tally.addCovered, Tally.addAttack, Assessed.inClass, hc, hb]

/-- Assessments without a class add to no score, and not to the confusion matrix. -/
theorem tallyOf_agree_filter (assessed : List Assessed) :
    (tallyOf assessed).Agree (tallyOf (assessed.filter fun e => e.2.isSome)) := by
  have hclass : ∀ (b : Bool) (e : Assessed), (e.inClass b && e.2.isSome) = e.inClass b := by
    rintro b ⟨a, _ | label⟩
    · simp [Assessed.inClass]
    · simp
  have hcount : ∀ (b : Bool) (p : Assessed → Bool),
      ((assessed.filter fun e => e.2.isSome).countP fun e => e.inClass b && p e) =
        assessed.countP fun e => e.inClass b && p e := by
    intro b p
    rw [List.countP_filter]
    refine List.countP_congr fun e _ => ?_
    rw [Bool.and_right_comm, hclass]
  have hfilter : ∀ b : Bool, (assessed.filter fun e => e.2.isSome).filter (Assessed.inClass b) =
      assessed.filter (Assessed.inClass b) := by
    intro b
    rw [List.filter_filter]
    exact List.filter_congr fun e _ => hclass b e
  rw [tallyOf_eq, tallyOf_eq (assessed.filter _)]
  simp only [hcount, hfilter]
  exact ⟨rfl, rfl, rfl, rfl, rfl, rfl⟩

/-! ### Conservation -/

theorem countP_and_add_countP_and_not {α : Type} (p q : α → Bool) (xs : List α) :
    (xs.countP fun x => p x && q x) + (xs.countP fun x => p x && !q x) = xs.countP p := by
  induction xs with
  | nil => rfl
  | cons x xs ih =>
    rw [List.countP_cons, List.countP_cons, List.countP_cons, ← ih]
    cases p x <;> cases q x <;> simp <;> omega

/-- **Every flow is accounted for**: it is covered or not, and every score is one of the
confusion matrix. -/
theorem tallyOf_conserves (assessed : List Assessed) :
    (tallyOf assessed).covered + (tallyOf assessed).uncovered = assessed.length ∧
      (tallyOf assessed).tp + (tallyOf assessed).fn = (tallyOf assessed).attackScores.length ∧
      (tallyOf assessed).fp + (tallyOf assessed).tn = (tallyOf assessed).normalScores.length := by
  rw [tallyOf_eq]
  refine ⟨?_, ?_, ?_⟩
  · rw [List.length_eq_countP_add_countP (p := fun e : Assessed => e.1.covered)]
    simp
  · rw [countP_and_add_countP_and_not, List.length_map, List.countP_eq_length_filter]
  · rw [countP_and_add_countP_and_not, List.length_map, List.countP_eq_length_filter]

/-- **The scores are those of the covered flows** exactly if the class of each of these is
known. -/
theorem tallyOf_scores_iff (assessed : List Assessed) :
    (tallyOf assessed).normalScores.length + (tallyOf assessed).attackScores.length =
        (tallyOf assessed).covered ↔
      ∀ e ∈ assessed, e.1.covered = true → e.2 ≠ none := by
  rw [tallyOf_eq]
  simp only [List.length_map, ← List.countP_eq_length_filter]
  -- a covered flow is of one class, of the other, or of none that is known
  have hsplit : assessed.countP (Assessed.inClass false) + assessed.countP (Assessed.inClass true) +
      (assessed.countP fun e => e.1.covered && decide (e.2 = none)) =
        assessed.countP fun e => e.1.covered := by
    induction assessed with
    | nil => rfl
    | cons e assessed ih =>
      obtain ⟨a, label⟩ := e
      simp only [List.countP_cons, ← ih, Assessed.inClass]
      rcases label with _ | _ | _ <;> by_cases hc : a.covered = true <;> simp [hc] <;> omega
  have hnone : (assessed.countP fun e => e.1.covered && decide (e.2 = none)) = 0 ↔
      ∀ e ∈ assessed, e.1.covered = true → e.2 ≠ none := by
    rw [List.countP_eq_zero]
    simp
  rw [← hnone]
  omega

/-- There are scores of a class exactly if some covered flow is of this class. -/
theorem tallyOf_scores_ne_nil (assessed : List Assessed) :
    ((tallyOf assessed).normalScores ≠ [] ↔
        ∃ e ∈ assessed, e.1.covered = true ∧ e.2 = some false) ∧
      ((tallyOf assessed).attackScores ≠ [] ↔
        ∃ e ∈ assessed, e.1.covered = true ∧ e.2 = some true) := by
  have hclass : ∀ b : Bool, (assessed.filter (Assessed.inClass b)).map (fun e => e.1.score) ≠ [] ↔
      ∃ e ∈ assessed, e.1.covered = true ∧ e.2 = some b := by
    intro b
    rw [ne_eq, List.map_eq_nil_iff, List.filter_eq_nil_iff]
    simp [Assessed.inClass]
  rw [tallyOf_eq]
  exact ⟨hclass false, hclass true⟩

/-! ### The order of the flows -/

/-- The tallies have the same counts, and the same scores in any order. -/
structure Tally.Same (t u : Tally) : Prop where
  normalScores : t.normalScores.Perm u.normalScores
  attackScores : t.attackScores.Perm u.attackScores
  tp : t.tp = u.tp
  fp : t.fp = u.fp
  fn : t.fn = u.fn
  tn : t.tn = u.tn
  covered : t.covered = u.covered
  uncovered : t.uncovered = u.uncovered

/-- **The order of the assessments** is that of the scores, and is seen nowhere else. -/
theorem tallyOf_perm {assessed assessed' : List Assessed} (h : assessed.Perm assessed') :
    (tallyOf assessed).Same (tallyOf assessed') := by
  rw [tallyOf_eq, tallyOf_eq]
  exact ⟨(h.filter _).map _, (h.filter _).map _, h.countP_eq _, h.countP_eq _, h.countP_eq _,
    h.countP_eq _, h.countP_eq _, h.countP_eq _⟩

/-! ### The metrics of a confusion matrix -/

section

variable (tp fp fn tn : ℕ)

/-- A part of a whole, as a fraction. -/
theorem div_mem_unit {m n : ℕ} (h : m ≤ n) : 0 ≤ (m / n : ℚ) ∧ (m / n : ℚ) ≤ 1 := by
  refine ⟨by positivity, div_le_one_of_le₀ ?_ (Nat.cast_nonneg n)⟩
  exact_mod_cast h

/-- The quotient of the source is the quotient of the rational numbers, where a quotient
without a denominator is zero as well. -/
theorem classificationMetrics_eq :
    (classificationMetrics tp fp fn tn).accuracy = (tp + tn : ℕ) / (tp + fp + fn + tn : ℕ) ∧
      (classificationMetrics tp fp fn tn).precision = tp / (tp + fp : ℕ) ∧
      (classificationMetrics tp fp fn tn).recall = tp / (tp + fn : ℕ) ∧
      (classificationMetrics tp fp fn tn).f1 = 2 * tp / (2 * tp + fp + fn : ℕ) := by
  have hquotient : ∀ (a : ℚ) (n : ℕ), (if n ≠ 0 then a / n else 0) = a / n := by
    intro a n
    by_cases hn : n = 0
    · rw [if_neg (not_not.mpr hn), hn, Nat.cast_zero, div_zero]
    · rw [if_pos hn]
  refine ⟨hquotient _ _, hquotient _ _, hquotient _ _, ?_⟩
  rw [classificationMetrics]
  dsimp only
  rw [hquotient, hquotient]
  rcases Nat.eq_zero_or_pos tp with rfl | htp
  · simp
  · have htp' : (0 : ℚ) < tp := by exact_mod_cast htp
    have hfp : (0 : ℚ) ≤ fp := Nat.cast_nonneg fp
    have hfn : (0 : ℚ) ≤ fn := Nat.cast_nonneg fn
    push_cast
    have hne : (tp / (tp + fp) + tp / (tp + fn) : ℚ) ≠ 0 := by positivity
    rw [if_pos hne]
    field_simp
    ring

/-- The F-measure lies between its two quotients, the one with fewer false answers being the
larger. -/
theorem f1_between {a b : ℕ} (htp : 0 < tp) (hle : a ≤ b) :
    (tp : ℚ) / (tp + b) ≤ 2 * tp / (2 * tp + a + b) ∧
      (2 * tp / (2 * tp + a + b) : ℚ) ≤ tp / (tp + a) := by
  have htp' : (0 : ℚ) < tp := by exact_mod_cast htp
  have ha : (0 : ℚ) ≤ a := Nat.cast_nonneg a
  have hb : (0 : ℚ) ≤ b := Nat.cast_nonneg b
  have hle' : (a : ℚ) ≤ b := by exact_mod_cast hle
  constructor
  · rw [div_le_div_iff₀ (by positivity) (by positivity)]
    nlinarith
  · rw [div_le_div_iff₀ (by positivity) (by positivity)]
    nlinarith

/-- **The metrics are fractions**, and the F-measure lies between precision and recall. -/
theorem classificationMetrics_bounds :
    let m := classificationMetrics tp fp fn tn
    (0 ≤ m.accuracy ∧ m.accuracy ≤ 1) ∧ (0 ≤ m.precision ∧ m.precision ≤ 1) ∧
      (0 ≤ m.recall ∧ m.recall ≤ 1) ∧ (0 ≤ m.f1 ∧ m.f1 ≤ 1) ∧
      min m.precision m.recall ≤ m.f1 ∧ m.f1 ≤ max m.precision m.recall := by
  intro m
  obtain ⟨ha, hp, hr, hf⟩ := classificationMetrics_eq tp fp fn tn
  have hf' : m.f1 = (2 * tp : ℕ) / (2 * tp + fp + fn : ℕ) := by
    rw [hf]
    push_cast
    ring
  refine ⟨ha ▸ div_mem_unit (by omega), hp ▸ div_mem_unit (by omega), hr ▸ div_mem_unit (by omega),
    hf' ▸ div_mem_unit (by omega), ?_⟩
  rw [show m.precision = _ from hp, show m.recall = _ from hr, show m.f1 = _ from hf]
  rcases Nat.eq_zero_or_pos tp with rfl | htp
  · simp
  · push_cast
    rcases le_total fp fn with hle | hle
    · obtain ⟨hlow, hhigh⟩ := f1_between tp htp hle
      exact ⟨(min_le_right _ _).trans hlow, hhigh.trans (le_max_left _ _)⟩
    · obtain ⟨hlow, hhigh⟩ := f1_between tp htp hle
      rw [add_right_comm] at hlow hhigh
      exact ⟨(min_le_left _ _).trans hlow, hhigh.trans (le_max_right _ _)⟩

end

/-! ### Scoring labelled flows -/

section

variable [Interpreter] [Libraries] {d : HmmDetector}

/-- **A flow is covered** exactly if a calibrated model covers its partition. -/
theorem HmmDetector.covered_iff {f : Flow} {a : Assessment} (h : d.assessFlow f = .ok a) :
    a.covered = true ↔ d.partitioned.Covers f := by
  by_cases hc : d.partitioned.Covers f
  · obtain ⟨m, hm, hcal⟩ := hc
    obtain ⟨t, ht⟩ := m.isCalibrated_iff.mp hcal
    rw [HmmDetector.assessFlow, PartitionedHmm.assess_eq_bind hm ht] at h
    obtain ⟨seq, -, h⟩ := exists_of_bind_eq_ok h
    obtain ⟨s, -, rfl⟩ := exists_of_map_eq_ok h
    exact iff_of_true rfl ⟨m, hm, hcal⟩
  · rw [HmmDetector.assessFlow, PartitionedHmm.assess_of_not_covers hc] at h
    obtain rfl := Except.ok.inj h
    exact iff_of_false Bool.false_ne_true hc

/-- The assessment of a labelled flow. -/
noncomputable def assessLabeled (d : HmmDetector) (labeled : Flow × Bool) :
    Except PyError Assessed :=
  (d.assessFlow labeled.1).map fun a => (a, some labeled.2)

theorem scoreStep_eq (d : HmmDetector) (t : Tally) (labeled : Flow × Bool) :
    scoreStep d t labeled = (assessLabeled d labeled).map t.add := by
  rw [scoreStep, assessLabeled]
  cases d.assessFlow labeled.1 with
  | error e => rfl
  | ok a =>
    obtain ⟨f, isAttack⟩ := labeled
    show (if a.covered = false then _ else _) = Except.ok (t.add (a, some isAttack))
    rw [Tally.add]
    cases isAttack <;> split_ifs <;> first | rfl | contradiction

/-- The loop gathers the tally of the assessments. -/
theorem foldlM_scoreStep (d : HmmDetector) (labeled : List (Flow × Bool)) :
    labeled.foldlM (scoreStep d) { } = (labeled.mapM (assessLabeled d)).map tallyOf := by
  rw [show scoreStep d = fun t p => (assessLabeled d p).map (Tally.add t) from
    funext fun t => funext fun p => scoreStep_eq d t p]
  exact foldlM_map_eq (assessLabeled d) Tally.add labeled { }

/-- Some flow of a class has been assessed as covered exactly if one is. -/
theorem exists_covered_iff {labeled : List (Flow × Bool)} {as : List Assessed}
    (h : labeled.mapM (assessLabeled d) = .ok as) (b : Bool) :
    (∃ e ∈ as, e.1.covered = true ∧ e.2 = some b) ↔
      ∃ p ∈ labeled, p.2 = b ∧ d.partitioned.Covers p.1 := by
  constructor
  · rintro ⟨e, he, hc, hb⟩
    obtain ⟨p, hp, hep⟩ := exists_of_mem_values h he
    obtain ⟨a, ha, rfl⟩ := exists_of_map_eq_ok hep
    exact ⟨p, hp, Option.some.inj hb, (HmmDetector.covered_iff ha).mp hc⟩
  · rintro ⟨p, hp, rfl, hc⟩
    obtain ⟨e, he, hep⟩ := exists_mem_values h hp
    obtain ⟨a, ha, rfl⟩ := exists_of_map_eq_ok hep
    exact ⟨_, he, (HmmDetector.covered_iff ha).mpr hc, rfl⟩

end

end Waf
