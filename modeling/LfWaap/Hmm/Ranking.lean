import LfWaap.Hmm.ModelBenchmark
import LfWaap.Hmm.Reports
import LfWaap.Python.Sorted

/-!
# The table of a comparison

`render_comparison` prints one row for each result. The rows are sorted by the partial area,
the largest first, where a result without metrics has the key -1. The results of a benchmark
have partial areas that are fractions, so the key is below all others, and the results without
metrics are the last rows (`Waf.ModelBenchmark.renderComparison_run`). The rows of versions
with different partial areas do not depend on the order in which the versions are compared
(`Waf.ModelBenchmark.renderComparison_perm`).
-/

namespace Waf

open Python

/-! ### Rows -/

/-- `{cell:<width}`. -/
def ljust (width : ℕ) (cell : Text) : Text := cell ++ List.replicate (width - cell.length) (cp ' ')

/-- `{cell:>width}`. -/
def rjust (width : ℕ) (cell : Text) : Text := List.replicate (width - cell.length) (cp ' ') ++ cell

/-- What the rows are sorted by. A result without metrics has the lowest key. -/
noncomputable def aucpKey (r : VariantResult) : ℝ :=
  match r.report with
  | some report => report.partialAuc
  | none => -1

/-- The results in the order of the rows. -/
noncomputable def ranked (results : List VariantResult) : List VariantResult :=
  sortedReverse aucpKey results

/-- The widths of the columns after the first two. -/
def columnWidths : List ℕ := [8, 8, 8, 8, 7, 9]

/-- A row of cells. -/
def tableRow (name payl : Text) (cells : List Text) : Text :=
  join (text " ") (ljust 16 name :: ljust 8 payl :: List.zipWith rjust columnWidths cells)

/-- The titles of the columns. -/
def tableHeader : Text :=
  tableRow (text "variant") (text "HMMPayl")
    [text "ROC-AUC", text "PR-AUC", text "AUCp", text "TPR@FPR", text "F1", text "covered"]

/-- The rule above and below the rows. -/
def tableRule : Text := List.replicate tableHeader.length (cp '─')

variable [Interpreter]

/-- **The row of a result.** -/
noncomputable def resultRow (r : VariantResult) : Text :=
  tableRow r.variant.name (if r.variant.usesHmmpayl then text "Y" else text "·")
    (match r.report, r.classification with
      | some report, some classification =>
        [Interpreter.fixed3 (report.rocAuc : ℝ), Interpreter.fixed3 (report.prAuc : ℝ),
          Interpreter.fixed3 (report.partialAuc : ℝ), Interpreter.fixed3 (report.tprAtFpr : ℝ),
          Interpreter.fixed3 ((classification.f1 : ℝ) : EReal), natText r.covered]
      | _, _ =>
        [text "n/a", text "n/a", text "n/a", text "n/a", text "n/a", natText r.covered])

/-- **The table** of results. -/
noncomputable def renderComparison (results : List VariantResult) : Text :=
  join (text "\n")
    ([tableRule, tableHeader, tableRule] ++ (ranked results).map resultRow ++ [tableRule])

example : tableHeader =
    text "variant          HMMPayl   ROC-AUC   PR-AUC     AUCp  TPR@FPR      F1   covered" := by
  decide

/-! ### Partial areas of a benchmark -/

section

variable {normal attack : List EReal} {targetFpr : ℝ} {r : EvaluationReport}

omit [Interpreter]

/-- **The scores of a report** are finite. -/
theorem real_of_evaluate [ScikitLearn] (hfin : ScikitLearn.Finite)
    (h : evaluate normal attack targetFpr = .ok r) :
    ∀ s ∈ normal ++ attack, s ≠ ⊥ ∧ s ≠ ⊤ := by
  obtain ⟨point, hpoint, -⟩ := exists_of_bind_eq_ok h
  obtain ⟨curve, hcurve, -⟩ := exists_of_bind_eq_ok hpoint
  intro s hs
  obtain ⟨hbot, htop⟩ := hfin _ _ _ hcurve (-s) (List.mem_map_of_mem hs)
  exact ⟨fun h => htop (EReal.neg_eq_top_iff.mpr h), fun h => hbot (EReal.neg_eq_bot_iff.mpr h)⟩

/-- A partial area is a fraction. -/
theorem partialAuc_mem_unit [ScikitLearn] (hlib : ScikitLearn.Documented) (hn : normal ≠ [])
    (ha : attack ≠ []) (hreal : ∀ s ∈ normal ++ attack, s ≠ ⊥ ∧ s ≠ ⊤) {area : ℝ}
    (h : partialAuc normal attack targetFpr = .ok area) : 0 ≤ area ∧ area ≤ 1 := by
  by_cases htarget : 0 < targetFpr ∧ targetFpr ≤ 1
  · rw [partialAuc_eq hlib hn ha hreal htarget] at h
    rw [← Except.ok.inj h]
    exact meanHeight_mem_unit _ _ htarget.1
  · rw [partialAuc, if_neg htarget] at h
    cases h

end

section

variable [Libraries] [ScikitLearn] {b : ModelBenchmark} {v : ModelVariant} {r : VariantResult}

/-- **The partial areas of a benchmark** are fractions. -/
theorem ModelBenchmark.partialAuc_mem_unit (hskl : ScikitLearn.Documented)
    (hfin : ScikitLearn.Finite) (h : b.evaluateVariant v = .ok r) :
    ∀ report ∈ r.report, 0 ≤ report.partialAuc ∧ report.partialAuc ≤ 1 := by
  intro report hreport
  obtain ⟨d, trained, scored, -, -, hscored, rfl⟩ := evaluateVariant_eq_ok_iff.mp h
  obtain ⟨as, rep, q, -, hmetrics, rfl⟩ := scoreLabeledFlows_eq_ok hscored
  obtain rfl : rep = some report := hreport
  rw [Tally.metrics] at hmetrics
  split_ifs at hmetrics with hne
  · obtain ⟨r', hr', hmetrics⟩ := exists_of_bind_eq_ok hmetrics
    obtain rfl : r' = report := Option.some.inj (congrArg Prod.fst (Except.ok.inj hmetrics))
    exact Waf.partialAuc_mem_unit hskl hne.1 hne.2 (real_of_evaluate hfin hr')
      (partialAuc_of_evaluate hr')
  · cases hmetrics

/-- The key of a result is above -1 if it has metrics, and -1 otherwise. -/
theorem ModelBenchmark.aucpKey_cases (hskl : ScikitLearn.Documented) (hfin : ScikitLearn.Finite)
    (h : b.evaluateVariant v = .ok r) :
    (r.report.isSome = true ∧ 0 ≤ aucpKey r) ∨ (r.report.isSome = false ∧ aucpKey r = -1) := by
  have hunit := partialAuc_mem_unit hskl hfin h
  rw [aucpKey]
  cases hr : r.report with
  | none => exact Or.inr ⟨rfl, rfl⟩
  | some report => exact Or.inl ⟨rfl, (hunit report hr).1⟩

/-! ### The order of the rows -/

/-- **The rows of a comparison.** The table has one row for each version. The versions with
metrics come first, by their partial areas, the largest first; versions with the same partial
area, and the versions without metrics, which come last, stand as they were given. -/
theorem ModelBenchmark.renderComparison_run (hskl : ScikitLearn.Documented)
    (hfin : ScikitLearn.Finite) {variants : List ModelVariant} {results : List VariantResult}
    (h : b.run variants = .ok results) :
    ∃ scored, scored.Perm (results.filter fun r => r.report.isSome) ∧
      Descending aucpKey scored ∧
      (∀ area, ofKey aucpKey area scored =
        ofKey aucpKey area (results.filter fun r => r.report.isSome)) ∧
      renderComparison results = join (text "\n") ([tableRule, tableHeader, tableRule] ++
        (scored ++ results.filter fun r => !r.report.isSome).map resultRow ++ [tableRule]) := by
  have hcases : ∀ r ∈ results, (r.report.isSome = true ∧ 0 ≤ aucpKey r) ∨
      (r.report.isSome = false ∧ aucpKey r = -1) := by
    intro r hr
    obtain ⟨v, -, hv⟩ := exists_of_mem_values h hr
    exact aucpKey_cases hskl hfin hv
  have hscored : results.filter (fun r => decide (aucpKey r ≠ -1)) =
      results.filter fun r => r.report.isSome := by
    refine List.filter_congr fun r hr => ?_
    rcases hcases r hr with ⟨hsome, hkey⟩ | ⟨hnone, hkey⟩
    · rw [hsome]
      exact decide_eq_true (by linarith)
    · rw [hnone]
      exact decide_eq_false (not_not_intro hkey)
  have hunscored : ofKey aucpKey (-1) results = results.filter fun r => !r.report.isSome := by
    refine List.filter_congr fun r hr => ?_
    rcases hcases r hr with ⟨hsome, hkey⟩ | ⟨hnone, hkey⟩
    · rw [hsome]
      exact decide_eq_false (by linarith)
    · rw [hnone]
      exact decide_eq_true hkey
  have hlow : ∀ r ∈ results, -1 ≤ aucpKey r := by
    intro r hr
    rcases hcases r hr with ⟨-, hkey⟩ | ⟨-, hkey⟩ <;> linarith
  refine ⟨ranked (results.filter fun r => r.report.isSome), perm_sortedReverse _ _,
    descending_sortedReverse _ _, fun area => ofKey_sortedReverse _ _ _, ?_⟩
  rw [renderComparison, ranked, sortedReverse_lowest hlow, hscored, hunscored]
  rfl

/-- **The order in which versions are compared** does not matter to the table, unless two of
them have the same partial area, or none. -/
theorem ModelBenchmark.renderComparison_perm {variants variants' : List ModelVariant}
    {results : List VariantResult} (h : b.run variants = .ok results)
    (hperm : variants.Perm variants') (hkeys : (results.map aucpKey).Nodup) :
    ∃ results', b.run variants' = .ok results' ∧ results.Perm results' ∧
      renderComparison results' = renderComparison results := by
  obtain ⟨results', hrun, hresults⟩ := mapM_perm hperm h
  refine ⟨results', hrun, hresults, ?_⟩
  have hsame : ∀ area, ofKey aucpKey area results' = ofKey aucpKey area results := by
    intro area
    have hsub : (ofKey aucpKey area results).Perm (ofKey aucpKey area results') := hresults.filter _
    -- there is at most one result of a key
    have hlen : (ofKey aucpKey area results).length ≤ 1 := by
      rw [ofKey, ← List.countP_eq_length_filter]
      have hcount := List.nodup_iff_count_le_one.mp hkeys area
      rw [List.count, List.countP_map] at hcount
      refine le_trans (List.countP_mono_left fun r _ hr => ?_) hcount
      exact beq_iff_eq.mpr (of_decide_eq_true hr)
    rcases heq : ofKey aucpKey area results with _ | ⟨r, rs⟩
    · rw [heq] at hsub
      exact List.nil_perm.mp hsub
    · rw [heq, List.length_cons] at hlen
      obtain rfl : rs = [] := List.length_eq_zero_iff.mp (by omega)
      rw [heq] at hsub
      exact (List.singleton_perm.mp hsub).symm
  rw [renderComparison, renderComparison, ranked, ranked]
  have hsorted : sortedReverse aucpKey results' = sortedReverse aucpKey results :=
    sortedReverse_unique (descending_sortedReverse _ _) fun area =>
      (ofKey_sortedReverse _ _ _).trans (hsame area).symm
  rw [hsorted]

omit [Interpreter] [Libraries] [ScikitLearn] in
/-- The presets and a version that has no metrics, which is the last row of the table: there are
ten flows to train with, and it needs eleven. -/
theorem ModelBenchmark.renderComparison_run_presets :
    let _ : Interpreter := .ascii
    let _ : Libraries := .memoryless
    let _ : ScikitLearn := .exact
    let normal := Flow.new (text "http") 80 .inbound [71, 69, 84, 32, 47, 97]
    let attack := Flow.new (text "http") 80 .inbound [71, 69, 84, 32, 47, 39]
    let b : ModelBenchmark :=
      ⟨List.replicate 10 normal, [normal], [(normal, false), (attack, true)]⟩
    let eleven : ModelVariant := { name := text "eleven", minTrainSequences := 11 }
    ∃ results scored last, b.run (eleven :: ablationMatrix) = .ok results ∧
      scored.length = 6 ∧ Descending aucpKey scored ∧ last.variant = eleven ∧
      renderComparison results = join (text "\n") ([tableRule, tableHeader, tableRule] ++
        (scored ++ [last]).map resultRow ++ [tableRule]) := by
  intro _ _ _ normal attack b eleven
  have hlib := Libraries.documented_memoryless
  have hskl := ScikitLearn.documented_exact
  have heleven : eleven.Runnable (· ∈ b.normal) := ModelVariant.runnable_memoryless rfl
    (Nat.succ_ne_zero 7) (fun cap h => absurd h.symm (Option.some_ne_none cap)) (by norm_num) _
  obtain ⟨last, hlast⟩ := exists_evaluateVariant hlib hskl b heleven
  obtain ⟨presets, hpresets⟩ := exists_run hlib hskl b fun v hv =>
    ModelVariant.runnable_of_mem_ablationMatrix hv _
  have hrun : b.run (eleven :: ablationMatrix) = .ok (last :: presets) :=
    mapM_cons_eq_ok_iff.mpr ⟨last, presets, hlast, hpresets, rfl⟩
  -- the presets have metrics, and the other version has none
  have hcovers : b.covers 10 normal = true ∧ b.covers 10 attack = true ∧
      b.covers 11 normal = false := by decide
  have hlabeled : b.labeledEval = [(normal, false), (attack, true)] := rfl
  have hsome : ∀ r ∈ presets, r.report.isSome = true := by
    intro r hr
    obtain ⟨v, hv, hvr⟩ := exists_of_mem_values hpresets hr
    obtain ⟨hvariant, hc⟩ := complete_of_evaluateVariant hvr
    rw [hc.report, hc.evalNormal, hc.evalAttack, hvariant,
      minTrainSequences_of_mem_ablationMatrix hv, hlabeled]
    simp [hcovers.1, hcovers.2.1]
  obtain ⟨hvariant, hc⟩ := complete_of_evaluateVariant hlast
  have hnone : last.report.isSome = false := by
    rw [← Bool.not_eq_true, hc.report, hc.evalNormal, hvariant, hlabeled]
    simp [eleven, hcovers.2.2]
  obtain ⟨scored, hperm, hdesc, -, htable⟩ :=
    renderComparison_run hskl ScikitLearn.finite_exact hrun
  have hfilter : (last :: presets).filter (fun r => r.report.isSome) = presets := by
    rw [List.filter_cons_of_neg (by rw [hnone]; exact Bool.false_ne_true),
      List.filter_eq_self.mpr hsome]
  have hrest : (last :: presets).filter (fun r => !r.report.isSome) = [last] := by
    rw [List.filter_cons_of_pos (by rw [hnone]; rfl), List.filter_eq_nil_iff.mpr]
    intro r hr
    rw [hsome r hr]
    exact Bool.false_ne_true
  rw [hfilter] at hperm
  rw [hrest] at htable
  have hlen : presets.length = 6 := length_of_mapM hpresets
  exact ⟨_, scored, last, hrun, hperm.length_eq.trans hlen, hdesc, hvariant, htable⟩

omit [Interpreter] [Libraries] [ScikitLearn] in
/-- A preset that needs one flow for a partition, and one that needs ten and has no metrics. -/
theorem ModelBenchmark.renderComparison_perm_two :
    let _ : Interpreter := .ascii
    let _ : Libraries := .memoryless
    let _ : ScikitLearn := .exact
    let normal := Flow.new (text "http") 80 .inbound [71, 69, 84, 32, 47, 97]
    let attack := Flow.new (text "http") 80 .inbound [71, 69, 84, 32, 47, 39]
    let b : ModelBenchmark := ⟨[normal], [normal], [(normal, false), (attack, true)]⟩
    let one : ModelVariant := { name := text "one", minTrainSequences := 1 }
    let ten : ModelVariant := { name := text "ten" }
    ∃ results results', b.run [one, ten] = .ok results ∧ b.run [ten, one] = .ok results' ∧
      renderComparison results' = renderComparison results := by
  intro _ _ _ normal attack b one ten
  have hlib := Libraries.documented_memoryless
  have hskl := ScikitLearn.documented_exact
  have hfin := ScikitLearn.finite_exact
  have hrate : (0 : ℝ) < 5 / 100 ∧ (5 / 100 : ℝ) < 1 := by norm_num
  have hone : one.Runnable (· ∈ b.normal) := ModelVariant.runnable_memoryless rfl
    (Nat.succ_ne_zero 7) (fun cap h => absurd h.symm (Option.some_ne_none cap)) hrate _
  have hten : ten.Runnable (· ∈ b.normal) := ModelVariant.runnable_memoryless rfl
    (Nat.succ_ne_zero 7) (fun cap h => absurd h.symm (Option.some_ne_none cap)) hrate _
  obtain ⟨r, hr⟩ := exists_evaluateVariant hlib hskl b hone
  obtain ⟨r', hr'⟩ := exists_evaluateVariant hlib hskl b hten
  have hrun : b.run [one, ten] = .ok [r, r'] :=
    mapM_cons_eq_ok_iff.mpr ⟨r, [r'], hr, mapM_cons_eq_ok_iff.mpr ⟨r', [], hr', rfl, rfl⟩, rfl⟩
  obtain ⟨hv, hc⟩ := complete_of_evaluateVariant hr
  obtain ⟨hv', hc'⟩ := complete_of_evaluateVariant hr'
  -- the partition of the flows has a model of the first version only
  have hcovers : b.covers 1 normal = true ∧ b.covers 1 attack = true ∧
      b.covers 10 normal = false := by decide
  have hlabeled : b.labeledEval = [(normal, false), (attack, true)] := rfl
  have hsome : r.report.isSome = true := by
    rw [hc.report, hc.evalNormal, hc.evalAttack, hv, hlabeled]
    simp [one, hcovers.1, hcovers.2.1]
  have hnone : r'.report.isSome = false := by
    rw [← Bool.not_eq_true, hc'.report, hc'.evalNormal, hv', hlabeled]
    simp [ten, hcovers.2.2]
  have hkeys : ([r, r'].map aucpKey).Nodup := by
    rcases aucpKey_cases hskl hfin hr with ⟨-, hkey⟩ | ⟨hr, -⟩
    · rcases aucpKey_cases hskl hfin hr' with ⟨hr', -⟩ | ⟨-, hkey'⟩
      · rw [hnone] at hr'
        cases hr'
      · rw [List.map_cons, List.map_cons, List.map_nil, hkey']
        simp
        linarith
    · rw [hsome] at hr
      cases hr
  obtain ⟨results', hrun', -, htable⟩ :=
    renderComparison_perm hrun (List.Perm.swap ten one []) hkeys
  exact ⟨_, results', hrun, hrun', htable⟩

end

end Waf
