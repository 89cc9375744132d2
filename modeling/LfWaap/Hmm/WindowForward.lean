import LfWaap.Hmm.NormalHmm

/-!
# The windowed forward pass

`Waf.NormalHmm.windowLogliks` runs the forward recursion for all windows of a
sequence at once, in log space, with slices of the emission table in place of the
symbols of a window. Here it is shown to be the list of the log-likelihoods of the
sliding windows, each a sum over all hidden paths
(`Waf.NormalHmm.windowLogliks_eq_map`), and what this makes of the score
(`Waf.NormalHmm.score_eq_log_mean`).

The invariant of the loop is `Waf.NormalHmm.windowForward`: after position `t`, the
vector of window `j` is the logarithm of the forward vector of the `t + 1` symbols
from `j` on. Zero probabilities need no case of their own, because
`Stats.log_mul` and `Stats.logsumexp_log` hold at zero.
-/

namespace Waf

open Python Stats

open scoped NNReal

/-! ### Sliding windows -/

/-- The windows of a sequence that is long enough, the whole sequence being its own
window. -/
theorem slidingWindows_eq {α : Type} {seq : List α} {n : ℕ} (hn : 1 ≤ n) (hL : n ≤ seq.length) :
    slidingWindows seq n =
      (List.range (seq.length - n + 1)).map fun j => (seq.drop j).take n := by
  unfold slidingWindows
  split
  · next h =>
    obtain rfl : n = seq.length := by omega
    rw [Nat.sub_self, Nat.zero_add, List.range_one, List.map_singleton, List.drop_zero,
      List.take_length]
  · rw [Int.toNat_natCast]

/-- Every window of a sequence that is long enough has the length of a window. -/
theorem length_of_mem_slidingWindows {α : Type} {seq w : List α} {n : ℕ} (hn : 1 ≤ n)
    (hL : n ≤ seq.length) (hw : w ∈ slidingWindows seq n) : w.length = n := by
  rw [slidingWindows_eq hn hL] at hw
  obtain ⟨j, hj, rfl⟩ := List.mem_map.mp hw
  rw [List.mem_range] at hj
  rw [List.length_take, List.length_drop]
  omega

namespace NormalHmm

variable {S K : ℕ} (model : CategoricalHmm S K) (seq : List (Fin K))

/-! ### The forward vector of a window -/

/-- The forward vector of the `t + 1` symbols from position `j` on. -/
noncomputable def windowForward (j t : ℕ) : Fin S → ℝ≥0 :=
  match seq.drop j with
  | [] => 0
  | x :: xs => model.forward x (xs.take t)

theorem windowForward_zero {j : ℕ} (hj : j < seq.length) :
    windowForward model seq j 0 = model.forwardInit seq[j] := by
  rw [windowForward, List.drop_eq_getElem_cons hj]
  rfl

theorem windowForward_succ {j t : ℕ} (hj : j + t + 1 < seq.length) :
    windowForward model seq j (t + 1) =
      model.forwardStep (windowForward model seq j t) seq[j + t + 1] := by
  have hlen : t < (seq.drop (j + 1)).length := by
    rw [List.length_drop]
    omega
  have hget : (seq.drop (j + 1))[t] = seq[j + t + 1] := by
    rw [List.getElem_drop]
    exact getElem_congr_idx (by omega)
  rw [windowForward, windowForward, List.drop_eq_getElem_cons (show j < seq.length by omega)]
  change model.forward _ ((seq.drop (j + 1)).take (t + 1)) = _
  rw [List.take_succ_eq_append_getElem hlen, Hmm.forward, List.foldl_append, hget]
  rfl

/-- The forward vector of a whole window sums to its probability. -/
theorem sum_windowForward {j n : ℕ} (hj : j < seq.length) :
    ∑ s, windowForward model seq j n s = model.seqProb ((seq.drop j).take (n + 1)) := by
  rw [windowForward, List.drop_eq_getElem_cons hj, List.take_succ_cons]
  exact model.sum_forward _ _

/-! ### The loop over positions -/

/-- The vectors of all windows before the loop. -/
theorem initial_alpha (n : ℕ) (hn : 1 ≤ n) (hL : n ≤ seq.length) :
    ((emitPos model seq).take (seq.length - n + 1)).map
        (fun emit s => log (model.startprob s) + emit s) =
      (List.range (seq.length - n + 1)).map fun j s => log (windowForward model seq j 0 s) := by
  have hlen : min (seq.length - n + 1) seq.length = seq.length - n + 1 := by omega
  refine List.ext_getElem (by simp [emitPos, hlen]) fun j h₁ h₂ => ?_
  have hj : j < seq.length := by
    simp at h₂
    omega
  simp only [emitPos, List.getElem_map, List.getElem_take, List.getElem_range,
    windowForward_zero model seq hj, Hmm.forwardInit, log_mul]

/-- **One step of the loop** moves every window one position on. -/
theorem windowStep_forward {n t : ℕ} (hL : n ≤ seq.length) (ht : t + 1 < n) :
    windowStep model seq (seq.length - n + 1)
        ((List.range (seq.length - n + 1)).map fun j s => log (windowForward model seq j t s))
        (t + 1) =
      (List.range (seq.length - n + 1)).map fun j s =>
        log (windowForward model seq j (t + 1) s) := by
  have hlen : min (seq.length - n + 1) (seq.length - (t + 1)) = seq.length - n + 1 := by omega
  refine List.ext_getElem (by simp [windowStep, emitPos, hlen]) fun j h₁ h₂ => ?_
  have hj : j + t + 1 < seq.length := by
    simp at h₂
    omega
  -- the loop drops `t + 1` emissions and reads the `j`-th of the rest
  have hlt : t + 1 + j < seq.length := by omega
  have hidx : seq[t + 1 + j] = seq[j + t + 1] := getElem_congr_idx (by omega)
  simp only [windowStep, emitPos, List.getElem_zipWith, List.getElem_map, List.getElem_take,
    List.getElem_drop, List.getElem_range, windowForward_succ model seq hj, hidx]
  funext s
  simp only [Hmm.forwardStep, log_mul, ← logsumexp_log]

/-- **The loop**: after the positions up to `k`, every window has its forward
vector. -/
theorem foldl_windowStep {n k : ℕ} (hn : 1 ≤ n) (hL : n ≤ seq.length) (hk : k + 1 ≤ n) :
    (List.range' 1 k).foldl (windowStep model seq (seq.length - n + 1))
        (((emitPos model seq).take (seq.length - n + 1)).map
          fun emit s => log (model.startprob s) + emit s) =
      (List.range (seq.length - n + 1)).map fun j s => log (windowForward model seq j k s) := by
  induction k with
  | zero => exact initial_alpha model seq n hn hL
  | succ k ih =>
    rw [List.range'_1_concat, List.foldl_append, ih (by omega), List.foldl_cons, List.foldl_nil,
      Nat.add_comm 1 k]
    exact windowStep_forward model seq hL (by omega)

/-- **The vectorised pass computes every window**: the log-likelihoods of the
sliding windows, in order. -/
theorem windowLogliks_eq_map {n : ℕ} (hn : 1 ≤ n) (hL : n ≤ seq.length) :
    windowLogliks model n seq = (slidingWindows seq n).map fun w => log (model.seqProb w) := by
  rw [windowLogliks, foldl_windowStep model seq hn hL (by omega), slidingWindows_eq hn hL,
    List.map_map, List.map_map]
  refine List.map_congr_left fun j hj => ?_
  rw [List.mem_range] at hj
  have hpred : n - 1 + 1 = n := by omega
  rw [Function.comp_apply, Function.comp_apply, logsumexp_log,
    sum_windowForward model seq (show j < seq.length by omega), hpred]

/-! ### The score -/

/-- The logarithm of a mean. -/
theorem log_mean (p : ℝ≥0) (n : ℕ) (hn : n ≠ 0) : log p - log (n : ℝ≥0) = log (p / n) := by
  have hinv : log ((n : ℝ≥0)⁻¹) = -log (n : ℝ≥0) := by
    rw [log, log, ENNReal.coe_inv (Nat.cast_ne_zero.mpr hn), ENNReal.log_inv]
  rw [div_eq_mul_inv, log_mul, hinv, sub_eq_add_neg]

/-- **The score with windows** is the logarithm of the mean window probability, per
symbol of a window. -/
theorem score_eq_log_mean [Libraries] {h : NormalHmm K} {m : CategoricalHmm h.nStates K}
    (hm : h.model = some m) {n : ℕ} (hw : h.window = n) (hn : 1 ≤ n) (hL : n < seq.length) :
    h.score seq = .ok (log (((slidingWindows seq n).map m.seqProb).sum /
      (slidingWindows seq n).length) / ((n : ℝ) : EReal)) := by
  have hne : seq ≠ [] := by
    rintro rfl
    simp at hL
  have hwin : 0 < h.window ∧ h.window < seq.length := by omega
  have htoNat : h.window.toNat = n := by omega
  have hcast : ((h.window : ℝ) : EReal) = ((n : ℝ) : EReal) := by
    rw [hw]
    norm_cast
  have hlen : (slidingWindows seq n).length ≠ 0 := by
    rw [slidingWindows_eq hn hL.le, List.length_map, List.length_range]
    omega
  rw [score, hm]
  simp only [if_neg hne, if_pos hwin, htoNat, hcast, windowLogliks_eq_map m seq hn hL.le,
    List.length_map]
  have hsum : logsumexpList ((slidingWindows seq n).map fun w => log (m.seqProb w)) =
      log ((slidingWindows seq n).map m.seqProb).sum := by
    rw [← logsumexpList_log, List.map_map]
    rfl
  rw [hsum, log_mean _ _ hlen]

/-! ### The pass and the definition -/

/-- **The vectorised pass agrees with the definition window by window.** For any
start vector, transition matrix and emission matrix, zeros allowed, and any sequence
of at least one window, the pass returns one value a window, the logarithm of the sum
over all hidden paths through it; and the score of a longer sequence is the logarithm
of the mean window probability, per symbol of a window. -/
theorem score_refines_windows [Libraries] (h : NormalHmm K) (m : CategoricalHmm h.nStates K)
    (hm : h.model = some m) (n : ℕ) (hw : h.window = n) (hn : 1 ≤ n) (hL : n ≤ seq.length) :
    (windowLogliks m n seq).length = seq.length - n + 1 ∧
      windowLogliks m n seq = (slidingWindows seq n).map (fun w => log (m.seqProb w)) ∧
      (n < seq.length →
        h.score seq = .ok (log (((slidingWindows seq n).map m.seqProb).sum /
          (slidingWindows seq n).length) / ((n : ℝ) : EReal))) := by
  refine ⟨?_, windowLogliks_eq_map m seq hn hL, score_eq_log_mean seq hm hw hn⟩
  rw [windowLogliks_eq_map m seq hn hL, List.length_map, slidingWindows_eq hn hL, List.length_map,
    List.length_range]

/-- The pass over three symbols with windows of two, and the score. -/
theorem score_refines_windows_uniform :
    let _ : Libraries := .memoryless
    let m := CategoricalHmm.uniform 2 2
    let h : NormalHmm 2 := { nStates := 2, window := 2, model := some m }
    (windowLogliks m 2 [0, 1, 1]).length = 2 ∧
      windowLogliks m 2 [0, 1, 1] = [[0, 1], [1, 1]].map (fun w => log (m.seqProb w)) ∧
      h.score [0, 1, 1] = .ok (log (([[0, 1], [1, 1]].map m.seqProb).sum / (2 : ℕ)) /
        (((2 : ℕ) : ℝ) : EReal)) := by
  intro _ m h
  obtain ⟨hlen, hlogliks, hscore⟩ := score_refines_windows (K := 2) [0, 1, 1] h m rfl 2 rfl
    (by decide) (by decide)
  exact ⟨hlen, hlogliks, hscore (by decide)⟩

end NormalHmm

end Waf
