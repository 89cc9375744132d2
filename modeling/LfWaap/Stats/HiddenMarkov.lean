import Mathlib

/-!
# Hidden Markov models with finitely many symbols

The probability of a sequence under a hidden Markov model, in the two forms a
program and its specification use.

The *definition* is a sum over all hidden paths, of the probability of starting
at its first state, times that of the emissions, times that of the transitions
(`Stats.Hmm.seqProb`). There are exponentially many paths. The *program* is the
forward recursion (`Stats.Hmm.forward`), which carries one number a state.
`Stats.Hmm.sum_forward` is their equality, over any commutative semiring: nothing
about probabilities is used, in particular not that rows sum to one, and zeros
are allowed everywhere. The induction peels the *first* position off, so that the
vector the recursion starts from is arbitrary and the induction hypothesis can be
used at the vector one step later. In the same way, a step of the recursion shows that
the sequences of one length have total probability one where the rows do
(`Stats.Hmm.sum_seqProb`), and what bounds on the emissions mean for a sequence
(`Stats.Hmm.seqProb_le_pow`, `Stats.Hmm.pow_le_seqProb`); and where every state can emit every
symbol, the zeros of a forward vector do not depend on the symbols
(`Stats.Hmm.seqProb_eq_zero_iff`).

A program computes in log space. `Stats.logsumexp` is the sum as seen from there,
with `log 0 = -∞`, and `Stats.logsumexp_log`, `Stats.log_mul` say that logarithms
carry sums and products over exactly, also at zero.
-/

namespace Stats

open scoped ENNReal NNReal

/-! ### Models and the path sum -/

/-- A hidden Markov model with states `σ` and symbols `κ`; the entries are in an
arbitrary semiring. -/
structure Hmm (σ κ R : Type) where
  /-- The start vector. -/
  startprob : σ → R
  /-- The transition matrix, row by source state. -/
  transmat : σ → σ → R
  /-- The emission matrix, row by state. -/
  emissionprob : σ → κ → R

namespace Hmm

variable {σ κ R : Type} [Fintype σ] [CommSemiring R] (m : Hmm σ κ R)

/-- **The probability of a sequence**: the sum, over all hidden paths, of
start, emissions and transitions. -/
def seqProb : List κ → R
  | [] => 1
  | x :: xs => ∑ π : Fin (xs.length + 1) → σ,
      m.startprob (π 0) * (∏ t, m.emissionprob (π t) ((x :: xs).get t)) *
        ∏ t : Fin xs.length, m.transmat (π t.castSucc) (π t.succ)

/-! ### The forward recursion -/

/-- The first vector of the forward recursion. -/
def forwardInit (x : κ) : σ → R := fun s => m.startprob s * m.emissionprob s x

/-- One step of the forward recursion: move, then emit. -/
def forwardStep (a : σ → R) (x : κ) : σ → R :=
  fun s => (∑ i, a i * m.transmat i s) * m.emissionprob s x

/-- The forward vector after a nonempty sequence. -/
def forward (x : κ) (xs : List κ) : σ → R := xs.foldl m.forwardStep (m.forwardInit x)

/-- The path sum of the positions after a first one whose weights are given. -/
def pathSum (a : σ → R) (xs : List κ) : R :=
  ∑ π : Fin (xs.length + 1) → σ, a (π 0) *
    ∏ t : Fin xs.length, m.transmat (π t.castSucc) (π t.succ) * m.emissionprob (π t.succ) (xs.get t)

theorem pathSum_nil (a : σ → R) : m.pathSum a [] = ∑ s, a s := by
  refine Fintype.sum_equiv (Equiv.funUnique (Fin 1) σ) _ _ fun π => ?_
  simp [Equiv.funUnique]

/-- Peeling the first position off a path sum. -/
theorem pathSum_cons (a : σ → R) (x : κ) (xs : List κ) :
    m.pathSum a (x :: xs) = m.pathSum (m.forwardStep a x) xs := by
  rw [pathSum, pathSum]
  change ∑ π : Fin (xs.length + 2) → σ, _ = _
  rw [← (Fin.consEquiv fun _ : Fin (xs.length + 2) => σ).sum_comp, Fintype.sum_prod_type,
    Finset.sum_comm]
  -- the rest `π` of the path is fixed, and its first state is summed out
  refine Finset.sum_congr rfl fun π _ => ?_
  have hterm : ∀ i : σ,
      a i * ∏ t : Fin (xs.length + 1),
        m.transmat ((Fin.cons i π : Fin (xs.length + 2) → σ) t.castSucc)
            ((Fin.cons i π : Fin (xs.length + 2) → σ) t.succ) *
          m.emissionprob ((Fin.cons i π : Fin (xs.length + 2) → σ) t.succ) ((x :: xs).get t) =
      (a i * m.transmat i (π 0)) * (m.emissionprob (π 0) x *
        ∏ t : Fin xs.length, m.transmat (π t.castSucc) (π t.succ) *
          m.emissionprob (π t.succ) (xs.get t)) := by
    intro i
    rw [Fin.prod_univ_succ]
    simp only [Fin.castSucc_zero, Fin.cons_zero, Fin.cons_succ, ← Fin.succ_castSucc]
    change a i * (m.transmat i (π 0) * m.emissionprob (π 0) x * _) = _
    ring_nf
    rfl
  calc _ = ∑ i, (a i * m.transmat i (π 0)) * (m.emissionprob (π 0) x *
        ∏ t : Fin xs.length, m.transmat (π t.castSucc) (π t.succ) *
          m.emissionprob (π t.succ) (xs.get t)) := Finset.sum_congr rfl fun i _ => hterm i
    _ = _ := by rw [← Finset.sum_mul, forwardStep, mul_assoc]

/-- The forward recursion computes the path sum from any first vector. -/
theorem sum_foldl_forwardStep (a : σ → R) (xs : List κ) :
    ∑ s, xs.foldl m.forwardStep a s = m.pathSum a xs := by
  induction xs generalizing a with
  | nil => rw [List.foldl_nil, pathSum_nil]
  | cons x xs ih => rw [List.foldl_cons, ih, pathSum_cons]

/-- The path sum of a whole sequence. -/
theorem seqProb_cons (x : κ) (xs : List κ) :
    m.seqProb (x :: xs) = m.pathSum (m.forwardInit x) xs := by
  rw [seqProb, pathSum]
  refine Finset.sum_congr rfl fun π _ => ?_
  have hemit : ∏ t, m.emissionprob (π t) ((x :: xs).get t) =
      m.emissionprob (π 0) x * ∏ t : Fin xs.length, m.emissionprob (π t.succ) (xs.get t) :=
    Fin.prod_univ_succ _
  rw [hemit, Finset.prod_mul_distrib, forwardInit]
  ring

/-- **The forward recursion is the path sum.** -/
theorem sum_forward (x : κ) (xs : List κ) : ∑ s, m.forward x xs s = m.seqProb (x :: xs) := by
  rw [forward, sum_foldl_forwardStep, seqProb_cons]

/-! ### Positivity -/

section Positive

variable [PartialOrder R] [CanonicallyOrderedAdd R] [NoZeroDivisors R]

/-- **No dead end**: some state can be started from, every state can be left,
and every state can emit every symbol. -/
structure Live : Prop where
  /-- Some state can be started from. -/
  start : ∃ s, m.startprob s ≠ 0
  /-- Every state can be left. -/
  trans : ∀ i, ∃ s, m.transmat i s ≠ 0
  /-- Every state can emit every symbol. -/
  emit : ∀ s x, m.emissionprob s x ≠ 0

variable {m}

omit [PartialOrder R] [CanonicallyOrderedAdd R] [Fintype σ] in
theorem exists_forwardInit_ne_zero (h : m.Live) (x : κ) : ∃ s, m.forwardInit x s ≠ 0 := by
  obtain ⟨s, hs⟩ := h.start
  exact ⟨s, mul_ne_zero hs (h.emit s x)⟩

theorem exists_forwardStep_ne_zero (h : m.Live) {a : σ → R} (ha : ∃ s, a s ≠ 0) (x : κ) :
    ∃ s, m.forwardStep a x s ≠ 0 := by
  obtain ⟨i, hi⟩ := ha
  obtain ⟨s, hs⟩ := h.trans i
  refine ⟨s, mul_ne_zero (fun hsum => ?_) (h.emit s x)⟩
  exact mul_ne_zero hi hs (Finset.sum_eq_zero_iff.mp hsum i (Finset.mem_univ i))

/-- **Every sequence has a positive probability** under a model without dead
ends. -/
theorem seqProb_ne_zero (h : m.Live) (xs : List κ) [Nontrivial R] : m.seqProb xs ≠ 0 := by
  cases xs with
  | nil => exact one_ne_zero
  | cons x xs =>
    have hfold : ∀ (ys : List κ) (a : σ → R), (∃ s, a s ≠ 0) →
        ∃ s, ys.foldl m.forwardStep a s ≠ 0 := by
      intro ys
      induction ys with
      | nil => exact fun a ha => ha
      | cons y ys ih => exact fun a ha => ih _ (exists_forwardStep_ne_zero h ha y)
    obtain ⟨s, hs⟩ := hfold xs _ (exists_forwardInit_ne_zero h x)
    rw [← sum_forward]
    exact fun hsum => hs (Finset.sum_eq_zero_iff.mp hsum s (Finset.mem_univ s))

/-- Where every state can emit every symbol, a step does not ask which symbol it is. -/
theorem forwardStep_eq_zero_iff (hemit : ∀ s x, m.emissionprob s x ≠ 0) {a b : σ → R}
    (hab : ∀ s, a s = 0 ↔ b s = 0) (x y : κ) (s : σ) :
    m.forwardStep a x s = 0 ↔ m.forwardStep b y s = 0 := by
  rw [forwardStep, forwardStep, mul_eq_zero_iff_right (hemit s x),
    mul_eq_zero_iff_right (hemit s y), Finset.sum_eq_zero_iff, Finset.sum_eq_zero_iff]
  simp only [mul_eq_zero, hab]

/-- **Whether a sequence is possible depends on its length alone**, where every state can emit
every symbol. -/
theorem seqProb_eq_zero_iff (hemit : ∀ s x, m.emissionprob s x ≠ 0) {xs ys : List κ}
    (h : xs.length = ys.length) : m.seqProb xs = 0 ↔ m.seqProb ys = 0 := by
  have hfold : ∀ (xs ys : List κ) (a b : σ → R), xs.length = ys.length →
      (∀ s, a s = 0 ↔ b s = 0) →
      ∀ s, xs.foldl m.forwardStep a s = 0 ↔ ys.foldl m.forwardStep b s = 0 := by
    intro xs
    induction xs with
    | nil =>
      rintro ys a b hlen hab s
      obtain rfl := List.eq_nil_of_length_eq_zero hlen.symm
      exact hab s
    | cons x xs ih =>
      rintro (_ | ⟨y, ys⟩) a b hlen hab s
      · cases hlen
      · exact ih ys _ _ (Nat.succ.inj hlen) (forwardStep_eq_zero_iff hemit hab x y) s
  rcases xs with _ | ⟨x, xs⟩
  · rw [List.eq_nil_of_length_eq_zero h.symm]
  · rcases ys with _ | ⟨y, ys⟩
    · cases h
    · have hinit : ∀ s, m.forwardInit x s = 0 ↔ m.forwardInit y s = 0 := fun s => by
        rw [forwardInit, forwardInit, mul_eq_zero_iff_right (hemit s x),
          mul_eq_zero_iff_right (hemit s y)]
      rw [← sum_forward, ← sum_forward, Finset.sum_eq_zero_iff, Finset.sum_eq_zero_iff]
      simp only [forward, hfold xs ys _ _ (Nat.succ.inj h) hinit]

end Positive

/-! ### Total mass -/

section Mass

variable [Fintype κ] {m}

/-- Emitting any symbol at all does not change the sum of a forward vector. -/
theorem sum_forwardStep (htrans : ∀ i, ∑ s, m.transmat i s = 1)
    (hemit : ∀ s, ∑ x, m.emissionprob s x = 1) (a : σ → R) :
    ∑ x, ∑ s, m.forwardStep a x s = ∑ s, a s := by
  calc ∑ x, ∑ s, m.forwardStep a x s
      = ∑ s, (∑ i, a i * m.transmat i s) * ∑ x, m.emissionprob s x := by
        rw [Finset.sum_comm]
        exact Finset.sum_congr rfl fun s _ => (Finset.mul_sum _ _ _).symm
    _ = ∑ i, a i * ∑ s, m.transmat i s := by
        simp only [hemit, mul_one, Finset.mul_sum]
        exact Finset.sum_comm
    _ = ∑ s, a s := by simp only [htrans, mul_one]

/-- Nor does emitting any sequence of a given length. -/
theorem sum_foldl_forwardStep_ofFn (htrans : ∀ i, ∑ s, m.transmat i s = 1)
    (hemit : ∀ s, ∑ x, m.emissionprob s x = 1) (n : ℕ) (a : σ → R) :
    ∑ x : Fin n → κ, ∑ s, (List.ofFn x).foldl m.forwardStep a s = ∑ s, a s := by
  induction n generalizing a with
  | zero => simp
  | succ n ih =>
    -- the first symbol is split off, and is summed last
    rw [← (Fin.consEquiv fun _ : Fin (n + 1) => κ).sum_comp, Fintype.sum_prod_type,
      ← sum_forwardStep htrans hemit a]
    refine Finset.sum_congr rfl fun y _ => ?_
    rw [← ih]
    refine Finset.sum_congr rfl fun x _ => ?_
    change ∑ s, (List.ofFn (Fin.cons y x : Fin (n + 1) → κ)).foldl m.forwardStep a s = _
    rw [List.ofFn_cons, List.foldl_cons]

/-- **The probabilities of the sequences of one length sum to one**, if the rows of the
model do. Transitions of probability zero are allowed. -/
theorem sum_seqProb (hstart : ∑ s, m.startprob s = 1) (htrans : ∀ i, ∑ s, m.transmat i s = 1)
    (hemit : ∀ s, ∑ x, m.emissionprob s x = 1) (n : ℕ) :
    ∑ x : Fin n → κ, m.seqProb (List.ofFn x) = 1 := by
  cases n with
  | zero => simp [seqProb]
  | succ n =>
    have hinit : ∑ y, ∑ s, m.forwardInit y s = 1 := by
      rw [Finset.sum_comm]
      simp only [forwardInit, ← Finset.mul_sum, hemit, mul_one, hstart]
    rw [← (Fin.consEquiv fun _ : Fin (n + 1) => κ).sum_comp, Fintype.sum_prod_type, ← hinit]
    refine Finset.sum_congr rfl fun y _ => ?_
    rw [← sum_foldl_forwardStep_ofFn htrans hemit n]
    refine Finset.sum_congr rfl fun x _ => ?_
    change m.seqProb (List.ofFn (Fin.cons y x : Fin (n + 1) → κ)) = _
    rw [List.ofFn_cons, ← sum_forward, forward]

end Mass

/-! ### Bounds -/

section Bounds

variable [PartialOrder R] [IsOrderedRing R] [CanonicallyOrderedAdd R] {m} {b : R}

/-- A step multiplies the sum of a forward vector by no more than the largest emission. -/
theorem sum_forwardStep_le (htrans : ∀ i, ∑ s, m.transmat i s = 1)
    (hb : ∀ s x, m.emissionprob s x ≤ b) (a : σ → R) (x : κ) :
    ∑ s, m.forwardStep a x s ≤ (∑ s, a s) * b := by
  calc ∑ s, m.forwardStep a x s
      ≤ ∑ s, (∑ i, a i * m.transmat i s) * b :=
        Finset.sum_le_sum fun s _ => mul_le_mul_of_nonneg_left (hb s x) zero_le
    _ = (∑ s, a s) * b := by
        rw [← Finset.sum_mul, Finset.sum_comm]
        simp only [← Finset.mul_sum, htrans, mul_one]

/-- And by no less than the smallest. -/
theorem le_sum_forwardStep (htrans : ∀ i, ∑ s, m.transmat i s = 1)
    (hb : ∀ s x, b ≤ m.emissionprob s x) (a : σ → R) (x : κ) :
    (∑ s, a s) * b ≤ ∑ s, m.forwardStep a x s := by
  calc (∑ s, a s) * b = ∑ s, (∑ i, a i * m.transmat i s) * b := by
        rw [← Finset.sum_mul, Finset.sum_comm]
        simp only [← Finset.mul_sum, htrans, mul_one]
    _ ≤ ∑ s, m.forwardStep a x s :=
        Finset.sum_le_sum fun s _ => mul_le_mul_of_nonneg_left (hb s x) zero_le

theorem sum_foldl_forwardStep_le (htrans : ∀ i, ∑ s, m.transmat i s = 1)
    (hb : ∀ s x, m.emissionprob s x ≤ b) (a : σ → R) (xs : List κ) :
    ∑ s, xs.foldl m.forwardStep a s ≤ (∑ s, a s) * b ^ xs.length := by
  induction xs generalizing a with
  | nil => simp
  | cons x xs ih =>
    calc ∑ s, (x :: xs).foldl m.forwardStep a s
        ≤ (∑ s, m.forwardStep a x s) * b ^ xs.length := ih _
      _ ≤ (∑ s, a s) * b * b ^ xs.length :=
        mul_le_mul_of_nonneg_right (sum_forwardStep_le htrans hb a x) zero_le
      _ = (∑ s, a s) * b ^ (x :: xs).length := by rw [List.length_cons, pow_succ', mul_assoc]

theorem le_sum_foldl_forwardStep (htrans : ∀ i, ∑ s, m.transmat i s = 1)
    (hb : ∀ s x, b ≤ m.emissionprob s x) (a : σ → R) (xs : List κ) :
    (∑ s, a s) * b ^ xs.length ≤ ∑ s, xs.foldl m.forwardStep a s := by
  induction xs generalizing a with
  | nil => simp
  | cons x xs ih =>
    calc (∑ s, a s) * b ^ (x :: xs).length = (∑ s, a s) * b * b ^ xs.length := by
          rw [List.length_cons, pow_succ', mul_assoc]
      _ ≤ (∑ s, m.forwardStep a x s) * b ^ xs.length :=
        mul_le_mul_of_nonneg_right (le_sum_forwardStep htrans hb a x) zero_le
      _ ≤ ∑ s, (x :: xs).foldl m.forwardStep a s := ih _

/-- **A sequence is at most as probable** as if every symbol had the largest emission. -/
theorem seqProb_le_pow (hstart : ∑ s, m.startprob s = 1) (htrans : ∀ i, ∑ s, m.transmat i s = 1)
    (hb : ∀ s x, m.emissionprob s x ≤ b) (xs : List κ) : m.seqProb xs ≤ b ^ xs.length := by
  cases xs with
  | nil => simp [seqProb]
  | cons x xs =>
    rw [← sum_forward, forward]
    have hinit : ∑ s, m.forwardInit x s ≤ b := by
      calc ∑ s, m.forwardInit x s ≤ ∑ s, m.startprob s * b :=
            Finset.sum_le_sum fun s _ => mul_le_mul_of_nonneg_left (hb s x) zero_le
        _ = b := by rw [← Finset.sum_mul, hstart, one_mul]
    calc ∑ s, xs.foldl m.forwardStep (m.forwardInit x) s
        ≤ (∑ s, m.forwardInit x s) * b ^ xs.length := sum_foldl_forwardStep_le htrans hb _ xs
      _ ≤ b * b ^ xs.length := mul_le_mul_of_nonneg_right hinit zero_le
      _ = b ^ (x :: xs).length := by rw [List.length_cons, pow_succ']

/-- **And at least as probable** as if every symbol had the smallest one. -/
theorem pow_le_seqProb (hstart : ∑ s, m.startprob s = 1) (htrans : ∀ i, ∑ s, m.transmat i s = 1)
    (hb : ∀ s x, b ≤ m.emissionprob s x) (xs : List κ) : b ^ xs.length ≤ m.seqProb xs := by
  cases xs with
  | nil => simp [seqProb]
  | cons x xs =>
    rw [← sum_forward, forward]
    have hinit : b ≤ ∑ s, m.forwardInit x s := by
      calc b = ∑ s, m.startprob s * b := by rw [← Finset.sum_mul, hstart, one_mul]
        _ ≤ ∑ s, m.forwardInit x s :=
            Finset.sum_le_sum fun s _ => mul_le_mul_of_nonneg_left (hb s x) zero_le
    calc b ^ (x :: xs).length = b * b ^ xs.length := by rw [List.length_cons, pow_succ']
      _ ≤ (∑ s, m.forwardInit x s) * b ^ xs.length := mul_le_mul_of_nonneg_right hinit zero_le
      _ ≤ ∑ s, xs.foldl m.forwardStep (m.forwardInit x) s := le_sum_foldl_forwardStep htrans hb _ xs

end Bounds

end Hmm

/-! ### Log space -/

/-- The logarithm of a nonnegative real, with `log 0 = -∞`. -/
noncomputable def log (p : ℝ≥0) : EReal := ENNReal.log (p : ℝ≥0∞)

/-- `logsumexp` of finitely many numbers, without rounding. -/
noncomputable def logsumexp {ι : Type} [Fintype ι] (f : ι → EReal) : EReal :=
  ENNReal.log (∑ i, EReal.exp (f i))

/-- `logsumexp` of a list of numbers, without rounding. -/
noncomputable def logsumexpList (xs : List EReal) : EReal := ENNReal.log (xs.map EReal.exp).sum

/-- The logarithm of a product. -/
theorem log_mul (p q : ℝ≥0) : log (p * q) = log p + log q := by
  rw [log, ENNReal.coe_mul, ENNReal.log_mul_add, log, log]

@[simp] theorem exp_log (p : ℝ≥0) : EReal.exp (log p) = p := ENNReal.exp_log _

/-- **Sums in log space**, also where terms are zero. -/
theorem logsumexp_log {ι : Type} [Fintype ι] (f : ι → ℝ≥0) :
    logsumexp (fun i => log (f i)) = log (∑ i, f i) := by
  rw [logsumexp, log, ENNReal.ofNNReal_finsetSum]
  exact congrArg ENNReal.log (Finset.sum_congr rfl fun i _ => exp_log (f i))

/-- Sums of a list in log space. -/
theorem logsumexpList_log (ps : List ℝ≥0) : logsumexpList (ps.map log) = log ps.sum := by
  have hmap : (ps.map log).map EReal.exp = ps.map ((↑) : ℝ≥0 → ℝ≥0∞) := by
    rw [List.map_map]
    exact List.map_congr_left fun p _ => exp_log p
  have hsum : (ps.map ((↑) : ℝ≥0 → ℝ≥0∞)).sum = ((ps.sum : ℝ≥0) : ℝ≥0∞) := by
    induction ps with
    | nil => simp
    | cons p ps ih => simp_all
  rw [logsumexpList, hmap, hsum, log]

/-- The logarithm of a positive number is a real number. -/
theorem log_of_ne_zero {p : ℝ≥0} (h : p ≠ 0) : log p = ((Real.log p : ℝ) : EReal) :=
  ENNReal.log_of_nnreal h

end Stats
