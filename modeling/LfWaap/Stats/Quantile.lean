import Mathlib

/-!
# Quantiles by linear interpolation

The `q`-quantile of a sample, as statistics libraries compute it by default: sort
the sample, go to the *virtual index* `(n - 1) q`, and interpolate between the
two order statistics around it.

Everything a one-sided test needs to know about it is an order-statistics
argument. Nothing is asked of the interpolation except that it starts at the first of
the two values and does not pass the second (`Stats.Interpolates`), and for counts that
are exact that it leaves the first at once (`Stats.Leaves`); so the sample may live in
any linear order, and ties are allowed throughout:

* `Stats.countP_lt_quantile_le` – at most `⌈(n - 1) q⌉` elements of the sample
  are strictly below its quantile;
* `Stats.countP_lt_quantile_eq` – exactly as many, when no value occurs twice;
* `Stats.ceil_index_lt`, `Stats.ceil_index_le` – that number is below `n`, and it
  is at most `n q + 1`;
* `Stats.quantile_congr`, `Stats.quantile_mono` – the order of the sample does not
  matter, and the quantile increases with `q`.

The proof looks at one place only: the order statistic of index `⌈(n - 1) q⌉` is
not below the quantile, so whatever is below it stands before that index.
-/

namespace Stats

variable {α : Type} [LinearOrder α] [Inhabited α]

/-! ### The quantile -/

/-- The sample in increasing order. -/
def sorted (xs : List α) : List α := xs.insertionSort (· ≤ ·)

/-- The order statistic of index `i`. -/
def orderStat (xs : List α) (i : ℕ) : α := (sorted xs).getD i default

/-- The virtual index of the `q`-quantile of `n` values. -/
noncomputable def virtualIndex (n : ℕ) (q : ℝ) : ℝ := ((n : ℝ) - 1) * q

/-- **The quantile**: the value between the two order statistics around the
virtual index, where `lerp a b t` is the value a fraction `t` of the way from
`a` to `b`. -/
noncomputable def quantile (lerp : α → α → ℝ → α) (xs : List α) (q : ℝ) : α :=
  lerp (orderStat xs ⌊virtualIndex xs.length q⌋₊)
    (orderStat xs (min (⌊virtualIndex xs.length q⌋₊ + 1) (xs.length - 1)))
    (virtualIndex xs.length q - ⌊virtualIndex xs.length q⌋₊)

omit [Inhabited α] in
/-- **What is asked of an interpolation**: it starts at the first value, and does not
pass the second. -/
structure Interpolates (lerp : α → α → ℝ → α) : Prop where
  /-- It starts at the first value. -/
  zero : ∀ a b, lerp a b 0 = a
  /-- It does not pass the second value. -/
  le : ∀ a b, a ≤ b → ∀ t, 0 ≤ t → t ≤ 1 → lerp a b t ≤ b

omit [Inhabited α] in
/-- The interpolation leaves the first of two values of a set as soon as it moves. -/
def Leaves (lerp : α → α → ℝ → α) (S : Set α) : Prop :=
  ∀ a ∈ S, ∀ b ∈ S, a < b → ∀ t, 0 < t → t ≤ 1 → a < lerp a b t

/-! ### The sorted sample -/

omit [Inhabited α] in
theorem perm_sorted (xs : List α) : (sorted xs).Perm xs := List.perm_insertionSort _ xs

omit [Inhabited α] in
@[simp] theorem length_sorted (xs : List α) : (sorted xs).length = xs.length :=
  (perm_sorted xs).length_eq

omit [Inhabited α] in
@[simp] theorem mem_sorted {xs : List α} {x : α} : x ∈ sorted xs ↔ x ∈ xs :=
  (perm_sorted xs).mem_iff

omit [Inhabited α] in
theorem pairwise_sorted (xs : List α) : (sorted xs).Pairwise (· ≤ ·) :=
  List.pairwise_insertionSort _ xs

theorem orderStat_eq_getElem {xs : List α} {i : ℕ} (h : i < (sorted xs).length) :
    orderStat xs i = (sorted xs)[i] := List.getD_eq_getElem _ _ h

/-- An order statistic is an element of the sample. -/
theorem orderStat_mem {xs : List α} {i : ℕ} (h : i < xs.length) : orderStat xs i ∈ xs := by
  have h' : i < (sorted xs).length := by rwa [length_sorted]
  rw [orderStat_eq_getElem h', ← mem_sorted]
  exact List.getElem_mem h'

/-- Order statistics increase with their index. -/
theorem orderStat_mono {xs : List α} {i j : ℕ} (hij : i ≤ j) (hj : j < xs.length) :
    orderStat xs i ≤ orderStat xs j := by
  have hj' : j < (sorted xs).length := by rwa [length_sorted]
  rw [orderStat_eq_getElem (hij.trans_lt hj'), orderStat_eq_getElem hj']
  rcases eq_or_lt_of_le hij with rfl | hlt
  · exact le_refl _
  · exact List.pairwise_iff_getElem.mp (pairwise_sorted xs) i j _ hj' hlt

/-- Without ties, order statistics increase strictly. -/
theorem orderStat_strictMono {xs : List α} (hn : xs.Nodup) {i j : ℕ} (hij : i < j)
    (hj : j < xs.length) : orderStat xs i < orderStat xs j := by
  refine lt_of_le_of_ne (orderStat_mono hij.le hj) fun he => ?_
  have hj' : j < (sorted xs).length := by rwa [length_sorted]
  rw [orderStat_eq_getElem (hij.trans hj'), orderStat_eq_getElem hj'] at he
  have hnd : (sorted xs).Nodup := (perm_sorted xs).nodup_iff.mpr hn
  exact absurd ((List.Nodup.getElem_inj_iff hnd).mp he) (ne_of_lt hij)

omit [Inhabited α] in
/-- The order of the values does not matter. -/
theorem sorted_congr {xs ys : List α} (h : xs.Perm ys) : sorted xs = sorted ys := by
  have hperm : (sorted xs).Perm (sorted ys) :=
    ((perm_sorted xs).trans h).trans (perm_sorted ys).symm
  exact List.Perm.eq_of_pairwise' (pairwise_sorted xs) (pairwise_sorted ys) hperm

/-- **A quantile does not depend on the order of the values.** -/
theorem quantile_congr (lerp : α → α → ℝ → α) {xs ys : List α} (h : xs.Perm ys) (q : ℝ) :
    quantile lerp xs q = quantile lerp ys q := by
  rw [quantile, quantile, orderStat, orderStat, orderStat, orderStat, sorted_congr h, h.length_eq]

/-! ### Counting below an order statistic -/

/-- What is not above the order statistic of index `k` has at most `k` elements
of the sample below it. -/
theorem countP_lt_le {xs : List α} {v : α} {k : ℕ} (hk : k < xs.length)
    (hv : v ≤ orderStat xs k) : xs.countP (· < v) ≤ k := by
  rw [← (perm_sorted xs).countP_eq, ← List.take_append_drop k (sorted xs), List.countP_append]
  have hdrop : (List.drop k (sorted xs)).countP (· < v) = 0 := by
    rw [List.countP_eq_zero]
    intro x hx
    obtain ⟨i, hi, rfl⟩ := List.getElem_of_mem hx
    rw [List.length_drop, length_sorted] at hi
    rw [List.getElem_drop]
    have hki : k + i < (sorted xs).length := by
      rw [length_sorted]
      omega
    have hmono : orderStat xs k ≤ orderStat xs (k + i) :=
      orderStat_mono (Nat.le_add_right k i) (by omega)
    have hle := hv.trans hmono
    rw [orderStat_eq_getElem hki] at hle
    simpa using hle
  have htake := List.countP_le_length (p := fun x => decide (x < v)) (l := List.take k (sorted xs))
  rw [List.length_take] at htake
  omega

/-- If moreover the order statistics before index `k` are below it, exactly `k`
elements are. -/
theorem countP_lt_eq {xs : List α} {v : α} {k : ℕ} (hk : k < xs.length)
    (hv : v ≤ orderStat xs k) (hlt : ∀ i < k, orderStat xs i < v) : xs.countP (· < v) = k := by
  refine le_antisymm (countP_lt_le hk hv) ?_
  rw [← (perm_sorted xs).countP_eq, ← List.take_append_drop k (sorted xs), List.countP_append]
  have htake : (List.take k (sorted xs)).countP (· < v) = (List.take k (sorted xs)).length := by
    rw [List.countP_eq_length]
    intro x hx
    obtain ⟨i, hi, rfl⟩ := List.getElem_of_mem hx
    rw [List.length_take, length_sorted] at hi
    rw [List.getElem_take]
    have := hlt i (by omega)
    rw [orderStat_eq_getElem (by rw [length_sorted]; omega)] at this
    simpa using this
  rw [htake, List.length_take, length_sorted]
  omega

/-! ### The index -/

theorem virtualIndex_nonneg {n : ℕ} (hn : 0 < n) {q : ℝ} (hq : 0 ≤ q) : 0 ≤ virtualIndex n q := by
  have : (1 : ℝ) ≤ n := by exact_mod_cast hn
  exact mul_nonneg (by linarith) hq

theorem virtualIndex_le {n : ℕ} (hn : 0 < n) {q : ℝ} (hq : q ≤ 1) :
    virtualIndex n q ≤ ((n - 1 : ℕ) : ℝ) := by
  have h1 : (1 : ℝ) ≤ n := by exact_mod_cast hn
  rw [Nat.cast_sub hn, Nat.cast_one]
  calc virtualIndex n q ≤ ((n : ℝ) - 1) * 1 := mul_le_mul_of_nonneg_left hq (by linarith)
    _ = (n : ℝ) - 1 := mul_one _

/-- The index of the quantile stays inside the sample. -/
theorem ceil_index_lt {n : ℕ} (hn : 0 < n) {q : ℝ} (hq : q ≤ 1) : ⌈virtualIndex n q⌉₊ < n := by
  have h : ⌈virtualIndex n q⌉₊ ≤ n - 1 := Nat.ceil_le.mpr (virtualIndex_le hn hq)
  omega

/-- The index of the quantile is a fraction `q` of the sample, up to one. -/
theorem ceil_index_le {n : ℕ} (hn : 0 < n) {q : ℝ} (hq : 0 ≤ q) :
    (⌈virtualIndex n q⌉₊ : ℝ) ≤ n * q + 1 := by
  have h := Nat.ceil_lt_add_one (virtualIndex_nonneg hn hq)
  have hle : virtualIndex n q ≤ n * q := by
    rw [virtualIndex]
    linarith
  linarith

/-- The two ways a virtual index can lie: on an order statistic, or strictly
between two. -/
theorem index_cases {n : ℕ} (hn : 0 < n) {q : ℝ} (hq : 0 ≤ q) (hq1 : q ≤ 1) :
    (virtualIndex n q - ⌊virtualIndex n q⌋₊ = 0 ∧
        ⌈virtualIndex n q⌉₊ = ⌊virtualIndex n q⌋₊) ∨
      (0 < virtualIndex n q - ⌊virtualIndex n q⌋₊ ∧
        virtualIndex n q - ⌊virtualIndex n q⌋₊ ≤ 1 ∧
        ⌈virtualIndex n q⌉₊ = ⌊virtualIndex n q⌋₊ + 1 ∧
        min (⌊virtualIndex n q⌋₊ + 1) (n - 1) = ⌈virtualIndex n q⌉₊) := by
  have hnn := virtualIndex_nonneg hn hq
  have hfloor := Nat.floor_le hnn
  have hlt := Nat.lt_floor_add_one (virtualIndex n q)
  rcases eq_or_lt_of_le hfloor with heq | hgt
  · refine Or.inl ⟨by linarith, ?_⟩
    rw [← heq, Nat.ceil_natCast, Nat.floor_natCast]
  · have hceil : ⌈virtualIndex n q⌉₊ = ⌊virtualIndex n q⌋₊ + 1 := by
      refine le_antisymm (Nat.ceil_le.mpr (by push_cast; linarith)) ?_
      exact Nat.lt_ceil.mpr hgt
    have hin := ceil_index_lt hn hq1
    exact Or.inr ⟨by linarith, by linarith, hceil, by omega⟩

/-! ### The quantile between its neighbours -/

variable {lerp : α → α → ℝ → α} {S : Set α} {xs : List α} {q : ℝ}

/-- The quantile is not above the order statistic of index `⌈(n - 1) q⌉`. -/
theorem quantile_le_orderStat (hl : Interpolates lerp) (hne : 0 < xs.length) (hq : 0 ≤ q)
    (hq1 : q ≤ 1) : quantile lerp xs q ≤ orderStat xs ⌈virtualIndex xs.length q⌉₊ := by
  have hin := ceil_index_lt hne hq1
  rcases index_cases hne hq hq1 with ⟨h0, hc⟩ | ⟨hpos, hle, hc, hmin⟩
  · rw [quantile, h0, hl.zero, hc]
  · rw [quantile, hmin]
    exact hl.le _ _ (orderStat_mono (by omega) hin) _ hpos.le hle

/-- Without ties, the quantile is above every order statistic before that
index. -/
theorem orderStat_lt_quantile (hl : Interpolates lerp) (hleaves : Leaves lerp S)
    (hS : ∀ x ∈ xs, x ∈ S) (hn : xs.Nodup) (hne : 0 < xs.length) (hq : 0 ≤ q) (hq1 : q ≤ 1) {i : ℕ}
    (hi : i < ⌈virtualIndex xs.length q⌉₊) : orderStat xs i < quantile lerp xs q := by
  have hin := ceil_index_lt hne hq1
  rcases index_cases hne hq hq1 with ⟨h0, hc⟩ | ⟨hpos, hle, hc, hmin⟩
  · rw [quantile, h0, hl.zero]
    exact orderStat_strictMono hn (by omega) (by omega)
  · have ha : orderStat xs ⌊virtualIndex xs.length q⌋₊ ∈ S := hS _ (orderStat_mem (by omega))
    have hb : orderStat xs ⌈virtualIndex xs.length q⌉₊ ∈ S := hS _ (orderStat_mem hin)
    have hab := orderStat_strictMono hn
      (show ⌊virtualIndex xs.length q⌋₊ < ⌈virtualIndex xs.length q⌉₊ by omega) hin
    rw [quantile, hmin]
    exact lt_of_le_of_lt (orderStat_mono (by omega) (by omega)) (hleaves _ ha _ hb hab _ hpos hle)

/-! ### The quantile increases with its fraction -/

theorem virtualIndex_mono {n : ℕ} (hn : 0 < n) {q q' : ℝ} (h : q ≤ q') :
    virtualIndex n q ≤ virtualIndex n q' := by
  have : (1 : ℝ) ≤ n := by exact_mod_cast hn
  exact mul_le_mul_of_nonneg_left h (by linarith)

/-- **The quantile increases with its fraction**, if the interpolation increases between
its two values: within a step of the order statistics because the interpolation does,
and across steps because it ends where the next one starts. -/
theorem quantile_mono (hl : Interpolates lerp)
    (hmono : ∀ a ∈ S, ∀ b ∈ S, a ≤ b → ∀ t t', t ≤ t' → lerp a b t ≤ lerp a b t')
    (hS : ∀ x ∈ xs, x ∈ S) (hne : 0 < xs.length) (hq : 0 ≤ q) {q' : ℝ} (hqq : q ≤ q')
    (hq1 : q' ≤ 1) : quantile lerp xs q ≤ quantile lerp xs q' := by
  have hv := virtualIndex_nonneg hne hq
  have hvv := virtualIndex_mono hne hqq
  have hv' := hv.trans hvv
  have hfloor := Nat.floor_le_floor hvv
  have hlt := Nat.lt_floor_add_one (virtualIndex xs.length q)
  have hle' := Nat.floor_le hv'
  -- the index of the larger fraction stays inside the sample
  have hin : ⌊virtualIndex xs.length q'⌋₊ < xs.length :=
    lt_of_le_of_lt (Nat.floor_le_ceil _) (ceil_index_lt hne hq1)
  rw [quantile, quantile]
  generalize hi : ⌊virtualIndex xs.length q⌋₊ = i at *
  generalize hj : ⌊virtualIndex xs.length q'⌋₊ = j at *
  have hmem : ∀ k, k < xs.length → orderStat xs k ∈ S := fun k hk => hS _ (orderStat_mem hk)
  have hi1 := hmem i (by omega)
  have hj1 := hmem j hin
  have hi2 := hmem (min (i + 1) (xs.length - 1)) (by omega)
  have hj2 := hmem (min (j + 1) (xs.length - 1)) (by omega)
  have hstep : orderStat xs i ≤ orderStat xs (min (i + 1) (xs.length - 1)) :=
    orderStat_mono (by omega) (by omega)
  have hstep' : orderStat xs j ≤ orderStat xs (min (j + 1) (xs.length - 1)) :=
    orderStat_mono (by omega) (by omega)
  rcases eq_or_lt_of_le hfloor with rfl | hij
  · exact hmono _ hi1 _ hi2 hstep _ _ (by linarith)
  · have hnn : 0 ≤ virtualIndex xs.length q - i := by
      rw [← hi]
      exact sub_nonneg.mpr (Nat.floor_le hv)
    calc lerp (orderStat xs i) (orderStat xs (min (i + 1) (xs.length - 1)))
          (virtualIndex xs.length q - i)
        ≤ orderStat xs (min (i + 1) (xs.length - 1)) :=
          hl.le _ _ hstep _ hnn (by linarith)
      _ ≤ orderStat xs j := orderStat_mono (by omega) hin
      _ = lerp (orderStat xs j) (orderStat xs (min (j + 1) (xs.length - 1))) 0 :=
          (hl.zero _ _).symm
      _ ≤ lerp (orderStat xs j) (orderStat xs (min (j + 1) (xs.length - 1)))
          (virtualIndex xs.length q' - j) := hmono _ hj1 _ hj2 hstep' _ _ (by linarith)

/-! ### How many values are below the quantile -/

/-- **At most `⌈(n - 1) q⌉` values of a sample are strictly below its
quantile**, whatever the ties. -/
theorem countP_lt_quantile_le (hl : Interpolates lerp) (hne : 0 < xs.length) (hq : 0 ≤ q)
    (hq1 : q ≤ 1) : xs.countP (· < quantile lerp xs q) ≤ ⌈virtualIndex xs.length q⌉₊ :=
  countP_lt_le (ceil_index_lt hne hq1) (quantile_le_orderStat hl hne hq hq1)

/-- **Without ties, exactly `⌈(n - 1) q⌉` are.** -/
theorem countP_lt_quantile_eq (hl : Interpolates lerp) (hleaves : Leaves lerp S)
    (hS : ∀ x ∈ xs, x ∈ S) (hn : xs.Nodup) (hne : 0 < xs.length) (hq : 0 ≤ q) (hq1 : q ≤ 1) :
    xs.countP (· < quantile lerp xs q) = ⌈virtualIndex xs.length q⌉₊ :=
  countP_lt_eq (ceil_index_lt hne hq1) (quantile_le_orderStat hl hne hq hq1)
    fun _ hi => orderStat_lt_quantile hl hleaves hS hn hne hq hq1 hi

end Stats
