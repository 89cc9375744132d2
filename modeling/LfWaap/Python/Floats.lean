import LfWaap.Python.Text

/-!
# Rounding

The arithmetic of floats as far as a program rounds with it. A float is a rational number
`m * 2 ^ e` with `53` binary digits (`Python.IsFloat`); the result of an operation is the
float nearest to the exact one, the even one of two, and infinite from the midpoint above
the largest float on (`Python.nearestFloat`). `round` takes a float to the nearest integer,
again the even one of two (`Python.pyRound`).

Both kinds of rounding are one function on rationals (`Python.roundHalfEven`), and
everything here rests on when an integer is at most its value
(`Python.le_roundHalfEven_iff`): rounding respects the floats on both sides of a number
(`Python.le_roundToUlp`, `Python.roundToUlp_le`), and overflows exactly from that midpoint
on (`Python.nearestFloat_eq_inf_iff`).
-/

namespace Python

/-! ### To the nearest integer -/

/-- **The nearest integer**, the even one of two. -/
def roundHalfEven (q : ℚ) : ℤ :=
  let n := ⌊q⌋
  if 2 * (q - n) < 1 ∨ 2 * (q - n) = 1 ∧ n % 2 = 0 then n else n + 1

/-- **When an integer is at most the nearest one**: above the midpoint below it, and at the
midpoint if it is even. -/
theorem le_roundHalfEven_iff {n : ℤ} {q : ℚ} :
    n ≤ roundHalfEven q ↔ (n : ℚ) - 1 / 2 < q ∨ (n : ℚ) - 1 / 2 = q ∧ n % 2 = 0 := by
  have hlo : ((⌊q⌋ : ℤ) : ℚ) ≤ q := Int.floor_le q
  have hhi : q < ⌊q⌋ + 1 := Int.lt_floor_add_one q
  unfold roundHalfEven
  dsimp only
  generalize ⌊q⌋ = k at hlo hhi ⊢
  -- only the two integers next to the number are in question
  rcases lt_trichotomy n (k + 1) with hlt | rfl | hgt
  · have hnk : (n : ℚ) ≤ k := by exact_mod_cast Int.lt_add_one_iff.mp hlt
    refine iff_of_true ?_ (.inl (by linarith))
    split <;> omega
  · push_cast
    split
    · next h =>
      refine iff_of_false (by omega) ?_
      rintro (hq | ⟨hq, hk⟩)
      · rcases h with h | h <;> linarith [h]
      · rcases h with h | h
        · linarith
        · omega
    · next h =>
      rw [not_or, not_lt, not_and] at h
      refine iff_of_true le_rfl ?_
      rcases h.1.lt_or_eq with hq | hq
      · exact .inl (by linarith)
      · have hodd := h.2 hq.symm
        exact .inr ⟨by linarith, by omega⟩
  · have hkn : (k : ℚ) + 2 ≤ n := by exact_mod_cast (by omega : k + 2 ≤ n)
    refine iff_of_false ?_ ?_
    · split <;> omega
    · rintro (hq | ⟨hq, -⟩) <;> linarith

/-- An integer below the number is below the nearest one. -/
theorem le_roundHalfEven {n : ℤ} {q : ℚ} (h : (n : ℚ) ≤ q) : n ≤ roundHalfEven q :=
  le_roundHalfEven_iff.mpr (.inl (by linarith))

/-- An integer above the number is above the nearest one. -/
theorem roundHalfEven_le {n : ℤ} {q : ℚ} (h : q ≤ n) : roundHalfEven q ≤ n := by
  have hn : ¬n + 1 ≤ roundHalfEven q := by
    rw [le_roundHalfEven_iff]
    push_cast
    rintro (hq | ⟨hq, -⟩) <;> linarith
  omega

/-! ### To the nearest float -/

/-- The rational numbers that are floats. -/
def IsFloat (q : ℚ) : Prop :=
  ∃ m e : ℤ, |m| < 2 ^ 53 ∧ -1074 ≤ e ∧ e ≤ 971 ∧ q = m * 2 ^ e

/-- The exponent of the last digit of a float near a number. -/
def ulpExponent (q : ℚ) : ℤ := max (Int.log 2 |q| - 52) (-1074)

/-- A number rounded to the digits of a float. -/
def roundToUlp (q : ℚ) : ℚ := roundHalfEven (q / 2 ^ ulpExponent q) * 2 ^ ulpExponent q

/-- **The float nearest to a number.** -/
def nearestFloat (q : ℚ) : PyFloat :=
  if |roundToUlp q| < 2 ^ 1024 then .finite (roundToUlp q) else .inf (decide (q < 0))

/-- `round(x)`. -/
def pyRound : PyFloat → Except PyError ℤ
  | .nan => .error (.valueError "cannot convert float NaN to integer")
  | .inf _ => .error (.overflowError "cannot convert float infinity to integer")
  | .finite q => .ok (roundHalfEven q)

example : nearestFloat (1 / 10) = .finite (3602879701896397 / 2 ^ 55) := by decide +kernel

example : pyRound (.finite (5 / 2)) = .ok 2 := by decide +kernel

/-! ### Rounding respects floats -/

section

variable {q x : ℚ}

/-- A multiple of the last digit below a number is below the float near it. -/
theorem mul_ulp_le_roundToUlp {n : ℤ} (h : n * 2 ^ ulpExponent q ≤ q) :
    n * 2 ^ ulpExponent q ≤ roundToUlp q := by
  have hpos : (0 : ℚ) < 2 ^ ulpExponent q := by positivity
  have hn : n ≤ roundHalfEven (q / 2 ^ ulpExponent q) :=
    le_roundHalfEven ((le_div_iff₀ hpos).mpr h)
  exact mul_le_mul_of_nonneg_right (by exact_mod_cast hn) hpos.le

/-- A multiple of the last digit above a number is above the float near it. -/
theorem roundToUlp_le_mul_ulp {n : ℤ} (h : q ≤ n * 2 ^ ulpExponent q) :
    roundToUlp q ≤ n * 2 ^ ulpExponent q := by
  have hpos : (0 : ℚ) < 2 ^ ulpExponent q := by positivity
  have hn : roundHalfEven (q / 2 ^ ulpExponent q) ≤ n :=
    roundHalfEven_le ((div_le_iff₀ hpos).mpr h)
  exact mul_le_mul_of_nonneg_right (by exact_mod_cast hn) hpos.le

/-- A float whose last digit is not smaller is a multiple of the last digit. -/
theorem exists_eq_mul_two_zpow {m e e' : ℤ} (h : e' ≤ e) :
    ∃ n : ℤ, (m : ℚ) * 2 ^ e = n * 2 ^ e' := by
  obtain ⟨d, rfl⟩ := Int.le.dest h
  refine ⟨m * 2 ^ d, ?_⟩
  rw [zpow_add₀ two_ne_zero, zpow_natCast]
  push_cast
  ring

/-- A number is below `53` digits above its last digit. -/
theorem lt_two_zpow_ulpExponent (hq : 0 < q) : q < 2 ^ (ulpExponent q + 53) := by
  have hlog : Int.log 2 q + 1 ≤ ulpExponent q + 53 := by
    rw [ulpExponent]
    rw [abs_of_pos hq]
    omega
  have hlt : q < 2 ^ (Int.log 2 q + 1) := by
    exact_mod_cast Int.lt_zpow_succ_log_self one_lt_two q
  exact hlt.trans_le (zpow_le_zpow_right₀ one_le_two hlog)

/-- A number is at least `52` digits above its last digit, unless that is the smallest. -/
theorem two_zpow_ulpExponent_le (hq : 0 < q) (h : -1074 < ulpExponent q) :
    2 ^ (ulpExponent q + 52) ≤ q := by
  have hlog : Int.log 2 q = ulpExponent q + 52 := by
    rw [ulpExponent] at h ⊢
    rw [abs_of_pos hq] at h ⊢
    omega
  rw [← hlog]
  exact_mod_cast Int.zpow_log_le_self one_lt_two hq

/-- The float near a number is then as far above the last digit. -/
theorem two_zpow_ulpExponent_le_roundToUlp (hq : 0 < q) (h : -1074 < ulpExponent q) :
    2 ^ (ulpExponent q + 52) ≤ roundToUlp q := by
  have hle := two_zpow_ulpExponent_le hq h
  obtain ⟨n, hn⟩ : ∃ n : ℤ, ((1 : ℤ) : ℚ) * 2 ^ (ulpExponent q + 52) = n * 2 ^ ulpExponent q :=
    exists_eq_mul_two_zpow (by omega)
  rw [Int.cast_one, one_mul] at hn
  rw [hn] at hle ⊢
  exact mul_ulp_le_roundToUlp hle

/-- The digits of a float fill `53` places. -/
theorem mul_two_zpow_lt {m e k : ℤ} (hm : |m| < 2 ^ 53) (h : e + 53 ≤ k) :
    (m : ℚ) * 2 ^ e < 2 ^ k := by
  have hmq : (m : ℚ) < 2 ^ (53 : ℤ) := by exact_mod_cast (abs_lt.mp hm).2
  calc (m : ℚ) * 2 ^ e < 2 ^ (53 : ℤ) * 2 ^ e :=
        mul_lt_mul_of_pos_right hmq (by positivity)
    _ = 2 ^ (53 + e) := (zpow_add₀ two_ne_zero _ _).symm
    _ ≤ 2 ^ k := zpow_le_zpow_right₀ one_le_two (by omega)

/-- **A float below a number** is below the float near it. -/
theorem le_roundToUlp (hq : 0 < q) (hx : IsFloat x) (h : x ≤ q) : x ≤ roundToUlp q := by
  obtain ⟨m, e, hm, he, -, rfl⟩ := hx
  rcases le_or_gt (ulpExponent q) e with hle | hlt
  · obtain ⟨n, hn⟩ := exists_eq_mul_two_zpow (m := m) hle
    rw [hn] at h ⊢
    exact mul_ulp_le_roundToUlp h
  · exact (mul_two_zpow_lt hm (by omega)).le.trans
      (two_zpow_ulpExponent_le_roundToUlp hq (he.trans_lt hlt))

/-- **A float above a number** is above the float near it. -/
theorem roundToUlp_le (hq : 0 < q) (hx : IsFloat x) (h : q ≤ x) : roundToUlp q ≤ x := by
  obtain ⟨m, e, hm, he, -, rfl⟩ := hx
  rcases le_or_gt (ulpExponent q) e with hle | hlt
  · obtain ⟨n, hn⟩ := exists_eq_mul_two_zpow (m := m) hle
    rw [hn] at h ⊢
    exact roundToUlp_le_mul_ulp h
  · have hlast := two_zpow_ulpExponent_le hq (he.trans_lt hlt)
    exact absurd h (not_le.mpr ((mul_two_zpow_lt hm (by omega)).trans_le hlast))

/-- The float near a positive number is not negative. -/
theorem roundToUlp_nonneg (hq : 0 < q) : 0 ≤ roundToUlp q := by
  have hzero := mul_ulp_le_roundToUlp (q := q) (n := 0)
    (by rw [Int.cast_zero, zero_mul]; exact hq.le)
  rwa [Int.cast_zero, zero_mul] at hzero

end

/-! ### Overflow -/

section

variable {q : ℚ}

/-- Powers of two are floats. -/
theorem isFloat_two_zpow {k : ℤ} (hlo : -1022 ≤ k) (hhi : k ≤ 1023) : IsFloat (2 ^ k) := by
  refine ⟨2 ^ 52, k - 52, by decide, by omega, by omega, ?_⟩
  have h52 : (2 : ℚ) ^ (52 : ℤ) = 2 ^ 52 := zpow_ofNat 2 52
  rw [Int.cast_pow, Int.cast_ofNat, ← h52, ← zpow_add₀ two_ne_zero, add_sub_cancel]

/-- A power of two is an even number of last digits, so that the midpoint below it is
rounded up to it. -/
theorem two_zpow_le_roundToUlp_iff {k : ℤ} (hk : ulpExponent q < k) :
    2 ^ k ≤ roundToUlp q ↔ 2 ^ k - 2 ^ (ulpExponent q - 1) ≤ q := by
  rw [roundToUlp]
  generalize ulpExponent q = e at hk ⊢
  obtain ⟨d, rfl⟩ := Int.le.dest (Int.add_one_le_iff.mpr hk)
  have hpos : (0 : ℚ) < 2 ^ e := by positivity
  have hpow : (2 : ℚ) ^ (e + 1 + d) = ((2 ^ (d + 1) : ℤ) : ℚ) * 2 ^ e := by
    rw [zpow_add₀ two_ne_zero, zpow_add_one₀ two_ne_zero, zpow_natCast]
    push_cast
    ring
  have hhalf : (2 : ℚ) ^ (e - 1) = 1 / 2 * 2 ^ e := by
    rw [zpow_sub_one₀ two_ne_zero]
    ring
  have heven : (2 ^ (d + 1) : ℤ) % 2 = 0 := by
    rw [pow_succ]
    exact Int.mul_emod_left _ _
  rw [hpow, hhalf, ← sub_mul, mul_le_mul_iff_of_pos_right hpos, Int.cast_le,
    ← le_div_iff₀ hpos, le_roundHalfEven_iff, le_iff_lt_or_eq]
  exact or_congr_right (and_iff_left heven)

/-- **Rounding overflows** from the midpoint above the largest float on. -/
theorem nearestFloat_eq_inf_iff (hq : 0 < q) :
    nearestFloat q = .inf false ↔ 2 ^ 1024 - 2 ^ 970 ≤ q := by
  have hinf : nearestFloat q = .inf false ↔ 2 ^ 1024 ≤ roundToUlp q := by
    rw [nearestFloat, abs_of_nonneg (roundToUlp_nonneg hq), decide_eq_false hq.le.not_gt]
    split
    · next h => exact iff_of_false nofun h.not_ge
    · next h => exact iff_of_true rfl (not_lt.mp h)
  have h1024 : (2 : ℚ) ^ (1024 : ℤ) = 2 ^ 1024 := zpow_ofNat 2 1024
  have h970 : (2 : ℚ) ^ (970 : ℤ) = 2 ^ 970 := zpow_ofNat 2 970
  rw [hinf, ← h1024, ← h970]
  have hpos : (0 : ℚ) < 2 ^ (970 : ℤ) := by positivity
  have hhalf : (2 : ℚ) ^ (1023 : ℤ) < 2 ^ (1024 : ℤ) - 2 ^ (970 : ℤ) := by
    have hdouble : (2 : ℚ) ^ (1024 : ℤ) = 2 ^ (1023 : ℤ) * 2 := zpow_add_one₀ two_ne_zero 1023
    have hunit : (2 : ℚ) ^ (970 : ℤ) < 2 ^ (1023 : ℤ) :=
      zpow_lt_zpow_right₀ one_lt_two (by decide)
    rw [hdouble, mul_two, add_sub_assoc]
    exact lt_add_of_pos_right _ (sub_pos.mpr hunit)
  rcases lt_trichotomy (ulpExponent q) 971 with hlt | heq | hgt
  · -- the number and the float near it are both below the binade of the largest floats
    have hsmall : q ≤ 2 ^ (1023 : ℤ) :=
      (lt_two_zpow_ulpExponent hq).le.trans (zpow_le_zpow_right₀ one_le_two (by omega))
    have hround := roundToUlp_le hq (isFloat_two_zpow (by decide) (by decide)) hsmall
    exact iff_of_false (not_le.mpr ((hround.trans_lt hhalf).trans (sub_lt_self _ hpos)))
      (not_le.mpr (hsmall.trans_lt hhalf))
  · rw [two_zpow_le_roundToUlp_iff (by omega), heq]
    rfl
  · have hbig : (2 : ℚ) ^ (1024 : ℤ) ≤ 2 ^ (ulpExponent q + 52) :=
      zpow_le_zpow_right₀ one_le_two (by omega)
    have hq' := two_zpow_ulpExponent_le hq (by omega)
    have hround := two_zpow_ulpExponent_le_roundToUlp hq (by omega)
    exact iff_of_true (hbig.trans hround) ((sub_le_self _ hpos.le).trans (hbig.trans hq'))

/-- Below that midpoint the float near a positive number is finite. -/
theorem nearestFloat_of_lt (hq : 0 < q) (h : q < 2 ^ 1024 - 2 ^ 970) :
    nearestFloat q = .finite (roundToUlp q) := by
  have hne := mt (nearestFloat_eq_inf_iff hq).mp (not_le.mpr h)
  rw [nearestFloat, decide_eq_false hq.le.not_gt] at hne ⊢
  split at hne
  · next hlt => exact if_pos hlt
  · exact absurd rfl hne

end

/-! ### The integer near a float -/

section

variable {q : ℚ}

theorem isFloat_three_halves : IsFloat (3 / 2) :=
  ⟨3, -1, by decide, by decide, by decide, by norm_num⟩

/-- Between `1` and `2` the last digit is `2 ^ -52`. -/
theorem ulpExponent_of_lt_two (h1 : 1 ≤ q) (h2 : q < 2) : ulpExponent q = -52 := by
  have hpos : 0 < q := zero_lt_one.trans_le h1
  have hlo : 0 ≤ Int.log 2 q :=
    (Int.zpow_le_iff_le_log one_lt_two hpos).mp (by rw [zpow_zero]; exact h1)
  have hhi : Int.log 2 q < 1 :=
    (Int.lt_zpow_iff_log_lt one_lt_two hpos).mp (by rw [zpow_one]; exact_mod_cast h2)
  rw [ulpExponent]
  rw [abs_of_pos hpos]
  omega

/-- Below half a last digit under `3 / 2` the float near a number is below `3 / 2`. -/
theorem roundToUlp_lt_three_halves (h1 : 1 ≤ q) (h : q < 3 / 2 - 1 / 2 ^ 53) :
    roundToUlp q < 3 / 2 := by
  have hulp := ulpExponent_of_lt_two h1 (h.trans (by norm_num))
  have hlt : ¬3 * 2 ^ 51 ≤ roundHalfEven (q / 2 ^ (-52 : ℤ)) := by
    rw [le_roundHalfEven_iff]
    norm_num at h ⊢
    constructor
    · linarith
    · intro hq
      linarith
  have hle : ((roundHalfEven (q / 2 ^ (-52 : ℤ)) : ℤ) : ℚ) < 3 * 2 ^ 51 := by
    exact_mod_cast not_le.mp hlt
  rw [roundToUlp, hulp]
  norm_num at hle ⊢
  linarith

/-- A number from `1` on is rounded to a positive integer. -/
theorem one_le_round (h : 1 ≤ q) : 1 ≤ roundHalfEven (roundToUlp q) := by
  have hfloat : IsFloat 1 := isFloat_two_zpow (k := 0) (by decide) (by decide)
  have hone := le_roundToUlp (zero_lt_one.trans_le h) hfloat h
  exact le_roundHalfEven (by exact_mod_cast hone)

/-- **What is rounded to `1`**: an integer from `2` on comes from a float from `3 / 2` on, as
`2` is even. -/
theorem two_le_roundHalfEven_iff {x : ℚ} : 2 ≤ roundHalfEven x ↔ 3 / 2 ≤ x := by
  rw [le_roundHalfEven_iff, le_iff_lt_or_eq, and_iff_left (by decide)]
  norm_num

/-- A float from `1 / 2` on is a multiple of `2 ^ -53`. -/
theorem IsFloat.exists_eq_mul (hq : IsFloat q) (h : 1 / 2 ≤ q) :
    ∃ n : ℤ, q = n * 2 ^ (-53 : ℤ) := by
  obtain ⟨m, e, hm, -, -, rfl⟩ := hq
  refine exists_eq_mul_two_zpow (le_of_not_gt fun he => ?_)
  have hlt : (m : ℚ) * 2 ^ e < 2 ^ (-1 : ℤ) := mul_two_zpow_lt hm (by omega)
  rw [zpow_neg_one, ← one_div] at hlt
  exact absurd h (not_le.mpr hlt)

/-- **Rounding a reciprocal**: the reciprocal of a float between `0` and `1` is rounded to `1`
exactly when the float is greater than `2 / 3`. -/
theorem two_le_round_one_div_iff {r : ℚ} (hr : IsFloat r) (h0 : 0 < r) (h1 : r < 1) :
    2 ≤ roundHalfEven (roundToUlp (1 / r)) ↔ r ≤ 2 / 3 := by
  rw [two_le_roundHalfEven_iff]
  constructor
  · intro h
    by_contra hgt
    rw [not_le] at hgt
    have hone : 1 ≤ 1 / r := by
      rw [le_div_iff₀ h0]
      linarith
    refine absurd h (not_le.mpr (roundToUlp_lt_three_halves hone ?_))
    -- such a float is a multiple of `2 ^ -53`, and of those the next one after `2 / 3` is far
    -- enough from it
    obtain ⟨n, rfl⟩ := hr.exists_eq_mul (by linarith)
    have hunit : (2 : ℚ) ^ (-53 : ℤ) = 1 / 2 ^ 53 := by norm_num
    rw [hunit] at hgt h0 ⊢
    have hn : 2 * 2 ^ 53 < 3 * n := by
      have hq : (2 * 2 ^ 53 : ℚ) < 3 * n := by linarith
      exact_mod_cast hq
    have hfar : (2 * 2 ^ 53 + 2 : ℚ) ≤ 3 * n := by
      exact_mod_cast (by omega : 2 * 2 ^ 53 + 2 ≤ 3 * n)
    rw [div_lt_iff₀ h0]
    linarith
  · intro h
    refine le_roundToUlp (one_div_pos.mpr h0) isFloat_three_halves ?_
    rw [le_div_iff₀ h0]
    linarith

end

end Python
