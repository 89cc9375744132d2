import Mathlib.Data.List.Basic
import Mathlib.Data.Nat.ModEq
import Mathlib.Tactic.Ring

/-!
# Splitting a word by positions

The letters of a word at the positions in a set, in their order. A set of positions and
its complement split a word: each letter goes to exactly one of the two sides
(`Words.atPositions_append_perm`), and a longer word is split into longer sides
(`Words.atPositions_extends`).

Two sets are of particular interest. Every `s`-th position: among the first `n` positions
there are `n / s` of them (`Words.countP_every`). And the positions of the first letters of
two kinds, as many as a quota for each kind admits (`Words.firstOfBoth`): they can be found
letter by letter, taking each letter off the quota of its kind
(`Words.firstOfBoth_cons`).
-/

namespace Words

variable {α : Type}

/-- The letters at the positions a predicate holds of. -/
def atPositions (p : ℕ → Bool) (xs : List α) : List α :=
  (xs.zipIdx.filter fun e => p e.2).map Prod.fst

/-- **A set of positions and its complement split a word.** -/
theorem atPositions_append_perm (p : ℕ → Bool) (xs : List α) :
    (atPositions p xs ++ atPositions (fun i => !p i) xs).Perm xs := by
  rw [atPositions, atPositions, ← List.map_append]
  have hperm := (List.filter_append_perm (fun e : α × ℕ => p e.2) xs.zipIdx).map Prod.fst
  rwa [List.zipIdx_map_fst] at hperm

/-- The letters keep their order. -/
theorem atPositions_sublist (p : ℕ → Bool) (xs : List α) : (atPositions p xs).Sublist xs := by
  have hsub := (List.filter_sublist (p := fun e : α × ℕ => p e.2) (l := xs.zipIdx)).map Prod.fst
  rwa [List.zipIdx_map_fst] at hsub

/-- **A longer word is split into longer sides.** -/
theorem atPositions_extends (p : ℕ → Bool) {xs ys : List α} (h : xs <+: ys) :
    atPositions p xs <+: atPositions p ys := by
  obtain ⟨zs, rfl⟩ := h
  rw [atPositions, atPositions, List.zipIdx_append, List.filter_append, List.map_append]
  exact List.prefix_append _ _

/-- As many letters as positions. -/
theorem length_atPositions (p : ℕ → Bool) (xs : List α) :
    (atPositions p xs).length = (List.range xs.length).countP p := by
  have hrange : List.range xs.length = xs.zipIdx.map Prod.snd := by
    rw [List.zipIdx_map_snd, List.range_eq_range']
  rw [atPositions, List.length_map, hrange, List.countP_map, ← List.countP_eq_length_filter]
  rfl

/-- The first letter is there if its position is. -/
theorem atPositions_ne_nil {p : ℕ → Bool} (h0 : p 0 = true) {xs : List α} (hne : xs ≠ []) :
    atPositions p xs ≠ [] := by
  cases xs with
  | nil => exact absurd rfl hne
  | cons x xs =>
    have hfirst : x ∈ atPositions p (x :: xs) :=
      List.mem_map.mpr ⟨(x, 0), List.mem_filter.mpr ⟨List.mem_cons_self, h0⟩, rfl⟩
    exact List.ne_nil_of_mem hfirst

/-- Nothing is left of a word none of whose positions is in the set. -/
theorem atPositions_eq_nil {p : ℕ → Bool} (h : ∀ i, p i = false) (xs : List α) :
    atPositions p xs = [] := by
  rw [atPositions, List.map_eq_nil_iff, List.filter_eq_nil_iff]
  intro e _
  rw [h e.2]
  exact Bool.false_ne_true

/-- **Every `s`-th position**: there are `n / s` of them among the first `n`. -/
theorem countP_every {s : ℕ} (hs : 0 < s) (n : ℕ) :
    (List.range n).countP (fun i => decide (i % s = s - 1)) = n / s := by
  induction n with
  | zero => rw [Nat.zero_div, List.range_zero, List.countP_nil]
  | succ n ih =>
    rw [List.range_succ, List.countP_append, ih, List.countP_singleton, Nat.succ_div]
    -- the quotient grows where the next position is a multiple of `s`
    have hiff : n % s = s - 1 ↔ s ∣ n + 1 := by
      rw [Nat.dvd_iff_mod_eq_zero, Nat.add_mod]
      have hlt := Nat.mod_lt n hs
      constructor
      · intro h
        rw [h, Nat.add_mod_mod, Nat.sub_add_cancel hs, Nat.mod_self]
      · intro h
        rw [Nat.add_mod_mod] at h
        by_contra hne
        rw [Nat.mod_eq_of_lt (by omega)] at h
        omega
    simp only [hiff, decide_eq_true_eq]

/-! ### The first letters of two kinds -/

theorem atPositions_cons (p : ℕ → Bool) (x : α) (xs : List α) :
    atPositions p (x :: xs) =
      (if p 0 = true then [x] else []) ++ atPositions (fun i => p (i + 1)) xs := by
  have hshift : ((xs.zipIdx 1).filter fun e => p e.2).map Prod.fst =
      atPositions (fun i => p (i + 1)) xs := by
    rw [List.zipIdx_succ, List.filter_map, List.map_map, atPositions]
    rfl
  rw [atPositions, List.zipIdx_cons, List.filter_cons]
  split
  · rw [List.map_cons, hshift]
    rfl
  · rw [hshift]
    rfl

/-- The letter at a position is one of the first `k` that a predicate holds of. -/
def amongFirst (k : ℕ) (p : α → Bool) (xs : List α) (i : ℕ) : Bool :=
  xs[i]?.any p && decide ((xs.take i).countP p < k)

variable {p q : α → Bool} {j k : ℕ}

theorem amongFirst_zero (x : α) (xs : List α) :
    amongFirst k p (x :: xs) 0 = (p x && decide (0 < k)) := rfl

/-- A letter of the kind is taken off the quota. -/
theorem amongFirst_succ (x : α) (xs : List α) (i : ℕ) :
    amongFirst k p (x :: xs) (i + 1) = amongFirst (k - (p x).toNat) p xs i := by
  have hcount : (xs.take i).countP p + (p x).toNat < k ↔
      (xs.take i).countP p < k - (p x).toNat := by omega
  have htoNat : (if p x = true then 1 else 0) = (p x).toNat := by cases p x <;> rfl
  rw [amongFirst, amongFirst, List.getElem?_cons_succ, List.take_succ_cons, List.countP_cons,
    htoNat]
  simp only [hcount]

/-- **The first letters of two kinds**, `j` of the one and `k` of the other at most. -/
def firstOfBoth (j k : ℕ) (p q : α → Bool) (xs : List α) : List α :=
  atPositions (fun i => amongFirst j p xs i || amongFirst k q xs i) xs

/-- **Letter by letter**: each letter is taken off the quota of its kind. -/
theorem firstOfBoth_cons (x : α) (xs : List α) :
    firstOfBoth j k p q (x :: xs) =
      (if (p x && decide (0 < j) || q x && decide (0 < k)) = true then [x] else []) ++
        firstOfBoth (j - (p x).toNat) (k - (q x).toNat) p q xs := by
  rw [firstOfBoth, atPositions_cons, firstOfBoth]
  simp only [amongFirst_zero, amongFirst_succ]
  rfl

/-- Nothing is left where both quotas are used up. -/
theorem firstOfBoth_zero (xs : List α) : firstOfBoth 0 0 p q xs = [] := by
  refine atPositions_eq_nil (fun i => ?_) xs
  simp [amongFirst]

theorem firstOfBoth_sublist (xs : List α) : (firstOfBoth j k p q xs).Sublist xs :=
  atPositions_sublist _ xs

/-- Every letter is of one of the two kinds. -/
theorem of_mem_firstOfBoth {x : α} {xs : List α} (h : x ∈ firstOfBoth j k p q xs) :
    p x = true ∨ q x = true := by
  induction xs generalizing j k with
  | nil => exact absurd h List.not_mem_nil
  | cons y ys ih =>
    rw [firstOfBoth_cons] at h
    rcases List.mem_append.mp h with h | h
    · split at h
      · next hy =>
        rw [List.mem_singleton.mp h]
        rw [Bool.or_eq_true, Bool.and_eq_true, Bool.and_eq_true] at hy
        exact hy.imp And.left And.left
      · exact absurd h List.not_mem_nil
    · exact ih h

/-- The two kinds can change places. -/
theorem firstOfBoth_comm (xs : List α) : firstOfBoth j k p q xs = firstOfBoth k j q p xs := by
  rw [firstOfBoth, firstOfBoth]
  simp only [Bool.or_comm]

/-- **As many letters of a kind as there are**, up to its quota. -/
theorem countP_firstOfBoth (hdisjoint : ∀ x, p x = true → q x = false) (xs : List α) :
    (firstOfBoth j k p q xs).countP p = min j (xs.countP p) := by
  induction xs generalizing j k with
  | nil => exact (Nat.min_zero j).symm
  | cons x xs ih =>
    rw [firstOfBoth_cons, List.countP_append, ih, List.countP_cons]
    cases hp : p x with
    | false =>
      -- `x` may be of the other kind, and is not counted then
      have hnone : (if (false && decide (0 < j) || q x && decide (0 < k)) = true then [x]
          else []).countP p = 0 := by
        split
        · rw [List.countP_singleton, hp]
          rfl
        · rfl
      rw [hnone]
      simp
    | true =>
      rw [hdisjoint x hp]
      by_cases hj : 0 < j
      · simp only [Bool.true_and, Bool.false_and, Bool.or_false, decide_eq_true hj, if_true,
          List.countP_singleton, hp, Bool.toNat_true]
        omega
      · obtain rfl : j = 0 := by omega
        simp

/-- **Once both quotas are used up**, what follows does not matter. -/
theorem firstOfBoth_append {xs : List α} (hj : j ≤ xs.countP p) (hk : k ≤ xs.countP q)
    (ys : List α) : firstOfBoth j k p q (xs ++ ys) = firstOfBoth j k p q xs := by
  induction xs generalizing j k with
  | nil =>
    obtain rfl : j = 0 := Nat.le_zero.mp hj
    obtain rfl : k = 0 := Nat.le_zero.mp hk
    rw [firstOfBoth_zero, firstOfBoth_zero]
  | cons x xs ih =>
    have htoNat : ∀ r : α → Bool, (if r x = true then 1 else 0) = (r x).toNat := fun r => by
      cases r x <;> rfl
    rw [List.countP_cons, htoNat] at hj hk
    rw [List.cons_append, firstOfBoth_cons, firstOfBoth_cons,
      ih (Nat.sub_le_iff_le_add.mpr hj) (Nat.sub_le_iff_le_add.mpr hk)]

/-- A word all of whose letters are of one of two kinds. -/
theorem length_le_countP_add_countP {xs : List α} (h : ∀ x ∈ xs, p x = true ∨ q x = true) :
    xs.length ≤ xs.countP p + xs.countP q := by
  induction xs with
  | nil => exact Nat.zero_le _
  | cons x xs ih =>
    have hxs := ih fun y hy => h y (List.mem_cons_of_mem x hy)
    rw [List.length_cons, List.countP_cons, List.countP_cons]
    rcases h x List.mem_cons_self with hx | hx
    · rw [if_pos hx]
      omega
    · rw [if_pos hx]
      omega

end Words
