import Mathlib

/-!
# Sorting by a key, the largest first

`sorted(xs, key=key, reverse=True)` is a stable sort: values of one key stay in the order
they had. A list that is in order is determined by its values of every key
(`Python.eq_of_descending`), and so is the sorted list (`Python.sortedReverse_unique`). If no
key is below some value, the values of this key come last, as they stood
(`Python.sortedReverse_lowest`).
-/

namespace Python

variable {α β : Type} [LinearOrder β] {key : α → β} {xs ys : List α}

/-- `sorted(xs, key=key, reverse=True)`. -/
def sortedReverse (key : α → β) (xs : List α) : List α :=
  xs.mergeSort fun a b => decide (key b ≤ key a)

/-- No value stands behind one of a smaller key. -/
def Descending (key : α → β) (xs : List α) : Prop := xs.Pairwise fun a b => key b ≤ key a

/-- The values of a key, in order. -/
def ofKey (key : α → β) (k : β) (xs : List α) : List α := xs.filter fun a => decide (key a = k)

@[simp] theorem mem_ofKey {a : α} {k : β} : a ∈ ofKey key k xs ↔ a ∈ xs ∧ key a = k := by
  rw [ofKey, List.mem_filter, decide_eq_true_iff]

theorem ofKey_append (k : β) (xs ys : List α) :
    ofKey key k (xs ++ ys) = ofKey key k xs ++ ofKey key k ys :=
  List.filter_append xs ys

/-- What is kept of the values of a key is all of them, or none. -/
theorem ofKey_ofKey (k low : β) (xs : List α) :
    ofKey key k (ofKey key low xs) = if low = k then ofKey key low xs else [] := by
  split_ifs with h
  · refine List.filter_eq_self.mpr fun a ha => ?_
    exact decide_eq_true ((mem_ofKey.mp ha).2.trans h)
  · refine List.filter_eq_nil_iff.mpr fun a ha hk => h ?_
    exact (mem_ofKey.mp ha).2.symm.trans (of_decide_eq_true hk)

/-- The other values, of a key. -/
theorem ofKey_filter_ne (k low : β) (xs : List α) :
    ofKey key k (xs.filter fun a => decide (key a ≠ low)) =
      if low = k then [] else ofKey key k xs := by
  split_ifs with h
  · refine List.filter_eq_nil_iff.mpr fun a ha hk => ?_
    have hne : key a ≠ low := of_decide_eq_true (List.mem_filter.mp ha).2
    exact hne ((of_decide_eq_true hk).trans h.symm)
  · rw [ofKey, List.filter_filter]
    refine List.filter_congr fun a _ => ?_
    by_cases ha : key a = k
    · rw [decide_eq_true ha, Bool.true_and]
      exact decide_eq_true fun hlow => h (hlow.symm.trans ha)
    · rw [decide_eq_false ha, Bool.false_and]

theorem perm_sortedReverse (key : α → β) (xs : List α) : (sortedReverse key xs).Perm xs :=
  List.mergeSort_perm xs _

@[simp] theorem mem_sortedReverse {a : α} : a ∈ sortedReverse key xs ↔ a ∈ xs :=
  (perm_sortedReverse key xs).mem_iff

section

variable (key)

private theorem le_trans_key (a b c : α) (h : decide (key b ≤ key a) = true)
    (h' : decide (key c ≤ key b) = true) : decide (key c ≤ key a) = true :=
  decide_eq_true ((of_decide_eq_true h').trans (of_decide_eq_true h))

private theorem le_total_key (a b : α) :
    (decide (key b ≤ key a) || decide (key a ≤ key b)) = true := by
  rw [Bool.or_eq_true, decide_eq_true_iff, decide_eq_true_iff]
  exact le_total (key b) (key a)

end

/-- **The sorted list is in order.** -/
theorem descending_sortedReverse (key : α → β) (xs : List α) :
    Descending key (sortedReverse key xs) :=
  (List.pairwise_mergeSort (le_trans_key key) (le_total_key key) xs).imp of_decide_eq_true

/-- **The sort is stable.** -/
theorem ofKey_sortedReverse (key : α → β) (k : β) (xs : List α) :
    ofKey key k (sortedReverse key xs) = ofKey key k xs := by
  have hsub : (ofKey key k xs).Sublist xs := List.filter_sublist
  have hsorted : (ofKey key k xs).Pairwise fun a b => decide (key b ≤ key a) = true := by
    refine List.pairwise_of_forall_mem_list fun a ha b hb => ?_
    exact decide_eq_true ((mem_ofKey.mp hb).2.trans (mem_ofKey.mp ha).2.symm).le
  have hkept : (ofKey key k xs).Sublist (sortedReverse key xs) :=
    List.sublist_mergeSort (le_trans_key key) (le_total_key key) hsorted hsub
  -- so it is a part of the values of the key in the sorted list, which are as many
  have hpart : (ofKey key k xs).Sublist (ofKey key k (sortedReverse key xs)) := by
    have hfilter : (ofKey key k (ofKey key k xs)).Sublist _ :=
      hkept.filter fun a => decide (key a = k)
    rwa [ofKey_ofKey, if_pos rfl] at hfilter
  exact (hpart.eq_of_length ((perm_sortedReverse key xs).filter _).length_eq.symm).symm

/-- A list in order is determined by its values of every key. -/
theorem eq_of_descending (hx : Descending key xs) (hy : Descending key ys)
    (h : ∀ k, ofKey key k xs = ofKey key k ys) : xs = ys := by
  have hmem : ∀ {zs : List α} {a : α}, a ∈ zs ↔ a ∈ ofKey key (key a) zs := by
    intro zs a
    rw [mem_ofKey, and_iff_left rfl]
  induction xs generalizing ys with
  | nil =>
    refine (List.eq_nil_iff_forall_not_mem.mpr fun a ha => ?_).symm
    rw [hmem, ← h] at ha
    exact List.not_mem_nil (hmem.mpr ha)
  | cons a xs ih =>
    cases ys with
    | nil =>
      have ha : a ∈ a :: xs := List.mem_cons_self
      rw [hmem, h] at ha
      exact absurd (hmem.mpr ha) List.not_mem_nil
    | cons b ys =>
      obtain ⟨hax, hxs⟩ := List.pairwise_cons.mp hx
      obtain ⟨hby, hys⟩ := List.pairwise_cons.mp hy
      -- the two heads have one key, the largest there is
      have hba : key b ≤ key a := by
        have hb : b ∈ b :: ys := List.mem_cons_self
        rw [hmem, ← h, ← hmem] at hb
        rcases List.mem_cons.mp hb with rfl | hb
        · exact le_rfl
        · exact hax b hb
      have hab : key a ≤ key b := by
        have ha : a ∈ a :: xs := List.mem_cons_self
        rw [hmem, h, ← hmem] at ha
        rcases List.mem_cons.mp ha with rfl | ha
        · exact le_rfl
        · exact hby a ha
      have hcons : ∀ k, (if key a = k then a :: ofKey key k xs else ofKey key k xs) =
          if key b = k then b :: ofKey key k ys else ofKey key k ys := by
        intro k
        have hk := h k
        simp only [ofKey, List.filter_cons, decide_eq_true_eq] at hk
        exact hk
      have hhead := hcons (key a)
      rw [if_pos rfl, if_pos (le_antisymm hba hab)] at hhead
      obtain rfl := List.head_eq_of_cons_eq hhead
      refine congrArg (List.cons a) (ih hxs hys fun k => ?_)
      have hk := hcons k
      split_ifs at hk
      · exact List.tail_eq_of_cons_eq hk
      · exact hk

/-- **The sorted list is determined** by what it is sorted by. -/
theorem sortedReverse_unique (hy : Descending key ys) (h : ∀ k, ofKey key k ys = ofKey key k xs) :
    sortedReverse key xs = ys :=
  eq_of_descending (descending_sortedReverse key xs) hy fun k =>
    (ofKey_sortedReverse key k xs).trans (h k).symm

/-- **The values of the lowest key come last**, as they stood. -/
theorem sortedReverse_lowest {low : β} (h : ∀ a ∈ xs, low ≤ key a) :
    sortedReverse key xs =
      sortedReverse key (xs.filter fun a => decide (key a ≠ low)) ++ ofKey key low xs := by
  refine sortedReverse_unique ?_ fun k => ?_
  · refine List.pairwise_append.mpr ⟨descending_sortedReverse key _, ?_, fun a ha b hb => ?_⟩
    · refine List.pairwise_of_forall_mem_list fun a ha b hb => ?_
      exact ((mem_ofKey.mp hb).2.trans (mem_ofKey.mp ha).2.symm).le
    · rw [(mem_ofKey.mp hb).2]
      exact h a (List.mem_of_mem_filter (mem_sortedReverse.mp ha))
  · rw [ofKey_append, ofKey_sortedReverse, ofKey_filter_ne, ofKey_ofKey]
    split_ifs with hk
    · rw [List.nil_append, hk]
    · rw [List.append_nil]

end Python
