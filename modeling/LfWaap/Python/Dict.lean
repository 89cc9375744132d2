import Mathlib

/-!
# Insertion-ordered dictionaries

A `dict` keeps its keys in the order in which they were first inserted, and an
assignment to an existing key changes the value in place. `Python.Dict` is the
list of its items in that order; that no key occurs twice is part of the
structure, so no later proof has to carry it.

Besides lookup and assignment the file has the one loop over a dictionary that
programs write again and again, grouping: a `defaultdict(list)` to which every
element is appended under its key (`Python.Dict.groupBy`). Its specification is
`Python.Dict.getD_groupBy`: the list under a key is the subsequence of the
elements that have this key, whatever stands between them.
-/

namespace Python

variable {κ ν : Type} [DecidableEq κ]

/-! ### Association lists -/

/-- The value of a key in an association list. -/
def assocGet (k : κ) : List (κ × ν) → Option ν
  | [] => none
  | (k', v) :: es => if k' = k then some v else assocGet k es

/-- Assign a key: in place if it is there, at the end otherwise. -/
def assocSet (k : κ) (v : ν) : List (κ × ν) → List (κ × ν)
  | [] => [(k, v)]
  | (k', v') :: es => if k' = k then (k', v) :: es else (k', v') :: assocSet k v es

theorem map_fst_assocSet (k : κ) (v : ν) (es : List (κ × ν)) :
    (assocSet k v es).map Prod.fst =
      if k ∈ es.map Prod.fst then es.map Prod.fst else es.map Prod.fst ++ [k] := by
  induction es with
  | nil => simp [assocSet]
  | cons e es ih =>
    obtain ⟨k', v'⟩ := e
    by_cases hk : k' = k
    · simp [assocSet, hk]
    · have hk' : ¬k = k' := fun h => hk h.symm
      simp only [assocSet, if_neg hk, List.map_cons, ih, List.mem_cons, hk', false_or]
      split <;> simp

theorem assocGet_assocSet (k k' : κ) (v : ν) (es : List (κ × ν)) :
    assocGet k' (assocSet k v es) = if k = k' then some v else assocGet k' es := by
  induction es with
  | nil => simp [assocSet, assocGet]
  | cons e es ih =>
    obtain ⟨k₁, v₁⟩ := e
    by_cases hk : k₁ = k
    · rw [assocSet, if_pos hk, assocGet, assocGet, hk]
      split <;> rfl
    · rw [assocSet, if_neg hk, assocGet, assocGet, ih]
      by_cases h₁ : k₁ = k'
      · have hne : k ≠ k' := fun h => hk (h₁.trans h.symm)
        rw [if_pos h₁, if_neg hne, if_pos h₁]
      · rw [if_neg h₁, if_neg h₁]

theorem mem_of_assocGet {k : κ} {v : ν} {es : List (κ × ν)} (h : assocGet k es = some v) :
    (k, v) ∈ es := by
  induction es with
  | nil => simp [assocGet] at h
  | cons e es ih =>
    obtain ⟨k', v'⟩ := e
    by_cases hk : k' = k
    · rw [assocGet, if_pos hk, Option.some.injEq] at h
      simp [hk, h]
    · rw [assocGet, if_neg hk] at h
      exact List.mem_cons_of_mem _ (ih h)

theorem assocGet_of_mem {k : κ} {v : ν} {es : List (κ × ν)} (hn : (es.map Prod.fst).Nodup)
    (h : (k, v) ∈ es) : assocGet k es = some v := by
  induction es with
  | nil => simp at h
  | cons e es ih =>
    obtain ⟨k', v'⟩ := e
    rw [List.map_cons, List.nodup_cons] at hn
    rcases List.mem_cons.mp h with heq | hmem
    · obtain ⟨rfl, rfl⟩ := Prod.mk.injEq .. ▸ heq
      rw [assocGet, if_pos rfl]
    · have hk : k ∈ es.map Prod.fst := List.mem_map.mpr ⟨(k, v), hmem, rfl⟩
      have hne : k' ≠ k := fun hc => hn.1 (hc ▸ hk)
      rw [assocGet, if_neg hne]
      exact ih hn.2 hmem

theorem assocSet_of_notMem {k : κ} {v : ν} {es : List (κ × ν)} (h : k ∉ es.map Prod.fst) :
    assocSet k v es = es ++ [(k, v)] := by
  induction es with
  | nil => rfl
  | cons e es ih =>
    obtain ⟨k', v'⟩ := e
    simp only [List.map_cons, List.mem_cons, not_or] at h
    rw [assocSet, if_neg fun hc => h.1 hc.symm, ih h.2]
    rfl

/-! ### Dictionaries -/

/-- **A dictionary**: its items in insertion order, no key twice. -/
structure Dict (κ ν : Type) where
  /-- The items, in insertion order. -/
  entries : List (κ × ν)
  /-- No key occurs twice. -/
  nodup : (entries.map Prod.fst).Nodup

namespace Dict

omit [DecidableEq κ] in
@[ext] theorem ext {d d' : Dict κ ν} (h : d.entries = d'.entries) : d = d' := by
  cases d
  cases d'
  simp_all

/-- The empty dictionary. -/
def empty : Dict κ ν := ⟨[], List.nodup_nil⟩

/-- The keys, in insertion order. -/
def keys (d : Dict κ ν) : List κ := d.entries.map Prod.fst

/-- `d.get(k)`. -/
def get? (d : Dict κ ν) (k : κ) : Option ν := assocGet k d.entries

/-- `d.get(k, default)`. -/
def getD (d : Dict κ ν) (k : κ) (v : ν) : ν := (d.get? k).getD v

/-- `d[k] = v`. -/
def set (d : Dict κ ν) (k : κ) (v : ν) : Dict κ ν where
  entries := assocSet k v d.entries
  nodup := by
    rw [map_fst_assocSet]
    split
    · exact d.nodup
    · next h => exact List.nodup_append.mpr ⟨d.nodup, by simp, by
        rintro a ha b hb rfl
        exact h (List.mem_singleton.mp hb ▸ ha)⟩

/-- A dictionary built item by item; a later item overwrites an earlier one of
the same key and keeps its place. -/
def ofList (items : List (κ × ν)) : Dict κ ν := items.foldl (fun d e => d.set e.1 e.2) empty

omit [DecidableEq κ] in
@[simp] theorem keys_empty : (empty : Dict κ ν).keys = [] := rfl

omit [DecidableEq κ] in
@[simp] theorem entries_empty : (empty : Dict κ ν).entries = [] := rfl

@[simp] theorem get?_empty (k : κ) : (empty : Dict κ ν).get? k = none := rfl

theorem get?_set (d : Dict κ ν) (k k' : κ) (v : ν) :
    (d.set k v).get? k' = if k = k' then some v else d.get? k' :=
  assocGet_assocSet k k' v d.entries

theorem keys_set (d : Dict κ ν) (k : κ) (v : ν) :
    (d.set k v).keys = if k ∈ d.keys then d.keys else d.keys ++ [k] :=
  map_fst_assocSet k v d.entries

/-- An item is exactly what lookup finds. -/
theorem mem_entries_iff {d : Dict κ ν} {k : κ} {v : ν} :
    (k, v) ∈ d.entries ↔ d.get? k = some v :=
  ⟨assocGet_of_mem d.nodup, mem_of_assocGet⟩

theorem mem_keys_iff {d : Dict κ ν} {k : κ} : k ∈ d.keys ↔ ∃ v, d.get? k = some v := by
  constructor
  · intro h
    obtain ⟨⟨k', v⟩, he, rfl⟩ := List.mem_map.mp h
    exact ⟨v, mem_entries_iff.mp he⟩
  · rintro ⟨v, hv⟩
    exact List.mem_map.mpr ⟨(k, v), mem_entries_iff.mpr hv, rfl⟩

/-- A new key goes to the end. -/
theorem entries_set_of_notMem {d : Dict κ ν} {k : κ} {v : ν} (h : k ∉ d.keys) :
    (d.set k v).entries = d.entries ++ [(k, v)] :=
  assocSet_of_notMem h

theorem entries_foldl_set (items : List (κ × ν)) (d : Dict κ ν)
    (hn : (d.keys ++ items.map Prod.fst).Nodup) :
    (items.foldl (fun d e => d.set e.1 e.2) d).entries = d.entries ++ items := by
  induction items generalizing d with
  | nil => simp
  | cons e items ih =>
    -- every item has a new key, so it is appended
    have hk : e.1 ∉ d.keys := fun hc =>
      (List.disjoint_of_nodup_append hn) hc (by simp)
    rw [List.foldl_cons, ih, entries_set_of_notMem hk, List.append_assoc]
    · rfl
    · rw [keys_set, if_neg hk, List.append_assoc]
      exact hn

/-- Items without a repeated key are kept as they are. -/
theorem entries_ofList {items : List (κ × ν)} (hn : (items.map Prod.fst).Nodup) :
    (ofList items).entries = items := by
  rw [ofList, entries_foldl_set items empty (by simpa using hn)]
  rfl

/-- A dictionary is rebuilt from its items. -/
@[simp] theorem ofList_entries (d : Dict κ ν) : ofList d.entries = d :=
  ext (entries_ofList d.nodup)

theorem mem_keys_foldl_set (items : List (κ × ν)) (d : Dict κ ν) {k : κ}
    (h : k ∈ (items.foldl (fun d e => d.set e.1 e.2) d).keys) :
    k ∈ d.keys ∨ k ∈ items.map Prod.fst := by
  induction items generalizing d with
  | nil => exact Or.inl h
  | cons e items ih =>
    rcases ih (d.set e.1 e.2) h with hd | hi
    · rw [keys_set] at hd
      split at hd
      · exact Or.inl hd
      · rcases List.mem_append.mp hd with hd | hk
        · exact Or.inl hd
        · exact Or.inr (by simp [List.mem_singleton.mp hk])
    · exact Or.inr (List.mem_cons_of_mem _ hi)

/-- A dictionary built from items has no other keys. -/
theorem mem_of_mem_keys_ofList {items : List (κ × ν)} {k : κ} (h : k ∈ (ofList items).keys) :
    k ∈ items.map Prod.fst := by
  rcases mem_keys_foldl_set items empty h with hd | hi
  · simp at hd
  · exact hi

/-! ### Grouping -/

/-- `d[k].append(v)` on a `defaultdict(list)`. -/
def appendAt (d : Dict κ (List ν)) (k : κ) (v : ν) : Dict κ (List ν) :=
  d.set k (d.getD k [] ++ [v])

/-- **Grouping**: every element is appended under its key. -/
def groupBy {α : Type} (key : α → κ) (val : α → ν) (xs : List α) : Dict κ (List ν) :=
  xs.foldl (fun d x => d.appendAt (key x) (val x)) empty

variable {α : Type} {key : α → κ} {val : α → ν}

theorem getD_appendAt (d : Dict κ (List ν)) (k k' : κ) (v : ν) :
    (d.appendAt k v).getD k' [] = if k = k' then d.getD k' [] ++ [v] else d.getD k' [] := by
  rw [getD, appendAt, get?_set]
  by_cases hk : k = k'
  · simp [hk]
  · simp [hk, getD]

theorem mem_keys_appendAt {d : Dict κ (List ν)} {k k' : κ} {v : ν} :
    k' ∈ (d.appendAt k v).keys ↔ k' ∈ d.keys ∨ k' = k := by
  rw [appendAt, keys_set]
  by_cases hk : k ∈ d.keys
  · rw [if_pos hk]
    exact ⟨Or.inl, fun h => h.elim id fun he => he ▸ hk⟩
  · simp [hk]

theorem getD_foldl_appendAt (xs : List α) (d : Dict κ (List ν)) (k : κ) :
    (xs.foldl (fun d x => d.appendAt (key x) (val x)) d).getD k [] =
      d.getD k [] ++ (xs.filter fun x => key x = k).map val := by
  induction xs generalizing d with
  | nil => simp
  | cons x xs ih =>
    rw [List.foldl_cons, ih, getD_appendAt]
    by_cases hk : key x = k
    · simp [hk]
    · simp [hk]

/-- **What grouping yields**: under each key, the subsequence of the elements
with that key. -/
theorem getD_groupBy (xs : List α) (k : κ) :
    (groupBy key val xs).getD k [] = (xs.filter fun x => key x = k).map val := by
  rw [groupBy, getD_foldl_appendAt]
  rfl

theorem mem_keys_foldl_appendAt (xs : List α) (d : Dict κ (List ν)) (k : κ) :
    k ∈ (xs.foldl (fun d x => d.appendAt (key x) (val x)) d).keys ↔
      k ∈ d.keys ∨ ∃ x ∈ xs, key x = k := by
  induction xs generalizing d with
  | nil => simp
  | cons x xs ih =>
    rw [List.foldl_cons, ih, mem_keys_appendAt]
    simp only [List.mem_cons, exists_eq_or_imp, or_assoc]
    rw [eq_comm (a := k)]

/-- The keys of a grouping are the keys of its elements. -/
theorem mem_keys_groupBy {xs : List α} {k : κ} :
    k ∈ (groupBy key val xs).keys ↔ ∃ x ∈ xs, key x = k := by
  rw [groupBy, mem_keys_foldl_appendAt]
  simp

end Dict

/-! ### Counting by key -/

/-- Counting a key by summing its indicator over a list of keys. -/
theorem sum_indicator_eq_count (a : κ) (ks : List κ) :
    (ks.map fun k => if a = k then 1 else 0).sum = ks.count a := by
  induction ks with
  | nil => rfl
  | cons k ks ih =>
    rw [List.map_cons, List.sum_cons, ih, List.count_cons]
    by_cases hk : a = k
    · simp [hk]
      omega
    · have hk' : ¬k = a := fun h => hk h.symm
      simp [hk, hk']

/-- **Elements are counted once**: over different keys, the groups of a list
together have at most its length. -/
theorem sum_countP_le_length {α : Type} (key : α → κ) (xs : List α) {ks : List κ}
    (hn : ks.Nodup) : (ks.map fun k => xs.countP fun x => key x = k).sum ≤ xs.length := by
  induction xs with
  | nil => simp
  | cons x xs ih =>
    -- one more element adds to one group at most
    have hcount : (ks.map fun k => if key x = k then 1 else 0).sum ≤ 1 := by
      rw [sum_indicator_eq_count]
      exact List.nodup_iff_count_le_one.mp hn _
    have hsplit : (ks.map fun k => (x :: xs).countP fun x => key x = k).sum =
        (ks.map fun k => xs.countP fun x => key x = k).sum +
          (ks.map fun k => if key x = k then 1 else 0).sum := by
      rw [← List.sum_map_add]
      refine congrArg List.sum (List.map_congr_left fun k _ => ?_)
      rw [List.countP_cons]
      by_cases hk : key x = k <;> simp [hk]
    rw [hsplit, List.length_cons]
    omega

/-- Elements with a property are counted group by group, if their keys are among
those of the groups. -/
theorem countP_le_sum_countP {α : Type} (key : α → κ) (p : α → Bool) (xs : List α) {ks : List κ}
    (h : ∀ x ∈ xs, p x = true → key x ∈ ks) :
    xs.countP p ≤ (ks.map fun k => (xs.filter fun x => key x = k).countP p).sum := by
  induction xs with
  | nil => simp
  | cons x xs ih =>
    have hsplit : (ks.map fun k => ((x :: xs).filter fun x => key x = k).countP p).sum =
        (ks.map fun k => (xs.filter fun x => key x = k).countP p).sum +
          (ks.map fun k => if key x = k then (if p x then 1 else 0) else 0).sum := by
      rw [← List.sum_map_add]
      refine congrArg List.sum (List.map_congr_left fun k _ => ?_)
      by_cases hk : key x = k <;> simp [hk, List.countP_cons]
    rw [hsplit, List.countP_cons]
    have hrest := ih fun y hy => h y (List.mem_cons_of_mem _ hy)
    -- an element with the property adds to a group at least
    by_cases hp : p x = true
    · have hcount : 0 < ks.count (key x) := List.count_pos_iff.mpr (h x List.mem_cons_self hp)
      have hone := sum_indicator_eq_count (key x) ks
      simp only [hp, if_true]
      omega
    · rw [if_neg hp]
      omega

end Python
