import Mathlib.Data.List.Infix
import Mathlib.Data.List.Flatten

/-!
# Words cut at a separator

A word is cut at the first occurrence of another word, the separator (`Words.cut`), or at
all occurrences, from left to right (`Words.pieces`). What has been joined with a separator
is found again by cutting, if no part of it looks like the beginning of the separator.

The case that is worked out is that of lines with a line end of two letters, and an empty
line after them. If no line is empty and none holds the first letter of a line end, the
first empty line of the text is the one that was written (`Words.cut_lines`), whatever
follows it; and the lines before it are found by cutting at the line ends
(`Words.pieces_intercalate`). The letters are arbitrary.
-/

namespace Words

variable {α : Type} [DecidableEq α]

/-- The parts of a word before and after the first occurrence of a separator. -/
def cut (sep : List α) : List α → Option (List α × List α)
  | [] => if sep = [] then some ([], []) else none
  | x :: w =>
    if sep <+: x :: w then some ([], (x :: w).drop sep.length)
    else (cut sep w).map fun p => (x :: p.1, p.2)

/-- The pieces of a word between the occurrences of a separator; at most `n` are found. -/
def piecesUpTo (sep : List α) : ℕ → List α → List (List α)
  | 0, w => [w]
  | n + 1, w =>
    match cut sep w with
    | none => [w]
    | some (u, v) => u :: piecesUpTo sep n v

/-- **The pieces of a word** between the occurrences of a separator. The word is longer than
the number of these. -/
def pieces (sep w : List α) : List (List α) := piecesUpTo sep w.length w

variable {s : α} {sep : List α}

/-- A separator is not found in letters that it does not begin with. -/
theorem cut_append {u : List α} (h : s ∉ u) (w : List α) :
    cut (s :: sep) (u ++ w) = (cut (s :: sep) w).map fun p => (u ++ p.1, p.2) := by
  induction u with
  | nil => exact (congrFun Option.map_id _).symm
  | cons x u ih =>
    rw [List.mem_cons, not_or] at h
    have hne : ¬s :: sep <+: x :: (u ++ w) := fun hp => h.1 (List.cons_prefix_cons.mp hp).1
    rw [List.cons_append, cut, if_neg hne, ih h.2, Option.map_map]
    rfl

theorem cut_of_begins (w : List α) : cut (s :: sep) (s :: sep ++ w) = some ([], w) := by
  have hp : s :: sep <+: s :: (sep ++ w) := List.prefix_append (s :: sep) w
  rw [List.cons_append, cut, if_pos hp, ← List.cons_append, List.drop_left]

theorem cut_of_notMem {w : List α} (h : s ∉ w) : cut (s :: sep) w = none := by
  have hcut : cut (s :: sep) (w ++ []) = _ := cut_append h []
  rw [List.append_nil] at hcut
  rw [hcut, cut, if_neg (List.cons_ne_nil s sep), Option.map_none]

/-- **A separator is found where it was written**, if the word before it does not hold its
first letter. -/
theorem cut_append_sep {u : List α} (h : s ∉ u) (w : List α) :
    cut (s :: sep) (u ++ (s :: sep) ++ w) = some (u, w) := by
  rw [List.append_assoc, cut_append h, cut_of_begins]
  simp

/-- **The pieces that were joined** are found again. -/
theorem pieces_intercalate {lines : List (List α)} (hne : lines ≠ [])
    (h : ∀ line ∈ lines, s ∉ line) :
    pieces (s :: sep) ((s :: sep).intercalate lines) = lines := by
  have hfuel : ∀ n, lines.length ≤ n + 1 →
      piecesUpTo (s :: sep) n ((s :: sep).intercalate lines) = lines := by
    induction lines with
    | nil => exact absurd rfl hne
    | cons line lines ih =>
      intro n hn
      obtain ⟨hline, hlines⟩ := List.forall_mem_cons.mp h
      rcases lines with _ | ⟨line', lines⟩
      · rw [List.intercalate_singleton]
        rcases n with _ | n
        · rfl
        · rw [piecesUpTo, cut_of_notMem hline]
      · rcases n with _ | n
        · rw [List.length_cons, List.length_cons] at hn
          omega
        · rw [List.intercalate_cons_cons, piecesUpTo, cut_append_sep hline]
          exact congrArg (line :: ·)
            (ih (List.cons_ne_nil _ _) hlines n (Nat.le_of_succ_le_succ hn))
  -- every line but the last is followed by a separator, which has a letter
  have hlen : lines.length ≤ ((s :: sep).intercalate lines).length + 1 := by
    clear hfuel h hne
    induction lines with
    | nil => exact Nat.zero_le _
    | cons line lines ih =>
      rcases lines with _ | ⟨line', lines⟩
      · rw [List.length_singleton]
        omega
      · rw [List.intercalate_cons_cons, List.length_append, List.length_append, List.length_cons,
          List.length_cons (a := s)]
        omega
  exact hfuel _ hlen

/-! ### Lines and an empty line -/

variable {lf : α}

/-- **The first empty line** of a text is the one after the lines that were written: these
are not empty and do not hold the first letter of a line end. -/
theorem cut_lines (hne : s ≠ lf) {line : List α} {lines : List (List α)}
    (h : ∀ l ∈ line :: lines, l ≠ [] ∧ s ∉ l) (w : List α) :
    cut [s, lf, s, lf]
        ((line ++ [s, lf]) ++ lines.flatMap (fun l => l ++ [s, lf]) ++ [s, lf] ++ w) =
      some ([s, lf].intercalate (line :: lines), w) := by
  induction lines generalizing line with
  | nil =>
    have hs := (h line List.mem_cons_self).2
    rw [List.flatMap_nil, List.append_nil, List.append_assoc line, List.intercalate_singleton]
    exact cut_append_sep hs w
  | cons line' lines ih =>
    obtain ⟨hline, hlines⟩ := List.forall_mem_cons.mp h
    obtain ⟨x, r, hx⟩ := List.exists_cons_of_ne_nil (hlines line' List.mem_cons_self).1
    have hsx : s ≠ x := fun he =>
      (hlines line' List.mem_cons_self).2 (hx ▸ he ▸ List.mem_cons_self)
    rw [List.intercalate_cons_cons, List.flatMap_cons]
    -- the text after the line end is the text of the other lines
    generalize hrest : (line' ++ [s, lf]) ++ lines.flatMap (fun l => l ++ [s, lf]) ++ [s, lf] ++ w =
      rest
    have hhead : ∃ t, rest = x :: t := ⟨_, by rw [← hrest, hx]; rfl⟩
    have htext : (line ++ [s, lf]) ++ (line' ++ [s, lf] ++
        lines.flatMap fun l => l ++ [s, lf]) ++ [s, lf] ++ w = line ++ s :: lf :: rest := by
      rw [← hrest]
      simp
    have hcut := ih hlines
    rw [hrest] at hcut
    obtain ⟨t, rfl⟩ := hhead
    have hfirst : ¬[s, lf, s, lf] <+: s :: lf :: x :: t := by
      simp [hsx]
    have hsecond : ¬[s, lf, s, lf] <+: lf :: x :: t := fun hp =>
      hne (List.cons_prefix_cons.mp hp).1
    rw [htext, cut_append hline.2, cut, if_neg hfirst, cut, if_neg hsecond, hcut]
    simp

example : pieces [0, 1] [5, 0, 1, 0, 1, 7, 0] = [[5], [], [7, 0]] := by decide

end Words
