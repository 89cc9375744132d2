import Mathlib.Data.List.Basic

/-!
# Two codings, one of which doubles a letter

Two codings of a text that agree on most of it: where the one writes a distinguished
letter `b` once, the other writes it at least twice; where the one escapes, beginning
with another letter, the other writes `b` as well. The coded texts can be told apart by
the first run of `b` alone, because a run is at least as long as the text that is coded
by it, and is closed by a letter that is not `b`.

So codings that agree *up to* a common closing letter agree letter by letter
(`Words.agree_of_flatMap_eq`), and what follows agrees too; read from the end, the same
holds for what precedes (`Words.agree_of_eq_flatMap`), unless something is escaped.
Nothing here mentions what the letters are.
-/

namespace Words

variable {α β : Type} {b : β}

/-- The two codes of a letter: the same single letter, or `b` once and more than
once. -/
def Doubled (b : β) (u v : List β) : Prop :=
  (∃ x, x ≠ b ∧ u = [x] ∧ v = [x]) ∨ ∃ k, u = [b] ∧ v = List.replicate (k + 2) b

/-- The two codes of a letter that may also be escaped. -/
def Coded (b : β) (u v : List β) : Prop :=
  Doubled b u v ∨ ∃ x w k, x ≠ b ∧ u = x :: w ∧ v = List.replicate (k + 1) b

theorem Doubled.coded {u v : List β} (h : Doubled b u v) : Coded b u v := Or.inl h

/-- The codes do not tell whether they are read from the end. -/
theorem Doubled.reverse {u v : List β} (h : Doubled b u v) : Doubled b u.reverse v.reverse := by
  rcases h with ⟨x, hx, rfl, rfl⟩ | ⟨k, rfl, rfl⟩
  · exact Or.inl ⟨x, hx, rfl, rfl⟩
  · exact Or.inr ⟨k, rfl, List.reverse_replicate⟩

/-- **A run that has got ahead stays ahead**: the doubling side has written `b` once more
than the other, and a closing letter that is not `b` cannot meet it. -/
theorem flatMap_ne_of_ahead {f g : α → List β} {s : List α} (h : ∀ a ∈ s, Coded b (f a) (g a))
    {x : β} (hx : x ≠ b) (r r' : List β) (k : ℕ) :
    s.flatMap f ++ x :: r ≠ List.replicate (k + 1) b ++ (s.flatMap g ++ r') := by
  induction s generalizing k with
  | nil =>
    intro heq
    rw [List.replicate_succ] at heq
    exact hx (List.cons.inj heq).1
  | cons a s ih =>
    intro heq
    rw [List.flatMap_cons, List.flatMap_cons, List.append_assoc, List.replicate_succ] at heq
    rcases h a List.mem_cons_self with (⟨y, hy, hf, -⟩ | ⟨j, hf, hg⟩) | ⟨y, w, j, hy, hf, -⟩
    · rw [hf] at heq
      exact hy (List.cons.inj heq).1
    · -- one more `b` on the one side, at least two more on the other
      rw [hf, hg, List.singleton_append, List.cons_append] at heq
      have htail := (List.cons.inj heq).2
      rw [List.append_assoc, ← List.append_assoc, List.replicate_append_replicate] at htail
      exact ih (fun a' ha' => h a' (List.mem_cons_of_mem _ ha')) (k + j + 1) htail
    · rw [hf] at heq
      exact hy (List.cons.inj heq).1

/-- **Codings that agree up to a closing letter** agree letter by letter, and so does
what follows. -/
theorem agree_of_flatMap_eq {f g : α → List β} {s : List α} (h : ∀ a ∈ s, Coded b (f a) (g a))
    {x : β} (hx : x ≠ b) {r r' : List β} (heq : s.flatMap f ++ x :: r = s.flatMap g ++ r') :
    (∀ a ∈ s, f a = g a) ∧ x :: r = r' := by
  induction s with
  | nil => exact ⟨nofun, heq⟩
  | cons a s ih =>
    have hs : ∀ a' ∈ s, Coded b (f a') (g a') := fun a' ha' => h a' (List.mem_cons_of_mem _ ha')
    rw [List.flatMap_cons, List.flatMap_cons, List.append_assoc, List.append_assoc] at heq
    rcases h a List.mem_cons_self with (⟨y, -, hf, hg⟩ | ⟨k, hf, hg⟩) | ⟨y, w, k, hy, hf, hg⟩
    · rw [hf, hg] at heq
      obtain ⟨hall, hr⟩ := ih hs (List.cons.inj heq).2
      exact ⟨List.forall_mem_cons.mpr ⟨hf.trans hg.symm, hall⟩, hr⟩
    · rw [hf, hg, List.replicate_succ] at heq
      exact absurd (List.cons.inj heq).2 (flatMap_ne_of_ahead hs hx r r' k)
    · rw [hf, hg, List.replicate_succ] at heq
      exact absurd (List.cons.inj heq).1 hy

/-- **Codings that agree from a closing letter on** agree letter by letter, and so does
what precedes, if nothing is escaped. -/
theorem agree_of_eq_flatMap {f g : α → List β} {s : List α} (h : ∀ a ∈ s, Doubled b (f a) (g a))
    {x : β} (hx : x ≠ b) {r r' : List β} (heq : r ++ x :: s.flatMap f = r' ++ s.flatMap g) :
    (∀ a ∈ s, f a = g a) ∧ r ++ [x] = r' := by
  have hrev := congrArg List.reverse heq
  rw [List.reverse_append, List.reverse_cons, List.reverse_append, List.reverse_flatMap,
    List.reverse_flatMap, List.append_assoc] at hrev
  obtain ⟨hall, hr⟩ := agree_of_flatMap_eq
    (fun a ha => (h a (List.mem_reverse.mp ha)).reverse.coded) hx hrev
  constructor
  · intro a ha
    exact List.reverse_injective (hall a (List.mem_reverse.mpr ha))
  · exact List.reverse_injective (by simpa using hr)

end Words
