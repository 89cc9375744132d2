import Mathlib.Data.List.Basic

/-!
# Machines that answer

A machine reads inputs one after the other; on each it changes its state and gives an answer.
One machine simulates another along a relation between their states if related states stay
related and give the same answers, one input at a time; then the answers to any word of inputs
are the same (`Words.Machine.Simulates.run`).
-/

namespace Words

/-- **A machine**: what it does on an input. -/
structure Machine (σ ι ω : Type) where
  step : σ → ι → σ × ω

namespace Machine

variable {σ τ ι ω : Type} {m : Machine σ ι ω} {n : Machine τ ι ω}

/-- The state after a word of inputs, and the answers. -/
def run (m : Machine σ ι ω) : σ → List ι → σ × List ω
  | s, [] => (s, [])
  | s, i :: is => ((m.run (m.step s i).1 is).1, (m.step s i).2 :: (m.run (m.step s i).1 is).2)

theorem run_cons (m : Machine σ ι ω) (s : σ) (i : ι) (is : List ι) :
    m.run s (i :: is) =
      ((m.run (m.step s i).1 is).1, (m.step s i).2 :: (m.run (m.step s i).1 is).2) := rfl

/-- A word is read after another. -/
theorem run_append (m : Machine σ ι ω) (s : σ) (is js : List ι) :
    m.run s (is ++ js) =
      ((m.run (m.run s is).1 js).1, (m.run s is).2 ++ (m.run (m.run s is).1 js).2) := by
  induction is generalizing s with
  | nil => rfl
  | cons i is ih => rw [List.cons_append, run_cons, ih, run_cons, List.cons_append]

/-- Every input is answered. -/
theorem length_run (m : Machine σ ι ω) (s : σ) (is : List ι) :
    (m.run s is).2.length = is.length := by
  induction is generalizing s with
  | nil => rfl
  | cons i is ih => rw [run_cons, List.length_cons, List.length_cons, ih]

/-- What every step keeps, a run keeps. -/
theorem run_invariant (P : σ → Prop) (allowed : ι → Prop)
    (h : ∀ s i, P s → allowed i → P (m.step s i).1) {s : σ} (hs : P s) {is : List ι}
    (his : ∀ i ∈ is, allowed i) : P (m.run s is).1 := by
  induction is generalizing s with
  | nil => exact hs
  | cons i is ih =>
    obtain ⟨hi, his⟩ := List.forall_mem_cons.mp his
    exact ih (h s i hs hi) his

/-- Inputs of one kind, with one answer: what they do one after the other is done at once. -/
theorem run_map {δ : Type} (input : δ → ι) (add : σ → List δ → σ) (answer : ω)
    (hnil : ∀ s, add s [] = s) (hcons : ∀ s x xs, add (m.step s (input x)).1 xs = add s (x :: xs))
    (hanswer : ∀ s x, (m.step s (input x)).2 = answer) (s : σ) (xs : List δ) :
    m.run s (xs.map input) = (add s xs, List.replicate xs.length answer) := by
  induction xs generalizing s with
  | nil => exact Prod.ext (hnil s).symm rfl
  | cons x xs ih =>
    rw [List.map_cons, run_cons, ih, hcons, hanswer, List.length_cons, List.replicate_succ]

/-- **Two machines agree on a step**, for some inputs: related states stay related, and the
answers are the same. -/
def Simulates (m : Machine σ ι ω) (n : Machine τ ι ω) (R : σ → τ → Prop) (allowed : ι → Prop) :
    Prop :=
  ∀ s t i, R s t → allowed i →
    R (m.step s i).1 (n.step t i).1 ∧ (m.step s i).2 = (n.step t i).2

/-- **Machines that agree on a step agree on words.** -/
theorem Simulates.run {R : σ → τ → Prop} {allowed : ι → Prop} (h : m.Simulates n R allowed)
    {s : σ} {t : τ} (hst : R s t) {is : List ι} (his : ∀ i ∈ is, allowed i) :
    R (m.run s is).1 (n.run t is).1 ∧ (m.run s is).2 = (n.run t is).2 := by
  induction is generalizing s t with
  | nil => exact ⟨hst, rfl⟩
  | cons i is ih =>
    obtain ⟨hi, his⟩ := List.forall_mem_cons.mp his
    obtain ⟨hstep, hanswer⟩ := h s t i hst hi
    obtain ⟨hrun, hanswers⟩ := ih hstep his
    rw [run_cons, run_cons]
    exact ⟨hrun, by rw [hanswer, hanswers]⟩

end Machine

end Words
