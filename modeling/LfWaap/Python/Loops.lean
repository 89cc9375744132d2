import LfWaap.Python.Text

/-!
# Loops that may raise, and generators

A comprehension over a function that may raise, `[f(x) for x in xs]`, returns exactly
when every call returns (`Python.mapM_eq_ok_iff`, as a relation between the two
lists). A generator is what a consumer can observe of one: the values it yields, and
the exception it ends with, if any (`Python.Generator`).
-/

namespace Python

/-! ### Comprehensions -/

@[simp] theorem ok_bind {α β : Type} (a : α) (g : α → Except PyError β) :
    ((Except.ok a : Except PyError α) >>= g) = g a := rfl

/-- A call that raises returns nothing. -/
theorem not_exists_error_eq_ok {α : Type} {e : PyError} :
    ¬ ∃ y, (Except.error e : Except PyError α) = .ok y := by
  rintro ⟨y, h⟩
  cases h

theorem exists_of_map_eq_ok {α β : Type} {g : α → β} {x : Except PyError α} {y : β}
    (h : x.map g = .ok y) : ∃ a, x = .ok a ∧ y = g a := by
  cases x with
  | error e => exact absurd h nofun
  | ok a => exact ⟨a, rfl, (Except.ok.inj h).symm⟩

theorem exists_of_bind_eq_ok {α β : Type} {g : α → Except PyError β} {x : Except PyError α}
    {y : β} (h : x >>= g = .ok y) : ∃ a, x = .ok a ∧ g a = .ok y := by
  cases x with
  | error e => exact absurd h nofun
  | ok a => exact ⟨a, rfl, h⟩

section

variable {α β : Type} {f : α → Except PyError β} {xs : List α} {ys : List β}

theorem mapM_cons_eq_ok_iff {x : α} :
    (x :: xs).mapM f = .ok ys ↔
      ∃ y ys', f x = .ok y ∧ xs.mapM f = .ok ys' ∧ ys = y :: ys' := by
  rw [List.mapM_cons]
  cases hx : f x with
  | error e => exact ⟨fun h => absurd h nofun, fun ⟨_, _, h, _⟩ => absurd h nofun⟩
  | ok y =>
    cases hxs : xs.mapM f with
    | error e => exact ⟨fun h => absurd h nofun, fun ⟨_, _, _, h, _⟩ => absurd h nofun⟩
    | ok ys' =>
      constructor
      · exact fun h => ⟨y, ys', rfl, rfl, (Except.ok.inj h).symm⟩
      · rintro ⟨_, _, hy, hys', rfl⟩
        obtain rfl := Except.ok.inj hy
        obtain rfl := Except.ok.inj hys'
        rfl

/-- **A comprehension returns** exactly when all its calls do. -/
theorem mapM_eq_ok_iff : xs.mapM f = .ok ys ↔ List.Forall₂ (fun x y => f x = .ok y) xs ys := by
  induction xs generalizing ys with
  | nil =>
    rw [List.forall₂_nil_left_iff]
    exact ⟨fun h => (Except.ok.inj h).symm, fun h => h ▸ rfl⟩
  | cons x xs ih =>
    rw [mapM_cons_eq_ok_iff, List.forall₂_cons_left_iff]
    simp only [ih]

theorem exists_mapM_eq_ok (f : α → Except PyError β) (xs : List α)
    (h : ∀ x ∈ xs, ∃ y, f x = .ok y) : ∃ ys, xs.mapM f = .ok ys := by
  induction xs with
  | nil => exact ⟨[], rfl⟩
  | cons x xs ih =>
    obtain ⟨y, hy⟩ := h x List.mem_cons_self
    obtain ⟨ys, hys⟩ := ih fun x' hx' => h x' (List.mem_cons_of_mem _ hx')
    exact ⟨y :: ys, mapM_cons_eq_ok_iff.mpr ⟨y, ys, hy, hys, rfl⟩⟩

theorem length_of_mapM (h : xs.mapM f = .ok ys) : ys.length = xs.length :=
  (mapM_eq_ok_iff.mp h).length_eq.symm

/-- Every call of a comprehension that returns has returned. -/
theorem exists_of_mem_of_mapM (h : xs.mapM f = .ok ys) {x : α} (hx : x ∈ xs) :
    ∃ y, f x = .ok y := by
  induction xs generalizing ys with
  | nil => exact absurd hx (by simp)
  | cons a xs ih =>
    obtain ⟨y, ys', hy, hys', -⟩ := mapM_cons_eq_ok_iff.mp h
    rcases List.mem_cons.mp hx with rfl | hx
    · exact ⟨y, hy⟩
    · exact ih hys' hx

/-- Every value of a comprehension comes from a call. -/
theorem exists_of_mem_values (h : xs.mapM f = .ok ys) {y : β} (hy : y ∈ ys) :
    ∃ x ∈ xs, f x = .ok y := by
  induction xs generalizing ys with
  | nil =>
    obtain rfl : [] = ys := Except.ok.inj h
    exact absurd hy (by simp)
  | cons a xs ih =>
    obtain ⟨y', ys', hy', hys', rfl⟩ := mapM_cons_eq_ok_iff.mp h
    rcases List.mem_cons.mp hy with rfl | hy
    · exact ⟨a, List.mem_cons_self, hy'⟩
    · obtain ⟨x, hx, hfx⟩ := ih hys' hy
      exact ⟨x, List.mem_cons_of_mem _ hx, hfx⟩

/-- Every call of a comprehension returns one of its values. -/
theorem exists_mem_values (h : xs.mapM f = .ok ys) {x : α} (hx : x ∈ xs) :
    ∃ y ∈ ys, f x = .ok y := by
  obtain ⟨i, hi, rfl⟩ := List.getElem_of_mem hx
  have hrel := mapM_eq_ok_iff.mp h
  have hi' : i < ys.length := hrel.length_eq ▸ hi
  exact ⟨ys[i], List.getElem_mem hi', hrel.get hi hi'⟩

/-- A comprehension over the same elements in another order returns the same values in
another order. -/
theorem mapM_perm {xs' : List α} (h : xs.Perm xs') (hys : xs.mapM f = .ok ys) :
    ∃ ys', xs'.mapM f = .ok ys' ∧ ys.Perm ys' := by
  obtain ⟨ys', hall, hperm⟩ := List.perm_comp_forall₂ h.symm (mapM_eq_ok_iff.mp hys)
  exact ⟨ys', mapM_eq_ok_iff.mpr hall, hperm.symm⟩

/-- What a call raises, if it raises. -/
def raisedBy {γ : Type} : Except PyError γ → Option PyError
  | .ok _ => none
  | .error e => some e

theorem raisedBy_eq_none_iff {γ : Type} {x : Except PyError γ} :
    raisedBy x = none ↔ ∃ y, x = .ok y := by
  cases x with
  | error e => exact iff_of_false (by rintro ⟨⟩) not_exists_error_eq_ok
  | ok y => exact iff_of_true rfl ⟨y, rfl⟩

theorem raisedBy_map {γ δ : Type} (g : γ → δ) (x : Except PyError γ) :
    raisedBy (x.map g) = raisedBy x := by
  cases x <;> rfl

/-- The position of the first call that raises; the number of calls where none does. -/
def firstFailure (f : α → Except PyError β) (xs : List α) : ℕ :=
  xs.findIdx fun x => (raisedBy (f x)).isSome

/-- A loop that collects values until a call raises: the values it has by then, and what
is raised. -/
def mapUntil (f : α → Except PyError β) : List α → List β × Option PyError
  | [] => ([], none)
  | x :: xs =>
    match f x with
    | .ok y => (y :: (mapUntil f xs).1, (mapUntil f xs).2)
    | .error e => ([], some e)

/-- **A loop that may raise** collects the values of the calls before the first that
raises, and ends with what that one raises. -/
theorem mapUntil_spec (f : α → Except PyError β) (xs : List α) :
    List.Forall₂ (fun x y => f x = .ok y) (xs.take (firstFailure f xs)) (mapUntil f xs).1 ∧
      (mapUntil f xs).2 = xs[firstFailure f xs]?.bind fun x => raisedBy (f x) := by
  induction xs with
  | nil => exact ⟨List.Forall₂.nil, rfl⟩
  | cons x xs ih =>
    rw [mapUntil, firstFailure, List.findIdx_cons]
    cases hx : f x with
    | error e => exact ⟨List.Forall₂.nil, by simp [raisedBy, hx]⟩
    | ok y =>
      refine ⟨List.Forall₂.cons hx ih.1, ?_⟩
      rw [ih.2]
      rfl

/-- A loop in which no call raises is a comprehension. -/
theorem mapM_of_mapUntil {f : α → Except PyError β} {xs : List α} (h : (mapUntil f xs).2 = none) :
    xs.mapM f = .ok (mapUntil f xs).1 := by
  induction xs with
  | nil => rfl
  | cons x xs ih =>
    rw [mapUntil] at h ⊢
    cases hx : f x with
    | error e =>
      rw [hx] at h
      exact absurd h nofun
    | ok y =>
      rw [hx] at h
      exact mapM_cons_eq_ok_iff.mpr ⟨y, _, hx, ih h, rfl⟩

/-- No call raises exactly when all return. -/
theorem mapUntil_eq_none_iff {f : α → Except PyError β} {xs : List α} :
    (mapUntil f xs).2 = none ↔ ∀ x ∈ xs, ∃ y, f x = .ok y := by
  induction xs with
  | nil => simp [mapUntil]
  | cons x xs ih =>
    rw [mapUntil, List.forall_mem_cons]
    cases hx : f x with
    | error e => exact iff_of_false (by rintro ⟨⟩) fun h => not_exists_error_eq_ok h.1
    | ok y => exact ih.trans ⟨fun h => ⟨⟨y, rfl⟩, h⟩, fun h => h.2⟩

/-- **A longer loop collects more**: what is collected first stays. -/
theorem mapUntil_extends (f : α → Except PyError β) {xs xs' : List α} (h : xs <+: xs') :
    (mapUntil f xs).1 <+: (mapUntil f xs').1 := by
  obtain ⟨zs, rfl⟩ := h
  induction xs with
  | nil => exact List.nil_prefix
  | cons x xs ih =>
    rw [List.cons_append, mapUntil, mapUntil]
    cases f x with
    | error e => exact List.prefix_rfl
    | ok y => exact List.cons_prefix_cons.mpr ⟨rfl, ih⟩

/-- A loop that has ended is not changed by what comes later. -/
theorem mapUntil_append_of_raised {e : PyError} (h : (mapUntil f xs).2 = some e) (zs : List α) :
    mapUntil f (xs ++ zs) = mapUntil f xs := by
  induction xs with
  | nil => cases h
  | cons x xs ih =>
    rw [List.cons_append, mapUntil, mapUntil]
    rw [mapUntil] at h
    cases hx : f x with
    | error e' => rfl
    | ok y =>
      rw [hx] at h
      rw [ih h]

/-- A loop in which every call returns collects all values. -/
theorem mapUntil_map_of_ok {γ : Type} {m : γ → α} {g : γ → β} {zs : List γ}
    (h : ∀ z ∈ zs, f (m z) = .ok (g z)) : mapUntil f (zs.map m) = (zs.map g, none) := by
  induction zs with
  | nil => rfl
  | cons z zs ih =>
    obtain ⟨hz, hzs⟩ := List.forall_mem_cons.mp h
    rw [List.map_cons, mapUntil, hz, ih hzs]
    rfl

/-- A loop over messages, whose calls decode them, call another function and encode its value,
does what a loop over the decoded ones does. -/
theorem mapUntil_map_map {γ δ : Type} {m : γ → α} {g : γ → Except PyError δ} {k : δ → β}
    {zs : List γ} (h : ∀ z ∈ zs, f (m z) = (g z).map k) :
    mapUntil f (zs.map m) = ((mapUntil g zs).1.map k, (mapUntil g zs).2) := by
  induction zs with
  | nil => rfl
  | cons z zs ih =>
    obtain ⟨hz, hzs⟩ := List.forall_mem_cons.mp h
    rw [List.map_cons, mapUntil, mapUntil, hz]
    cases g z with
    | error e => rfl
    | ok y =>
      rw [ih hzs]
      rfl

/-- **Two loops of which the second raises more**: where the calls of the second return, so do
those of the first, with related values. Then what the second collects is matched by what the first
collects first, and if the second comes to its end, so does the first, at the same element. -/
theorem mapUntil_of_refines {γ : Type} {g : α → Except PyError γ} {R : β → γ → Prop}
    (h : ∀ x z, g x = .ok z → ∃ y, f x = .ok y ∧ R y z) (xs : List α) :
    ∃ ys zs, (mapUntil f xs).1 = ys ++ zs ∧ List.Forall₂ R ys (mapUntil g xs).1 ∧
      ((mapUntil g xs).2 = none → zs = [] ∧ (mapUntil f xs).2 = none) := by
  induction xs with
  | nil => exact ⟨[], [], rfl, .nil, fun _ => ⟨rfl, rfl⟩⟩
  | cons x xs ih =>
    rw [mapUntil, mapUntil]
    cases hg : g x with
    | error e => exact ⟨[], _, rfl, .nil, nofun⟩
    | ok z =>
      obtain ⟨y, hy, hyz⟩ := h x z hg
      obtain ⟨ys, zs, hsplit, hall, hend⟩ := ih
      rw [hy]
      refine ⟨y :: ys, zs, ?_, .cons hyz hall, hend⟩
      rw [List.cons_append, ← hsplit]

/-! ### Two calls in step -/

/-- **Two calls that go alike**: both raise, and the same, or both return, and their values are
related. -/
inductive Related {γ δ : Type} (R : γ → δ → Prop) : Except PyError γ → Except PyError δ → Prop
  | error (e : PyError) : Related R (.error e) (.error e)
  | ok {c : γ} {d : δ} (h : R c d) : Related R (.ok c) (.ok d)

namespace Related

variable {γ δ γ' δ' : Type} {R : γ → δ → Prop} {S : γ' → δ' → Prop}

/-- A weaker relation of the values. -/
theorem imp {x : Except PyError γ} {y : Except PyError δ} (h : Related R x y) {R' : γ → δ → Prop}
    (hr : ∀ c d, R c d → R' c d) : Related R' x y := by
  cases h with
  | error e => exact error e
  | ok hcd => exact ok (hr _ _ hcd)

/-- Calls that go alike, and on related values go on alike. -/
theorem bind {x : Except PyError γ} {y : Except PyError δ} (h : Related R x y)
    {g : γ → Except PyError γ'} {k : δ → Except PyError δ'}
    (hg : ∀ c d, R c d → Related S (g c) (k d)) : Related S (x >>= g) (y >>= k) := by
  cases h with
  | error e => exact error e
  | ok hcd => exact hg _ _ hcd

/-- Loops whose calls go alike. -/
theorem mapM {f : α → Except PyError γ} {g : α → Except PyError δ}
    (h : ∀ x ∈ xs, Related R (f x) (g x)) : Related (List.Forall₂ R) (xs.mapM f) (xs.mapM g) := by
  induction xs with
  | nil => exact ok .nil
  | cons x xs ih =>
    rw [List.mapM_cons, List.mapM_cons]
    refine (h x List.mem_cons_self).bind fun c d hcd => ?_
    refine (ih fun y hy => h y (List.mem_cons_of_mem _ hy)).bind fun cs ds hcds => ?_
    exact ok (.cons hcd hcds)

end Related

end

/-! ### Generators -/

/-- **A generator** as its consumer sees it: the values it yields, and the exception
it then raises, if it raises one. -/
structure Generator (α : Type) where
  yields : List α
  raised : Option PyError := none

namespace Generator

variable {α β : Type}

/-- `list(generator)`. -/
def toList (g : Generator α) : Except PyError (List α) :=
  match g.raised with
  | none => .ok g.yields
  | some e => .error e

/-- A list is made of a generator that does not raise. -/
theorem toList_eq_ok_iff {g : Generator α} {xs : List α} :
    g.toList = .ok xs ↔ g.raised = none ∧ g.yields = xs := by
  rw [toList]
  cases g.raised with
  | none => exact ⟨fun h => ⟨rfl, Except.ok.inj h⟩, fun h => congrArg Except.ok h.2⟩
  | some e => exact iff_of_false nofun fun h => absurd h.1 nofun

/-- `(f(x) for x in generator)`. -/
def map (f : α → β) (g : Generator α) : Generator β := ⟨g.yields.map f, g.raised⟩

/-- `(x for x in generator if p(x))`. -/
def filter (p : α → Bool) (g : Generator α) : Generator α := ⟨g.yields.filter p, g.raised⟩

/-- A `for` loop over values that end with `raised`, if with an exception at all; the
body may raise as well. -/
def loop {σ : Type} (body : σ → α → σ × Option PyError) (raised : Option PyError) :
    List α → σ → σ × Option PyError
  | [], s => (s, raised)
  | x :: xs, s =>
    match body s x with
    | (s', none) => loop body raised xs s'
    | (s', some e) => (s', some e)

/-- A `for` loop over a generator. The exception of the body comes before the one the
generator would have ended with. -/
def forEach {σ : Type} (body : σ → α → σ × Option PyError) (g : Generator α) (s : σ) :
    σ × Option PyError :=
  loop body g.raised g.yields s

/-- A body that never raises. -/
theorem forEach_of_total {σ : Type} (step : σ → α → σ) (g : Generator α) (s : σ) :
    g.forEach (fun s x => (step s x, none)) s = (g.yields.foldl step s, g.raised) := by
  obtain ⟨xs, raised⟩ := g
  change loop (fun s x => (step s x, none)) raised xs s = (xs.foldl step s, raised)
  induction xs generalizing s with
  | nil => rfl
  | cons x xs ih => exact ih (step s x)

/-- A `for` loop whose state is lost where it raises. -/
def foldM {σ : Type} (body : σ → α → Except PyError σ) (g : Generator α) (s : σ) :
    Except PyError σ :=
  match g.yields.foldlM body s with
  | .error e => .error e
  | .ok s =>
    match g.raised with
    | none => .ok s
    | some e => .error e

/-- A loop that returns has read its generator to the end. -/
theorem foldlM_of_foldM {σ : Type} {body : σ → α → Except PyError σ} {g : Generator α} {s t : σ}
    (h : g.foldM body s = .ok t) : g.yields.foldlM body s = .ok t := by
  rw [foldM] at h
  split at h
  · cases h
  · next s' hs' =>
    split at h
    · rw [hs', Except.ok.inj h]
    · cases h

end Generator

end Python
