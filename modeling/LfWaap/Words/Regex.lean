import Mathlib.Data.List.Forall2

/-!
# Regular expressions with a look at the neighbours

Regular expressions as libraries of programming languages have them: besides the usual
operations there are tests of a position that consume nothing and look at the letter before
it and the letter after it (`Words.Regex.look`), among them word boundaries and the ends of
lines. So whether an expression matches a part of a word depends on what stands before and
after the part, and `Words.Regex.Matches` has all three as arguments. A word is searched with
`Words.Regex.search`, which returns exactly if some part of it is matched
(`Words.Regex.search_iff`).

What is proved about matches is how they survive when the word is changed around them or in
them: letter by letter (`Words.Regex.Matches.forall₂`); by a continuation that the match does
not touch (`Words.Regex.Matches.append`); and by one that begins with a distinguished letter,
such as a line end, even if the match does touch it (`Words.Regex.Matches.append_cons`).
-/

namespace Words

/-- **A regular expression.** -/
inductive Regex (α : Type) where
  /-- One letter of a kind. -/
  | letter (p : α → Bool)
  /-- A position between letters of certain kinds. -/
  | look (q : Option α → Option α → Bool)
  | seq (r s : Regex α)
  | alt (r s : Regex α)
  | star (r : Regex α)

namespace Regex

variable {α : Type} {r s : Regex α} {pre mid post : List α}

/-- One or more times. -/
def plus (r : Regex α) : Regex α := .seq r (.star r)

/-- One expression after the other. -/
def seqs : List (Regex α) → Regex α
  | [] => .look fun _ _ => true
  | [r] => r
  | r :: rs => .seq r (seqs rs)

/-- One of several expressions. -/
def alts : List (Regex α) → Regex α
  | [] => .look fun _ _ => false
  | [r] => r
  | r :: rs => .alt r (alts rs)

/-- **What an expression matches**: a part of a word, between what stands before and after
it. -/
inductive Matches : Regex α → List α → List α → List α → Prop where
  | letter {p : α → Bool} {pre : List α} {x : α} {post : List α} (h : p x = true) :
      Matches (.letter p) pre [x] post
  | look {q : Option α → Option α → Bool} {pre post : List α}
      (h : q pre.getLast? post.head? = true) : Matches (.look q) pre [] post
  | seq {r s : Regex α} {pre u v post : List α} (hr : Matches r pre u (v ++ post))
      (hs : Matches s (pre ++ u) v post) : Matches (.seq r s) pre (u ++ v) post
  | left {r s : Regex α} {pre mid post : List α} (h : Matches r pre mid post) :
      Matches (.alt r s) pre mid post
  | right {r s : Regex α} {pre mid post : List α} (h : Matches s pre mid post) :
      Matches (.alt r s) pre mid post
  | nil {r : Regex α} {pre post : List α} : Matches (.star r) pre [] post
  | cons {r : Regex α} {pre u v post : List α} (hr : Matches r pre u (v ++ post))
      (hs : Matches (.star r) (pre ++ u) v post) : Matches (.star r) pre (u ++ v) post

/-- A star matches nothing, or something and then the rest. -/
theorem Matches.star_cases (h : Matches (.star r) pre mid post) :
    mid = [] ∨ ∃ u v, u ≠ [] ∧ mid = u ++ v ∧ Matches r pre u (v ++ post) ∧
      Matches (.star r) (pre ++ u) v post := by
  generalize hstar : Regex.star r = t at h
  induction h with
  | nil => exact .inl rfl
  | @cons r' pre u v post hu hv ihu ihv =>
    obtain rfl := Regex.star.inj hstar
    by_cases hne : u = []
    · -- an empty repetition is left out
      obtain rfl := hne
      rw [List.append_nil] at ihv
      exact ihv rfl
    · exact .inr ⟨u, v, hne, rfl, hu, hv⟩
  | _ => cases hstar

/-! ### Searching -/

/-- A position in a word: the letters before it, the nearest first, and those after it. -/
abbrev Position (α : Type) : Type := List α × List α

/-- The positions that are reached by repeating a move that consumes letters, at most `n`
times. -/
def repeated (move : Position α → List (Position α)) : ℕ → Position α → List (Position α)
  | 0, x => [x]
  | n + 1, x =>
    x :: ((move x).filter fun y => decide (y.2.length < x.2.length)).flatMap (repeated move n)

/-- **The positions where a match ends** that begins at a position. -/
def ends : Regex α → Position α → List (Position α)
  | .letter p, x =>
    match x.2 with
    | [] => []
    | c :: after => if p c then [(c :: x.1, after)] else []
  | .look q, x => if q x.1.head? x.2.head? then [x] else []
  | .seq r s, x => (ends r x).flatMap (ends s)
  | .alt r s, x => ends r x ++ ends s x
  | .star r, x => repeated (ends r) x.2.length x

/-- The expression matches at some position of the rest of a word. -/
def searchFrom (r : Regex α) : List α → List α → Bool
  | before, [] => !(ends r (before, [])).isEmpty
  | before, c :: after => !(ends r (before, c :: after)).isEmpty || searchFrom r (c :: before) after

/-- **The expression matches somewhere in a word.** -/
def search (r : Regex α) (w : List α) : Bool := searchFrom r [] w

/-- The position after a part of a word. -/
def after (mid : List α) (before post : List α) : Position α := (mid.reverse ++ before, post)

theorem after_append (u v before post : List α) :
    after (u ++ v) before post = after v (u.reverse ++ before) post := by
  simp [after]

/-- A move that finds what an expression matches. -/
def Finds (r : Regex α) (move : Position α → List (Position α)) : Prop :=
  ∀ before rest y, y ∈ move (before, rest) ↔
    ∃ mid post, rest = mid ++ post ∧ y = after mid before post ∧
      Matches r before.reverse mid post

/-- **A star finds what it matches**: every repetition that matters consumes a letter, so the
length of the rest bounds their number. -/
theorem mem_repeated_iff {move : Position α → List (Position α)} (h : Finds r move) (n : ℕ)
    (before rest : List α) (hn : rest.length ≤ n) {y : Position α} :
    y ∈ repeated move n (before, rest) ↔
      ∃ mid post, rest = mid ++ post ∧ y = after mid before post ∧
        Matches (.star r) before.reverse mid post := by
  induction n generalizing before rest with
  | zero =>
    obtain rfl := List.length_eq_zero_iff.mp (Nat.le_zero.mp hn)
    rw [repeated, List.mem_singleton]
    constructor
    · rintro rfl
      exact ⟨[], [], rfl, rfl, .nil⟩
    · rintro ⟨mid, post, hrest, rfl, -⟩
      obtain ⟨rfl, rfl⟩ := List.append_eq_nil_iff.mp hrest.symm
      rfl
  | succ n ih =>
    rw [repeated, List.mem_cons, List.mem_flatMap]
    constructor
    · rintro (rfl | ⟨⟨before', rest'⟩, hx, hy⟩)
      · exact ⟨[], rest, rfl, rfl, .nil⟩
      · obtain ⟨hmove, hlt⟩ := List.mem_filter.mp hx
        obtain ⟨u, post, rfl, hpos, hu⟩ := (h before rest _).mp hmove
        obtain ⟨rfl, rfl⟩ := Prod.mk.inj hpos
        have hlen : rest'.length < (u ++ rest').length := of_decide_eq_true hlt
        obtain ⟨v, post, rfl, rfl, hv⟩ := (ih _ _ (by omega)).mp hy
        refine ⟨u ++ v, post, (List.append_assoc u v post).symm,
          (after_append u v before post).symm, .cons hu ?_⟩
        rwa [List.reverse_append, List.reverse_reverse] at hv
    · rintro ⟨mid, post, rfl, rfl, hmid⟩
      rcases hmid.star_cases with rfl | ⟨u, v, hne, rfl, hu, hv⟩
      · exact .inl rfl
      · refine .inr ⟨after u before (v ++ post), List.mem_filter.mpr ⟨?_, ?_⟩, ?_⟩
        · exact (h before _ _).mpr ⟨u, v ++ post, List.append_assoc u v post, rfl, hu⟩
        · have hpos := List.length_pos_of_ne_nil hne
          refine decide_eq_true ?_
          show (v ++ post).length < (u ++ v ++ post).length
          simp only [List.length_append]
          omega
        · have hpos := List.length_pos_of_ne_nil hne
          have hlen : (v ++ post).length ≤ n := by
            simp only [List.length_append] at hn ⊢
            omega
          refine (ih (u.reverse ++ before) (v ++ post) hlen).mpr
            ⟨v, post, rfl, after_append u v before post, ?_⟩
          rwa [List.reverse_append, List.reverse_reverse]

theorem finds_letter (p : α → Bool) : Finds (.letter p) (ends (.letter p)) := by
  intro before rest y
  rcases rest with _ | ⟨c, rest⟩
  · refine iff_of_false List.not_mem_nil ?_
    rintro ⟨mid, post, hrest, -, h⟩
    obtain ⟨rfl, rfl⟩ := List.append_eq_nil_iff.mp hrest.symm
    cases h
  · show y ∈ (if p c = true then _ else _) ↔ _
    constructor
    · intro hy
      split at hy
      · next hp =>
        obtain rfl := List.mem_singleton.mp hy
        exact ⟨[c], rest, rfl, rfl, .letter hp⟩
      · exact absurd hy List.not_mem_nil
    · rintro ⟨mid, post, hrest, rfl, h⟩
      rcases h with ⟨hp⟩
      obtain ⟨rfl, rfl⟩ := List.cons.inj hrest
      rw [if_pos hp]
      exact List.mem_singleton.mpr rfl

theorem finds_look (q : Option α → Option α → Bool) : Finds (.look q) (ends (.look q)) := by
  intro before rest y
  show y ∈ (if q before.head? rest.head? = true then _ else _) ↔ _
  constructor
  · intro hy
    split at hy
    · next hq =>
      obtain rfl := List.mem_singleton.mp hy
      refine ⟨[], rest, rfl, rfl, .look ?_⟩
      rwa [List.getLast?_reverse]
    · exact absurd hy List.not_mem_nil
  · rintro ⟨mid, post, rfl, rfl, h⟩
    rcases h with _ | hq
    rw [List.getLast?_reverse] at hq
    rw [List.nil_append, if_pos hq]
    exact List.mem_singleton.mpr rfl

/-- One expression after another: the moves are made one after another. -/
theorem Finds.seq {r s : Regex α} {move move' : Position α → List (Position α)}
    (hr : Finds r move) (hs : Finds s move') :
    Finds (.seq r s) fun x => (move x).flatMap move' := by
  intro before rest y
  rw [List.mem_flatMap]
  constructor
  · rintro ⟨⟨before', rest'⟩, hx, hy⟩
    obtain ⟨u, post, rfl, hpos, hu⟩ := (hr before rest _).mp hx
    obtain ⟨rfl, rfl⟩ := Prod.mk.inj hpos
    obtain ⟨v, post, rfl, rfl, hv⟩ := (hs _ _ _).mp hy
    refine ⟨u ++ v, post, (List.append_assoc u v post).symm, (after_append u v before post).symm,
      .seq hu ?_⟩
    rwa [List.reverse_append, List.reverse_reverse] at hv
  · rintro ⟨mid, post, rfl, rfl, h⟩
    rcases h with _ | _ | @⟨_, _, _, u, v, _, hu, hv⟩
    refine ⟨after u before (v ++ post), (hr _ _ _).mpr ⟨u, v ++ post, ?_, rfl, hu⟩,
      (hs _ _ _).mpr ⟨v, post, rfl, after_append u v before post, ?_⟩⟩
    · exact List.append_assoc u v post
    · rwa [List.reverse_append, List.reverse_reverse]

/-- Either of two expressions: both moves are tried. -/
theorem Finds.alt {r s : Regex α} {move move' : Position α → List (Position α)}
    (hr : Finds r move) (hs : Finds s move') : Finds (.alt r s) fun x => move x ++ move' x := by
  intro before rest y
  rw [List.mem_append, hr before rest y, hs before rest y]
  constructor
  · rintro (⟨mid, post, hrest, hy, h⟩ | ⟨mid, post, hrest, hy, h⟩)
    · exact ⟨mid, post, hrest, hy, .left h⟩
    · exact ⟨mid, post, hrest, hy, .right h⟩
  · rintro ⟨mid, post, hrest, hy, h⟩
    rcases h with _ | _ | _ | h | h
    · exact .inl ⟨mid, post, hrest, hy, h⟩
    · exact .inr ⟨mid, post, hrest, hy, h⟩

/-- **The positions that are found** are those where a match ends. -/
theorem finds_ends (r : Regex α) : Finds r (ends r) := by
  induction r with
  | letter p => exact finds_letter p
  | look q => exact finds_look q
  | seq r s ihr ihs => exact ihr.seq ihs
  | alt r s ihr ihs => exact ihr.alt ihs
  | star r ih =>
    exact fun before rest _ => mem_repeated_iff ih rest.length before rest (Nat.le_refl _)

/-- Something is found at a position exactly if a part of the word that begins there is
matched. -/
theorem ends_nonempty_iff (r : Regex α) (before rest : List α) :
    (!(ends r (before, rest)).isEmpty) = true ↔
      ∃ mid post, rest = mid ++ post ∧ Matches r before.reverse mid post := by
  rw [Bool.not_eq_true', List.isEmpty_eq_false_iff_exists_mem]
  constructor
  · rintro ⟨y, hy⟩
    obtain ⟨mid, post, hrest, -, h⟩ := (finds_ends r before rest y).mp hy
    exact ⟨mid, post, hrest, h⟩
  · rintro ⟨mid, post, hrest, h⟩
    exact ⟨_, (finds_ends r before rest _).mpr ⟨mid, post, hrest, rfl, h⟩⟩

theorem searchFrom_iff (r : Regex α) (before rest : List α) :
    searchFrom r before rest = true ↔
      ∃ u mid post, rest = u ++ mid ++ post ∧ Matches r (before.reverse ++ u) mid post := by
  induction rest generalizing before with
  | nil =>
    rw [searchFrom, ends_nonempty_iff]
    constructor
    · rintro ⟨mid, post, hrest, h⟩
      exact ⟨[], mid, post, hrest, by rwa [List.append_nil]⟩
    · rintro ⟨u, mid, post, hrest, h⟩
      obtain ⟨hum, rfl⟩ := List.append_eq_nil_iff.mp hrest.symm
      obtain ⟨rfl, rfl⟩ := List.append_eq_nil_iff.mp hum
      exact ⟨[], [], rfl, by rwa [List.append_nil] at h⟩
  | cons c rest ih =>
    rw [searchFrom, Bool.or_eq_true, ends_nonempty_iff, ih]
    constructor
    · rintro (⟨mid, post, hrest, h⟩ | ⟨u, mid, post, rfl, h⟩)
      · exact ⟨[], mid, post, hrest, by rwa [List.append_nil]⟩
      · refine ⟨c :: u, mid, post, rfl, ?_⟩
        rwa [List.reverse_cons, List.append_assoc] at h
    · rintro ⟨u, mid, post, hrest, h⟩
      rcases u with _ | ⟨d, u⟩
      · exact .inl ⟨mid, post, hrest, by rwa [List.append_nil] at h⟩
      · obtain ⟨rfl, rfl⟩ := List.cons.inj hrest
        refine .inr ⟨u, mid, post, rfl, ?_⟩
        rwa [List.reverse_cons, List.append_assoc]

/-- **A search returns** exactly if some part of the word is matched. -/
theorem search_iff (r : Regex α) (w : List α) :
    search r w = true ↔ ∃ pre mid post, w = pre ++ mid ++ post ∧ Matches r pre mid post :=
  searchFrom_iff r [] w

/-- The expressions of a sequence match one after the other. -/
theorem Matches.seqs_cons {rs : List (Regex α)} {u v : List α} (hr : Matches r pre u (v ++ post))
    (hs : Matches (seqs rs) (pre ++ u) v post) : Matches (seqs (r :: rs)) pre (u ++ v) post := by
  rcases rs with _ | ⟨r', rs⟩
  · cases hs
    rw [List.append_nil]
    exact hr
  · exact .seq hr hs

/-! ### Words changed letter by letter -/

/-- The expression does not tell a letter from one it is related to. -/
def Respects (R : α → α → Prop) : Regex α → Prop
  | .letter p => ∀ x y, R x y → p x = true → p y = true
  | .look q => ∀ x x' y y', Option.Rel R x x' → Option.Rel R y y' → q x y = true → q x' y' = true
  | .seq r s => Respects R r ∧ Respects R s
  | .alt r s => Respects R r ∧ Respects R s
  | .star r => Respects R r

theorem respects_seqs {R : α → α → Prop} {rs : List (Regex α)} (h : ∀ r ∈ rs, r.Respects R) :
    (seqs rs).Respects R := by
  induction rs with
  | nil => exact fun _ _ _ _ _ _ _ => rfl
  | cons r rs ih =>
    obtain ⟨hr, hrs⟩ := List.forall_mem_cons.mp h
    rcases rs with _ | ⟨r', rs⟩
    · exact hr
    · exact ⟨hr, ih hrs⟩

theorem respects_alts {R : α → α → Prop} {rs : List (Regex α)} (h : ∀ r ∈ rs, r.Respects R) :
    (alts rs).Respects R := by
  induction rs with
  | nil => exact fun _ _ _ _ _ _ hq => hq
  | cons r rs ih =>
    obtain ⟨hr, hrs⟩ := List.forall_mem_cons.mp h
    rcases rs with _ | ⟨r', rs⟩
    · exact hr
    · exact ⟨hr, ih hrs⟩

theorem respects_plus {R : α → α → Prop} (h : r.Respects R) : (plus r).Respects R := ⟨h, h⟩

theorem forall₂_append_left {R : α → α → Prop} {u v w : List α} (h : List.Forall₂ R (u ++ v) w) :
    ∃ u' v', w = u' ++ v' ∧ List.Forall₂ R u u' ∧ List.Forall₂ R v v' := by
  induction u generalizing w with
  | nil => exact ⟨[], w, rfl, .nil, h⟩
  | cons x u ih =>
    rcases h with _ | ⟨hx, h⟩
    obtain ⟨u', v', rfl, hu, hv⟩ := ih h
    exact ⟨_ :: u', v', rfl, .cons hx hu, hv⟩

theorem rel_head? {R : α → α → Prop} {w w' : List α} (h : List.Forall₂ R w w') :
    Option.Rel R w.head? w'.head? := by
  rcases h with _ | ⟨hx, -⟩
  · exact .none
  · exact .some hx

theorem rel_getLast? {R : α → α → Prop} {w w' : List α} (h : List.Forall₂ R w w') :
    Option.Rel R w.getLast? w'.getLast? := by
  rw [← List.head?_reverse, ← List.head?_reverse]
  exact rel_head? (List.rel_reverse h)

/-- **A match survives a change of letters** that the expression does not tell apart. -/
theorem Matches.forall₂ {R : α → α → Prop} (h : Matches r pre mid post) (hr : r.Respects R)
    {pre' mid' post' : List α} (hpre : List.Forall₂ R pre pre') (hmid : List.Forall₂ R mid mid')
    (hpost : List.Forall₂ R post post') : Matches r pre' mid' post' := by
  induction h generalizing pre' mid' post' with
  | letter hp =>
    rcases hmid with _ | ⟨hx, hnil⟩
    cases hnil
    exact .letter (hr _ _ hx hp)
  | look hq =>
    cases hmid
    exact .look (hr _ _ _ _ (rel_getLast? hpre) (rel_head? hpost) hq)
  | seq _ _ ihr ihs =>
    obtain ⟨u', v', rfl, hu, hv⟩ := forall₂_append_left hmid
    exact .seq (ihr hr.1 hpre hu (List.rel_append hv hpost))
      (ihs hr.2 (List.rel_append hpre hu) hv hpost)
  | left _ ih => exact .left (ih hr.1 hpre hmid hpost)
  | right _ ih => exact .right (ih hr.2 hpre hmid hpost)
  | nil =>
    cases hmid
    exact .nil
  | cons _ _ ihr ihs =>
    obtain ⟨u', v', rfl, hu, hv⟩ := forall₂_append_left hmid
    exact .cons (ihr hr hpre hu (List.rel_append hv hpost))
      (ihs hr (List.rel_append hpre hu) hv hpost)

theorem search_forall₂ {R : α → α → Prop} (hr : r.Respects R) {w w' : List α}
    (hw : List.Forall₂ R w w') (h : search r w = true) : search r w' = true := by
  obtain ⟨pre, mid, post, rfl, hm⟩ := (search_iff r w).mp h
  obtain ⟨t, post', rfl, ht, hpost⟩ := forall₂_append_left hw
  obtain ⟨pre', mid', rfl, hpre, hmid⟩ := forall₂_append_left ht
  exact (search_iff r _).mpr ⟨pre', mid', post', rfl, hm.forall₂ hr hpre hmid hpost⟩

/-! ### Words with a continuation -/

/-- **A match that does not reach the end** does not see what is put there. -/
theorem Matches.append (h : Matches r pre mid post) (hpost : post ≠ []) (w : List α) :
    Matches r pre mid (post ++ w) := by
  induction h with
  | letter hp => exact .letter hp
  | look hq =>
    refine .look ?_
    rwa [List.head?_append_of_ne_nil _ hpost]
  | seq _ _ ihr ihs =>
    refine .seq ?_ (ihs hpost)
    rw [← List.append_assoc]
    exact ihr (List.append_ne_nil_of_right_ne_nil _ hpost)
  | left _ ih => exact .left (ih hpost)
  | right _ ih => exact .right (ih hpost)
  | nil => exact .nil
  | cons _ _ ihr ihs =>
    refine .cons ?_ (ihs hpost)
    rw [← List.append_assoc]
    exact ihr (List.append_ne_nil_of_right_ne_nil _ hpost)

theorem Matches.search_append {x : α} {w : List α} (h : Matches r pre mid post)
    (hw : w ++ [x] = pre ++ mid ++ post) (hpost : post ≠ []) (w' : List α) :
    search r (w ++ x :: w') = true := by
  refine (search_iff r _).mpr ⟨pre, mid, post ++ w', ?_, h.append hpost w'⟩
  rw [← List.append_assoc, ← hw]
  simp

/-- The tests that hold at the end of a word hold before the letter as well. -/
def PassesEnd (x : α) : Regex α → Prop
  | .letter _ => True
  | .look q => ∀ y, q y none = true → q y (some x) = true
  | .seq r s => PassesEnd x r ∧ PassesEnd x s
  | .alt r s => PassesEnd x r ∧ PassesEnd x s
  | .star r => PassesEnd x r

theorem passesEnd_seqs {x : α} {rs : List (Regex α)} (h : ∀ r ∈ rs, r.PassesEnd x) :
    (seqs rs).PassesEnd x := by
  induction rs with
  | nil => exact fun _ _ => rfl
  | cons r rs ih =>
    obtain ⟨hr, hrs⟩ := List.forall_mem_cons.mp h
    rcases rs with _ | ⟨r', rs⟩
    · exact hr
    · exact ⟨hr, ih hrs⟩

theorem passesEnd_alts {x : α} {rs : List (Regex α)} (h : ∀ r ∈ rs, r.PassesEnd x) :
    (alts rs).PassesEnd x := by
  induction rs with
  | nil => exact fun _ hq => hq
  | cons r rs ih =>
    obtain ⟨hr, hrs⟩ := List.forall_mem_cons.mp h
    rcases rs with _ | ⟨r', rs⟩
    · exact hr
    · exact ⟨hr, ih hrs⟩

/-- **A match survives a continuation** that begins with a letter like the end of the word. -/
theorem Matches.append_cons {x : α} (h : Matches r pre mid post) (hr : r.PassesEnd x)
    (w : List α) : Matches r pre mid (post ++ x :: w) := by
  induction h with
  | letter hp => exact .letter hp
  | @look q pre post hq =>
    refine .look ?_
    rcases post with _ | ⟨y, post⟩
    · exact hr _ hq
    · exact hq
  | seq _ _ ihr ihs =>
    refine .seq ?_ (ihs hr.2)
    rw [← List.append_assoc]
    exact ihr hr.1
  | left _ ih => exact .left (ih hr.1)
  | right _ ih => exact .right (ih hr.2)
  | nil => exact .nil
  | cons _ _ ihr ihs =>
    refine .cons ?_ (ihs hr)
    rw [← List.append_assoc]
    exact ihr hr

theorem search_append_cons {x : α} (hr : r.PassesEnd x) {w : List α} (h : search r w = true)
    (w' : List α) : search r (w ++ x :: w') = true := by
  obtain ⟨pre, mid, post, rfl, hm⟩ := (search_iff r w).mp h
  refine (search_iff r _).mpr ⟨pre, mid, post ++ x :: w', ?_, hm.append_cons hr w'⟩
  rw [← List.append_assoc]

/-! ### The last letter of a match -/

/-- Every match has a letter. -/
def Consumes : Regex α → Prop
  | .letter _ => True
  | .look _ => False
  | .seq r s => Consumes r ∨ Consumes s
  | .alt r s => Consumes r ∧ Consumes s
  | .star _ => False

/-- No match ends with the letter. -/
def NeverLast (x : α) : Regex α → Prop
  | .letter p => p x = false
  | .look _ => True
  | .seq r s => NeverLast x s ∧ (Consumes s ∨ NeverLast x r)
  | .alt r s => NeverLast x r ∧ NeverLast x s
  | .star r => NeverLast x r

theorem consumes_seqs {rs : List (Regex α)} (hr : r ∈ rs) (h : r.Consumes) :
    (seqs rs).Consumes := by
  induction rs with
  | nil => exact absurd hr List.not_mem_nil
  | cons r' rs ih =>
    rcases rs with _ | ⟨r'', rs⟩
    · obtain rfl := List.mem_singleton.mp hr
      exact h
    · rcases List.mem_cons.mp hr with rfl | hr
      · exact .inl h
      · exact .inr (ih hr)

theorem neverLast_seqs {x : α} {rs : List (Regex α)} (h : ∀ r ∈ rs, r.NeverLast x) :
    (seqs rs).NeverLast x := by
  induction rs with
  | nil => exact trivial
  | cons r rs ih =>
    obtain ⟨hr, hrs⟩ := List.forall_mem_cons.mp h
    rcases rs with _ | ⟨r', rs⟩
    · exact hr
    · exact ⟨ih hrs, .inr hr⟩

/-- What ends with a match that has a letter ends with the last letter of this one. -/
theorem neverLast_seqs_concat {x : α} (hc : r.Consumes) (hr : r.NeverLast x)
    (rs : List (Regex α)) : (seqs (rs ++ [r])).NeverLast x := by
  induction rs with
  | nil => exact hr
  | cons r' rs ih =>
    have hrest : (seqs (rs ++ [r])).Consumes :=
      consumes_seqs (List.mem_append_right _ (List.mem_singleton_self _)) hc
    rcases rs with _ | ⟨r'', rs⟩
    · exact ⟨ih, .inl hrest⟩
    · exact ⟨ih, .inl hrest⟩

theorem consumes_alts {rs : List (Regex α)} (h : ∀ r ∈ rs, r.Consumes) :
    rs ≠ [] → (alts rs).Consumes := by
  induction rs with
  | nil => exact fun hne => absurd rfl hne
  | cons r rs ih =>
    obtain ⟨hr, hrs⟩ := List.forall_mem_cons.mp h
    rcases rs with _ | ⟨r', rs⟩
    · exact fun _ => hr
    · exact fun _ => ⟨hr, ih hrs (List.cons_ne_nil _ _)⟩

theorem neverLast_alts {x : α} {rs : List (Regex α)} (h : ∀ r ∈ rs, r.NeverLast x) :
    (alts rs).NeverLast x := by
  induction rs with
  | nil => exact trivial
  | cons r rs ih =>
    obtain ⟨hr, hrs⟩ := List.forall_mem_cons.mp h
    rcases rs with _ | ⟨r', rs⟩
    · exact hr
    · exact ⟨hr, ih hrs⟩

theorem Matches.ne_nil (h : Matches r pre mid post) (hr : r.Consumes) : mid ≠ [] := by
  induction h with
  | letter => exact List.cons_ne_nil _ _
  | look => exact hr.elim
  | seq _ _ ihr ihs =>
    rcases hr with hr | hr
    · exact List.append_ne_nil_of_left_ne_nil (ihr hr) _
    · exact List.append_ne_nil_of_right_ne_nil _ (ihs hr)
  | left _ ih => exact ih hr.1
  | right _ ih => exact ih hr.2
  | nil => exact hr.elim
  | cons => exact hr.elim

theorem Matches.getLast?_ne {x : α} (h : Matches r pre mid post) (hr : r.NeverLast x) :
    mid.getLast? ≠ some x := by
  induction h with
  | @letter p pre y post hp =>
    intro heq
    have hy : y = x := Option.some.inj heq
    have hfalse : p x = false := hr
    rw [hy, hfalse] at hp
    exact Bool.false_ne_true hp
  | look => nofun
  | @seq r s pre u v post _ hs ihr ihs =>
    rw [List.getLast?_append]
    rcases v.eq_nil_or_concat with rfl | ⟨t, y, rfl⟩
    · exact ihr (hr.2.resolve_left fun hc => hs.ne_nil hc rfl)
    · rw [List.concat_eq_append, List.getLast?_concat] at ihs ⊢
      exact ihs hr.1
  | left _ ih => exact ih hr.1
  | right _ ih => exact ih hr.2
  | nil => nofun
  | @cons r pre u v post _ _ ihr ihs =>
    rw [List.getLast?_append]
    rcases v.eq_nil_or_concat with rfl | ⟨t, y, rfl⟩
    · exact ihr hr
    · rw [List.concat_eq_append, List.getLast?_concat] at ihs ⊢
      exact ihs hr

/-- **A match that cannot take the last letter of a word** survives all continuations. -/
theorem search_append_of_neverLast {x : α} (hc : r.Consumes) (hr : r.NeverLast x) {w : List α}
    (h : search r (w ++ [x]) = true) (w' : List α) : search r (w ++ x :: w') = true := by
  obtain ⟨pre, mid, post, hw, hm⟩ := (search_iff r _).mp h
  have hpost : post ≠ [] := by
    rintro rfl
    have hlast := congrArg List.getLast? hw
    rcases mid.eq_nil_or_concat with rfl | ⟨t, y, rfl⟩
    · exact hm.ne_nil hc rfl
    · have hne := hm.getLast?_ne hr
      rw [List.concat_eq_append, List.append_nil, ← List.append_assoc, List.getLast?_concat,
        List.getLast?_concat] at hlast
      rw [List.concat_eq_append, List.getLast?_concat, ← hlast] at hne
      exact hne rfl
  exact hm.search_append hw hpost w'

/-- What a star of letters matches. -/
theorem matches_star_letter_iff {p : α → Bool} :
    Matches (.star (.letter p)) pre mid post ↔ ∀ x ∈ mid, p x = true := by
  constructor
  · intro h
    generalize hstar : Regex.star (.letter p) = t at h
    induction h with
    | nil => exact List.forall_mem_nil _
    | cons hu _ _ ihv =>
      obtain rfl := Regex.star.inj hstar
      rcases hu with ⟨hp⟩
      exact List.forall_mem_cons.mpr ⟨hp, ihv rfl⟩
    | _ => cases hstar
  · intro h
    induction mid generalizing pre with
    | nil => exact .nil
    | cons x mid ih =>
      obtain ⟨hx, hmid⟩ := List.forall_mem_cons.mp h
      exact .cons (u := [x]) (.letter hx) (ih hmid)

end Regex

end Words
