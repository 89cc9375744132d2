import LfWaap.Stats.Roc

/-!
# The best point of a curve below a bound

A point of a receiver operating characteristic is looked for that has as many positive values
as possible, and not more negative ones than a bound allows: the last point before the first
one beyond the bound (`Stats.lastWhile`). Among all points of the curve this is the best
threshold there is. Among the points that are kept it is not if the point found first was left
out and the curve rises there (`Stats.lastWhile_dropFrom`); which values this happens at is
seen from the samples (`Stats.skips_binaryCurve_iff`).
-/

namespace Stats

variable {α : Type} [LinearOrder α]

/-! ### A search among the points -/

omit [LinearOrder α] in
/-- The last point, from `a` on, before the first one that a condition does not hold of. -/
def lastWhile (q : RocPoint α → Bool) (a : RocPoint α) : List (RocPoint α) → RocPoint α
  | [] => a
  | b :: pts => if q b then lastWhile q b pts else a

omit [LinearOrder α] in
/-- **A point is skipped**: it is the last one of which a condition holds, it is left out, and
it has positive values that the point before it has not. -/
def Skips (q : RocPoint α → Bool) (pts : List (RocPoint α)) : Prop :=
  ∃ a b c, [a, b, c] <:+: pts ∧ IsIntermediate a b c ∧ q b = true ∧ q c = false ∧ a.tps ≠ b.tps

section

variable {q : RocPoint α → Bool} {a b c k : RocPoint α} {pts : List (RocPoint α)}

omit [LinearOrder α]

/-- A condition on the negative values that fails at a point fails at all later ones. -/
theorem Counting.forall_false (h : Counting (b :: pts))
    (hq : ∀ b c : RocPoint α, b.fps ≤ c.fps → q c = true → q b = true) (hb : q b = false) :
    ∀ c ∈ b :: pts, q c = false := by
  intro c hc
  rcases List.mem_cons.mp hc with rfl | hc
  · exact hb
  · have hle := ((List.pairwise_cons.mp h).1 c hc).1
    exact Bool.eq_false_of_not_eq_true fun hqc =>
      Bool.false_ne_true (hb.symm.trans (hq b c hle hqc))

/-- The search ends at once where the condition holds of no point. -/
theorem lastWhile_of_forall (h : ∀ b ∈ pts, q b = false) : lastWhile q a pts = a := by
  rcases pts with _ | ⟨b, pts⟩
  · rfl
  · rw [lastWhile, h b List.mem_cons_self, if_neg Bool.false_ne_true]

theorem skips_cons_iff {pts : List (RocPoint α)} :
    Skips q (a :: b :: c :: pts) ↔
      (IsIntermediate a b c ∧ q b = true ∧ q c = false ∧ a.tps ≠ b.tps) ∨
        Skips q (b :: c :: pts) := by
  constructor
  · rintro ⟨x, y, z, hinf, h⟩
    rcases List.infix_cons_iff.mp hinf with hpre | hinf
    · obtain ⟨hx, hpre'⟩ := List.cons_prefix_cons.mp hpre
      obtain ⟨hy, hpre''⟩ := List.cons_prefix_cons.mp hpre'
      obtain ⟨hz, -⟩ := List.cons_prefix_cons.mp hpre''
      rw [hx, hy, hz] at h
      exact Or.inl h
    · exact Or.inr ⟨x, y, z, hinf, h⟩
  · rintro (h | ⟨x, y, z, hinf, h⟩)
    · exact ⟨a, b, c, List.infix_append [] [a, b, c] pts, h⟩
    · exact ⟨x, y, z, List.infix_cons_iff.mpr (Or.inr hinf), h⟩

/-- Of two points none is skipped. -/
theorem not_skips_of_length_le (h : pts.length ≤ 2) : ¬ Skips q pts := by
  rintro ⟨x, y, z, hinf, -⟩
  have hlen : 3 ≤ pts.length := hinf.length_le
  omega

/-- Nothing is skipped where the condition holds of no later point. -/
theorem not_skips_of_forall (h : ∀ b ∈ pts, q b = false) : ¬ Skips q (a :: pts) := by
  rintro ⟨x, y, z, hinf, -, hy, -⟩
  have hmem : y ∈ pts := by
    rcases List.infix_cons_iff.mp hinf with hpre | hinf
    · exact (List.cons_prefix_cons.mp hpre).2.subset List.mem_cons_self
    · exact hinf.subset (List.mem_cons_of_mem _ List.mem_cons_self)
  rw [h y hmem] at hy
  exact Bool.false_ne_true hy

theorem exists_head?_cons {P : RocPoint α → Prop} : (∃ c ∈ (b :: pts).head?, P c) ↔ P b := by
  simp

/-- The search among the points that are kept, from an earlier point `k` on: it falls behind
as long as points are left out and the next step has positive values. -/
theorem lastWhile_dropFrom_iff (h : Counting (a :: pts))
    (hq : ∀ b c : RocPoint α, b.fps ≤ c.fps → q c = true → q b = true) (hk : k.tps ≤ a.tps)
    (hnext : k.tps ≠ a.tps → ∃ c ∈ pts.head?, a.tps < c.tps) :
    (lastWhile q k (dropFrom a pts)).tps = (lastWhile q a pts).tps ↔
      ¬ Skips q (a :: pts) ∧ (k.tps = a.tps ∨ ∃ c ∈ pts.head?, q c = true) := by
  induction pts generalizing a k with
  | nil =>
    have heq : k.tps = a.tps := by
      by_contra hne
      obtain ⟨c, hnone, -⟩ := hnext hne
      cases hnone
    exact iff_of_true heq ⟨not_skips_of_length_le (Nat.le_succ _), Or.inl heq⟩
  | cons b pts ih =>
    rw [exists_head?_cons]
    cases hb : q b with
    | false =>
      -- no later point can be reached
      have hnone := h.tail.forall_false hq hb
      rw [lastWhile_of_forall hnone,
        lastWhile_of_forall fun c hc => hnone c ((dropFrom_sublist a _).subset hc),
        or_iff_left Bool.false_ne_true, and_iff_right (not_skips_of_forall hnone)]
    | true =>
      rw [and_iff_left (Or.inr rfl), lastWhile, if_pos hb]
      rcases pts with _ | ⟨c, pts⟩
      · -- the last point is kept
        have hlast : lastWhile q k [b] = b := if_pos hb
        exact iff_of_true (congrArg RocPoint.tps hlast) (not_skips_of_length_le (le_refl _))
      · have htps : a.tps ≤ b.tps := ((List.pairwise_cons.mp h).1 b List.mem_cons_self).2
        rw [dropFrom, skips_cons_iff]
        split_ifs with hmid
        · -- the point is left out: the search goes on from the same point
          have heq_iff : k.tps = b.tps ↔ a.tps = b.tps := by
            constructor
            · intro heq
              exact le_antisymm htps (heq ▸ hk)
            · intro heq
              by_contra hne
              have hlt := exists_head?_cons.mp (hnext fun hka => hne (hka.trans heq))
              omega
          have hnext' : k.tps ≠ b.tps → ∃ d ∈ (c :: pts).head?, b.tps < d.tps := by
            intro hne
            have hne' : a.tps ≠ b.tps := fun heq => hne (heq_iff.mpr heq)
            have hstep := hmid.2
            exact exists_head?_cons.mpr (by omega)
          have hhere : (IsIntermediate a b c ∧ q b = true ∧ q c = false ∧ a.tps ≠ b.tps) ↔
              ¬ (a.tps = b.tps ∨ q c = true) := by
            rw [not_or, Bool.not_eq_true]
            exact ⟨fun h => ⟨h.2.2.2, h.2.2.1⟩, fun h => ⟨hmid, hb, h.2, h.1⟩⟩
          rw [ih h.tail (hk.trans htps) hnext', heq_iff, exists_head?_cons, not_or, hhere, not_not,
            and_comm]
        · rw [lastWhile, if_pos hb, ih h.tail (le_refl _) fun hne => absurd rfl hne, not_or,
            and_iff_left (Or.inl rfl)]
          exact (and_iff_right fun hhere => hmid hhere.1).symm

/-- **A search among the points that are kept** finds as many positive values as one among all
points, unless a point is skipped. -/
theorem lastWhile_dropFrom (h : Counting (a :: pts))
    (hq : ∀ b c : RocPoint α, b.fps ≤ c.fps → q c = true → q b = true) :
    (lastWhile q a (dropFrom a pts)).tps = (lastWhile q a pts).tps ↔ ¬ Skips q (a :: pts) := by
  rw [lastWhile_dropFrom_iff h hq (le_refl _) fun hne => absurd rfl hne]
  exact and_iff_left (Or.inl rfl)

/-- The same, from a first point on that is kept in front of the curve. -/
theorem lastWhile_dropIntermediate (h : Counting pts)
    (hq : ∀ b c : RocPoint α, b.fps ≤ c.fps → q c = true → q b = true) :
    (lastWhile q k (dropIntermediate pts)).tps = (lastWhile q k pts).tps ↔ ¬ Skips q pts := by
  rcases pts with _ | ⟨a, pts⟩
  · refine iff_of_true rfl ?_
    rintro ⟨x, y, z, hinf, -⟩
    cases List.infix_nil.mp hinf
  · rw [dropIntermediate, lastWhile, lastWhile]
    cases ha : q a with
    | true => exact lastWhile_dropFrom h hq
    | false =>
      have hnone := h.forall_false hq ha
      exact iff_of_true rfl (not_skips_of_forall fun b hb => hnone b (List.mem_cons_of_mem _ hb))

/-- What is found is one of the points, and the condition holds of it. -/
theorem lastWhile_mem (pts : List (RocPoint α)) (ha : q a = true) :
    lastWhile q a pts ∈ a :: pts ∧ q (lastWhile q a pts) = true := by
  induction pts generalizing a with
  | nil => exact ⟨List.mem_cons_self, ha⟩
  | cons b pts ih =>
    rw [lastWhile]
    split_ifs with hb
    · exact ⟨List.mem_cons_of_mem _ (ih hb).1, (ih hb).2⟩
    · exact ⟨List.mem_cons_self, ha⟩

/-- The indices at which a condition holds: the first one, and those of the rest. -/
theorem filter_range_succ (f : ℕ → Bool) (n : ℕ) :
    (List.range (n + 1)).filter f =
      (if f 0 = true then [0] else []) ++
        ((List.range n).filter fun i => f (i + 1)).map Nat.succ := by
  rw [List.range_succ_eq_map, List.filter_cons, List.filter_map]
  split_ifs
  · rfl
  · rfl

/-- **The last index** at which the condition holds is that of the point found. -/
theorem getElem?_last_index (pts : List (RocPoint α)) {f : ℕ → Bool}
    (h : (a :: pts).Pairwise fun b c => q c = true → q b = true) (ha : q a = true)
    (hf : ∀ i b, (a :: pts)[i]? = some b → f i = q b) :
    (a :: pts)[((List.range (a :: pts).length).filter f).getLastD 0]? =
      some (lastWhile q a pts) := by
  induction pts generalizing a f with
  | nil =>
    have hzero : f 0 = true := (hf 0 a rfl).trans ha
    rw [List.length_singleton, filter_range_succ, if_pos hzero]
    rfl
  | cons b pts ih =>
    obtain ⟨hab, hrest⟩ := List.pairwise_cons.mp h
    have hzero : f 0 = true := (hf 0 a rfl).trans ha
    rw [List.length_cons, filter_range_succ, if_pos hzero, lastWhile]
    split_ifs with hb
    · have hlast := ih (f := fun i => f (i + 1)) hrest hb fun i c hc => hf (i + 1) c hc
      rw [← hlast]
      generalize hE : (List.range (b :: pts).length).filter (fun i => f (i + 1)) = E
      rcases E.eq_nil_or_concat' with rfl | ⟨E', i, rfl⟩
      · -- the condition holds of the second point
        have hmem : 0 ∈ (List.range (b :: pts).length).filter fun i => f (i + 1) :=
          List.mem_filter.mpr ⟨List.mem_range.mpr (Nat.succ_pos _), (hf 1 b rfl).trans hb⟩
        rw [hE] at hmem
        cases hmem
      · rw [List.map_append, ← List.append_assoc, List.map_singleton, List.getLastD_eq_getLast?,
          List.getLastD_eq_getLast?, List.getLast?_concat, List.getLast?_concat]
        rfl
    · have hnone : (List.range (b :: pts).length).filter (fun i => f (i + 1)) = [] := by
        refine List.filter_eq_nil_iff.mpr fun i hi => ?_
        have hlt := List.mem_range.mp hi
        rw [hf (i + 1) _ (List.getElem?_eq_getElem hlt)]
        rcases i with _ | i
        · exact hb
        · intro hc
          exact hb ((List.pairwise_cons.mp hrest).1 _ (List.getElem_mem _) hc)
      rw [hnone]
      rfl

/-- No point of which the condition holds has more positive values. -/
theorem tps_le_lastWhile (h : Counting (a :: pts))
    (hq : ∀ b c : RocPoint α, b.fps ≤ c.fps → q c = true → q b = true) (hb : b ∈ a :: pts)
    (hqb : q b = true) : b.tps ≤ (lastWhile q a pts).tps := by
  induction pts generalizing a b with
  | nil =>
    obtain rfl := List.mem_singleton.mp hb
    exact le_refl _
  | cons c pts ih =>
    have hac := ((List.pairwise_cons.mp h).1 c List.mem_cons_self).2
    rw [lastWhile]
    split_ifs with hc
    · rcases List.mem_cons.mp hb with rfl | hb
      · exact hac.trans (ih h.tail List.mem_cons_self hc)
      · exact ih h.tail hb hqb
    · rcases List.mem_cons.mp hb with rfl | hb
      · exact le_refl _
      · -- the condition fails at all later points
        have hfail := h.tail.forall_false hq (Bool.eq_false_of_not_eq_true hc) b hb
        exact absurd (hfail.symm.trans hqb) Bool.false_ne_true

end

/-! ### The best threshold below a bound -/

section

variable {neg pos vs ts : List α} {t t' : α} {e : ℕ → Bool}

/-- Two values that occur, with none between them. -/
def Adjacent (vs : List α) (t t' : α) : Prop :=
  t ∈ vs ∧ t' ∈ vs ∧ t' < t ∧ ∀ v ∈ vs, v ≤ t' ∨ t ≤ v

/-- In a list that falls, adjacent values stand next to each other. -/
theorem infix_iff_adjacent (hs : ts.Pairwise (· > ·)) : [t, t'] <:+: ts ↔ Adjacent ts t t' := by
  constructor
  · rintro ⟨l, r, rfl⟩
    rw [List.append_assoc] at hs ⊢
    obtain ⟨-, hr, hl⟩ := List.pairwise_append.mp hs
    obtain ⟨ht, hr⟩ := List.pairwise_cons.mp hr
    have ht' := (List.pairwise_cons.mp hr).1
    refine ⟨by simp, by simp, ht t' List.mem_cons_self, fun v hv => ?_⟩
    rcases List.mem_append.mp hv with hv | hv
    · exact Or.inr (hl v hv t List.mem_cons_self).le
    · rcases List.mem_cons.mp hv with rfl | hv
      · exact Or.inr (le_refl _)
      · rcases List.mem_cons.mp hv with rfl | hv
        · exact Or.inl (le_refl _)
        · exact Or.inl (ht' v hv).le
  · rintro ⟨hmem, hmem', hlt, hgap⟩
    obtain ⟨l, r, rfl⟩ := List.append_of_mem hmem
    obtain ⟨-, hr, hl⟩ := List.pairwise_append.mp hs
    obtain ⟨ht, hr⟩ := List.pairwise_cons.mp hr
    have hin : t' ∈ r := by
      rcases List.mem_append.mp hmem' with h | h
      · exact absurd (hl t' h t List.mem_cons_self) (lt_asymm hlt)
      · rcases List.mem_cons.mp h with rfl | h
        · exact absurd hlt (lt_irrefl _)
        · exact h
    rcases r with _ | ⟨w, r⟩
    · cases hin
    · have hw : w < t := ht w List.mem_cons_self
      have hwt : w ≤ t' := by
        rcases hgap w (by simp) with h | h
        · exact h
        · exact absurd hw (not_lt.mpr h)
      obtain rfl : t' = w := by
        rcases List.mem_cons.mp hin with h | h
        · exact h
        · exact absurd ((List.pairwise_cons.mp hr).1 t' h) (not_lt.mpr hwt)
      exact ⟨l, r, by simp⟩

/-- If some value is above two adjacent ones, there is one right above them. -/
theorem exists_infix_of_adjacent (hs : ts.Pairwise (· > ·)) (h : Adjacent ts t t') {v : α}
    (hv : v ∈ ts) (hlt : t < v) : ∃ s, [s, t, t'] <:+: ts := by
  obtain ⟨l, r, heq⟩ := (infix_iff_adjacent hs).mpr h
  -- the value stands in front of the two
  have hvl : v ∈ l := by
    rw [← heq, List.append_assoc] at hv hs
    rcases List.mem_append.mp hv with hv | hv
    · exact hv
    · rcases List.mem_cons.mp hv with rfl | hv
      · exact absurd hlt (lt_irrefl _)
      · have hr := (List.pairwise_append.mp hs).2.1
        exact absurd ((List.pairwise_cons.mp hr).1 v hv) (lt_asymm hlt)
  obtain ⟨l', s, rfl⟩ := List.eq_nil_or_concat' l |>.resolve_left (List.ne_nil_of_mem hvl)
  exact ⟨s, l', r, by simpa using heq⟩

/-- Where the order is turned round, the lower one of two adjacent values comes first. -/
theorem adjacent_map_iff {β : Type} [LinearOrder β] {φ : β → α} (hφ : StrictAnti φ) {vs : List β}
    {x x' : β} : Adjacent (vs.map φ) (φ x) (φ x') ↔ Adjacent vs x' x := by
  rw [Adjacent, Adjacent, List.mem_map_of_injective hφ.injective,
    List.mem_map_of_injective hφ.injective, hφ.lt_iff_gt, List.forall_mem_map]
  simp only [hφ.le_iff_ge]
  constructor
  · rintro ⟨hx, hx', hlt, hgap⟩
    exact ⟨hx', hx, hlt, fun v hv => (hgap v hv).symm⟩
  · rintro ⟨hx', hx, hlt, hgap⟩
    exact ⟨hx, hx', hlt, fun v hv => (hgap v hv).symm⟩

theorem atLeast_map {β : Type} [LinearOrder β] {φ : β → α} (hφ : StrictAnti φ) (vs : List β)
    (x : β) : atLeast (φ x) (vs.map φ) = vs.countP fun v => decide (v ≤ x) := by
  rw [atLeast, List.countP_map]
  refine List.countP_congr fun v _ => ?_
  show decide (φ x ≤ φ v) = true ↔ _
  rw [decide_eq_true_iff, decide_eq_true_iff, hφ.le_iff_ge]

theorem adjacent_distinctScores_iff :
    Adjacent (distinctScores neg pos) t t' ↔ Adjacent (neg ++ pos) t t' := by
  rw [Adjacent, Adjacent]
  simp only [mem_distinctScores, List.mem_append]

/-- Three scores that follow one another are adjacent. -/
theorem adjacent_of_neighbours {s : α} (h : [s, t, t'] <:+: distinctScores neg pos) :
    Adjacent (neg ++ pos) s t ∧ Adjacent (neg ++ pos) t t' := by
  have hadj : ∀ u v, [u, v] <:+: [s, t, t'] → Adjacent (neg ++ pos) u v := fun u v huv =>
    adjacent_distinctScores_iff.mp
      ((infix_iff_adjacent (pairwise_distinctScores neg pos)).mp (huv.trans h))
  exact ⟨hadj s t ⟨[], [t'], rfl⟩, hadj t t' ⟨[s], [], rfl⟩⟩

/-- The point of a value is intermediate where it and the next one occur equally often. -/
theorem isIntermediate_rocPoint_iff {s : α} (hst : Adjacent (neg ++ pos) s t)
    (htt' : Adjacent (neg ++ pos) t t') :
    IsIntermediate (rocPoint neg pos s) (rocPoint neg pos t) (rocPoint neg pos t') ↔
      neg.count t = neg.count t' ∧ pos.count t = pos.count t' := by
  have hcount : ∀ vs : List α, (∀ v ∈ vs, v ∈ neg ++ pos) →
      (atLeast t vs + atLeast t vs = atLeast s vs + atLeast t' vs ↔ vs.count t = vs.count t') := by
    intro vs hvs
    have hs : above t vs = atLeast s vs :=
      above_eq_atLeast hst.2.2.1 fun v hv => hst.2.2.2 v (hvs v hv)
    have ht : above t' vs = atLeast t vs :=
      above_eq_atLeast htt'.2.2.1 fun v hv => htt'.2.2.2 v (hvs v hv)
    have hadd := above_add_count t vs
    have hadd' := above_add_count t' vs
    omega
  rw [IsIntermediate, ← hcount neg fun v hv => List.mem_append_left _ hv,
    ← hcount pos fun v hv => List.mem_append_right _ hv]
  rfl

/-- **A point of the curve is skipped** where its value is neither the greatest nor the least,
occurs among the positive ones, and the next value occurs equally often in both samples. -/
theorem skips_binaryCurve_iff :
    Skips (fun a => e a.fps) (binaryCurve neg pos) ↔
      ∃ t t', Adjacent (neg ++ pos) t t' ∧ (∃ v ∈ neg ++ pos, t < v) ∧
        neg.count t = neg.count t' ∧ pos.count t = pos.count t' ∧ t ∈ pos ∧
        e (atLeast t neg) = true ∧ e (atLeast t' neg) = false := by
  have hs := pairwise_distinctScores neg pos
  -- the positive values at a point and not at the one before are those equal to its value
  have htps : ∀ s t, Adjacent (neg ++ pos) s t → (atLeast s pos ≠ atLeast t pos ↔ t ∈ pos) := by
    intro s t hst
    have habove : above t pos = atLeast s pos :=
      above_eq_atLeast hst.2.2.1 fun v hv => hst.2.2.2 v (List.mem_append_right _ hv)
    have hadd := above_add_count t pos
    rw [← List.count_pos_iff]
    omega
  constructor
  · rintro ⟨a, b, c, hinf, hmid, hb, hc, hne⟩
    obtain ⟨l, hl, hmap⟩ := List.infix_map_iff.mp hinf
    obtain ⟨s, t, t', rfl⟩ : ∃ s t t', l = [s, t, t'] := by
      have hlen := congrArg List.length hmap
      rw [List.length_map] at hlen
      exact List.length_eq_three.mp hlen.symm
    cases hmap
    obtain ⟨hst, htt'⟩ := adjacent_of_neighbours hl
    obtain ⟨hneg, hpos⟩ := (isIntermediate_rocPoint_iff hst htt').mp hmid
    exact ⟨t, t', htt', ⟨s, hst.1, hst.2.2.1⟩, hneg, hpos, (htps s t hst).mp hne, hb, hc⟩
  · rintro ⟨t, t', htt', ⟨v, hv, hlt⟩, hneg, hpos, hmem, hb, hc⟩
    have hmemv : v ∈ distinctScores neg pos := mem_distinctScores.mpr (List.mem_append.mp hv)
    obtain ⟨s, hinf⟩ := exists_infix_of_adjacent hs (adjacent_distinctScores_iff.mpr htt') hmemv hlt
    have hst := (adjacent_of_neighbours hinf).1
    exact ⟨_, _, _, hinf.map _, (isIntermediate_rocPoint_iff hst htt').mpr ⟨hneg, hpos⟩, hb, hc,
      (htps s t hst).mpr hmem⟩

/-- A threshold has the counts of a value that occurs, or none. -/
theorem exists_rocPoint (neg pos : List α) (t : α) :
    (atLeast t neg = 0 ∧ atLeast t pos = 0) ∨
      ∃ v ∈ distinctScores neg pos,
        atLeast v neg = atLeast t neg ∧ atLeast v pos = atLeast t pos := by
  rcases (distinctScores neg pos).filter (fun v => decide (t ≤ v)) |>.eq_nil_or_concat' with
    hnil | ⟨l, v, hl⟩
  · have hnone : ∀ v, v ∈ neg ∨ v ∈ pos → ¬ t ≤ v := by
      intro v hv hle
      have hmem : v ∈ (distinctScores neg pos).filter (fun v => decide (t ≤ v)) :=
        List.mem_filter.mpr ⟨mem_distinctScores.mpr hv, decide_eq_true hle⟩
      rw [hnil] at hmem
      cases hmem
    refine Or.inl ⟨List.countP_eq_zero.mpr fun v hv => ?_, List.countP_eq_zero.mpr fun v hv => ?_⟩
    · rw [decide_eq_true_iff]
      exact hnone v (Or.inl hv)
    · rw [decide_eq_true_iff]
      exact hnone v (Or.inr hv)
  · -- the least of the values that are not below
    have hfall := (pairwise_distinctScores neg pos).filter fun v => decide (t ≤ v)
    have hmem : v ∈ (distinctScores neg pos).filter (fun v => decide (t ≤ v)) := by
      rw [hl]
      simp
    obtain ⟨hv, hle⟩ := List.mem_filter.mp hmem
    have hleast : ∀ w, w ∈ neg ∨ w ∈ pos → (v ≤ w ↔ t ≤ w) := by
      intro w hw
      refine ⟨(of_decide_eq_true hle).trans, fun htw => ?_⟩
      have hmemw : w ∈ (distinctScores neg pos).filter (fun v => decide (t ≤ v)) :=
        List.mem_filter.mpr ⟨mem_distinctScores.mpr hw, decide_eq_true htw⟩
      rw [hl] at hmemw hfall
      exact le_of_mem_concat hfall hmemw
    refine Or.inr ⟨v, hv, List.countP_congr fun w hw => ?_, List.countP_congr fun w hw => ?_⟩
    · rw [decide_eq_true_iff, decide_eq_true_iff]
      exact hleast w (Or.inl hw)
    · rw [decide_eq_true_iff, decide_eq_true_iff]
      exact hleast w (Or.inr hw)

/-- **The best threshold below a bound** on the negative values is found among the points that
are kept, unless a point is skipped. -/
theorem best_iff (he : ∀ i j, i ≤ j → e j = true → e i = true) (h0 : e 0 = true) (o : α) :
    (∀ t, e (atLeast t neg) = true → atLeast t pos ≤
      (lastWhile (fun a => e a.fps) ⟨o, 0, 0⟩ (dropIntermediate (binaryCurve neg pos))).tps) ↔
        ¬ Skips (fun a => e a.fps) (binaryCurve neg pos) := by
  have hcount : Counting ((⟨o, 0, 0⟩ : RocPoint α) :: binaryCurve neg pos) :=
    List.pairwise_cons.mpr ⟨fun _ _ => ⟨Nat.zero_le _, Nat.zero_le _⟩,
      counting_rocPoints neg pos (pairwise_distinctScores neg pos)⟩
  have hq : ∀ b c : RocPoint α, b.fps ≤ c.fps → e c.fps = true → e b.fps = true :=
    fun b c => he b.fps c.fps
  rw [← lastWhile_dropIntermediate (k := ⟨o, 0, 0⟩) hcount.tail hq]
  have hmem : ∀ pts : List (RocPoint α), _ := fun pts =>
    lastWhile_mem (q := fun a => e a.fps) (a := ⟨o, 0, 0⟩) pts h0
  obtain ⟨hfull, hefull⟩ := hmem (binaryCurve neg pos)
  obtain ⟨hkept, hekept⟩ := hmem (dropIntermediate (binaryCurve neg pos))
  constructor
  · intro hbest
    refine le_antisymm (tps_le_lastWhile hcount hq ?_ hekept) ?_
    · rcases List.mem_cons.mp hkept with heq | hmem
      · rw [heq]
        exact List.mem_cons_self
      · exact List.mem_cons_of_mem _ ((dropIntermediate_sublist _).subset hmem)
    · rcases List.mem_cons.mp hfull with heq | hmem
      · rw [heq]
        exact Nat.zero_le _
      · obtain ⟨t, -, ht⟩ := List.mem_map.mp hmem
        rw [← ht] at hefull ⊢
        exact hbest t hefull
  · intro heq t ht
    rw [heq]
    rcases exists_rocPoint neg pos t with ⟨-, hpos⟩ | ⟨v, hv, hneg, hpos⟩
    · rw [hpos]
      exact Nat.zero_le _
    · rw [← hneg] at ht
      rw [← hpos]
      exact tps_le_lastWhile hcount hq
        (List.mem_cons_of_mem _ (List.mem_map_of_mem (f := rocPoint neg pos) hv)) ht

end

end Stats
