import LfWaap.Python.Json

/-!
# Reading written tokens back

The tokens of a written document, one by one: a string, an integer, a keyword.
Each is read back from in front of an arbitrary continuation.

* `Python.scanString_written` – a string comes back with its surrogate pairs
  joined (`Python.joinSurrogates`): the writer escapes a text unit by unit, and
  the reader joins two escapes that form a pair, so a high and a low surrogate
  side by side return as the one code point they stand for. Nothing else changes.
* `Python.scanNumber_intText` – an integer comes back as it was. Its end is not
  marked, so what follows must not go on like a number (`Python.Delimited`).
* `Python.scanAtom_of_scanNumber` – a number is not mistaken for a keyword.
-/

namespace Python

/-! ### Surrogate pairs -/

/-- A text with every surrogate pair joined, from left to right. -/
def joinSurrogates : Text → Text
  | [] => []
  | [c] => [c]
  | a :: b :: t =>
    if isHighSurrogate a ∧ isLowSurrogate b then joinPair a b :: joinSurrogates t
    else a :: joinSurrogates (b :: t)

/-- No high surrogate stands directly before a low one. -/
def NoSurrogatePair (t : Text) : Prop :=
  t.IsChain fun a b => ¬(isHighSurrogate a = true ∧ isLowSurrogate b = true)

/-- Texts without surrogate pairs are left alone. -/
theorem joinSurrogates_of_noSurrogatePair {t : Text} (h : NoSurrogatePair t) :
    joinSurrogates t = t := by
  induction t using joinSurrogates.induct with
  | case1 => rfl
  | case2 c => rfl
  | case3 a b t hab _ => exact absurd hab (List.isChain_cons_cons.mp h).1
  | case4 a b t hab ih =>
    rw [joinSurrogates, if_neg hab, ih (List.isChain_cons_cons.mp h).2]

theorem isHighSurrogate_of_ascii {c : CodePoint} (h : IsAscii c) : isHighSurrogate c = false := by
  rw [IsAscii] at h
  simp only [isHighSurrogate, decide_eq_false_iff_not]
  omega

theorem noSurrogatePair_of_ascii {t : Text} (h : AsciiText t) : NoSurrogatePair t := by
  induction t with
  | nil => exact List.IsChain.nil
  | cons a t ih =>
    obtain ⟨ha, ht⟩ := asciiText_cons.mp h
    cases t with
    | nil => exact List.IsChain.singleton a
    | cons b t =>
      refine List.isChain_cons_cons.mpr ⟨fun hab => ?_, ih ht⟩
      rw [isHighSurrogate_of_ascii ha] at hab
      exact absurd hab.1 (by simp)

theorem joinSurrogates_ascii {t : Text} (h : AsciiText t) : joinSurrogates t = t :=
  joinSurrogates_of_noSurrogatePair (noSurrogatePair_of_ascii h)

/-! ### Written text is printable ASCII -/

theorem hexDigit_val {d : ℕ} (h : d < 16) :
    (hexDigit d).val = if d < 10 then 48 + d else 87 + d := by
  unfold hexDigit
  refine Nat.mod_eq_of_lt ?_
  split <;> omega

theorem plainText_hexText (n v : ℕ) : PlainText (hexText n v) := by
  induction n with
  | zero => simp [hexText]
  | succ n ih =>
    rw [hexText, plainText_cons, hexDigit_val (Nat.mod_lt _ (by omega))]
    exact ⟨by split <;> omega, ih⟩

theorem plainText_unitEscape (u : ℕ) : PlainText (unitEscape u) := by
  rw [unitEscape, plainText_cons, plainText_cons]
  exact ⟨by decide, by decide, plainText_hexText 4 u⟩

theorem plain_of_shortEscape? {c e : CodePoint} (h : shortEscape? c = some e) :
    32 ≤ e.val ∧ e.val ≤ 126 := by
  unfold shortEscape? at h
  split_ifs at h <;> (cases h; decide)

theorem plainText_escapeChar (c : CodePoint) : PlainText (escapeChar c) := by
  unfold escapeChar
  split
  · next e he =>
    rw [plainText_cons, plainText_cons]
    exact ⟨by decide, plain_of_shortEscape? he, plainText_nil⟩
  · split_ifs with h₁ h₂
    · exact plainText_cons.mpr ⟨h₁, plainText_nil⟩
    · exact plainText_unitEscape _
    · exact plainText_append.mpr ⟨plainText_unitEscape _, plainText_unitEscape _⟩

theorem plainText_flatMap_escapeChar (s : Text) : PlainText (s.flatMap escapeChar) := by
  induction s with
  | nil => exact plainText_nil
  | cons c s ih => exact plainText_append.mpr ⟨plainText_escapeChar c, ih⟩

theorem plainText_quoteText (s : Text) : PlainText (quoteText s) := by
  rw [quoteText, plainText_cons, plainText_append]
  exact ⟨by decide, plainText_flatMap_escapeChar s, by decide⟩

section

variable [Interpreter]

theorem plainText_floatText (x : PyFloat) : PlainText (floatText x) := by
  match x with
  | .nan => rw [floatText]; decide
  | .inf true => rw [floatText]; decide
  | .inf false => rw [floatText]; decide
  | .finite q => exact Interpreter.floatRepr_plain q

end

/-! ### Reading a string back -/

theorem hexValue?_hexDigit {d : ℕ} (h : d < 16) : hexValue? (hexDigit d) = some d := by
  unfold hexValue?
  rw [hexDigit_val h]
  by_cases hd : d < 10
  · rw [if_pos hd, if_pos ⟨by omega, by omega⟩]
    simp
  · rw [if_neg hd, if_neg (by omega), if_pos ⟨by omega, by omega⟩]
    simp

/-- Four written digits are read back. -/
theorem hex4?_hexText {u : ℕ} (h : u < 0x10000) (r : Text) :
    hex4? (hexText 4 u ++ r) = some (u, r) := by
  have hdig : ∀ d, hexValue? (hexDigit (d % 16)) = some (d % 16) := fun d =>
    hexValue?_hexDigit (Nat.mod_lt _ (by omega))
  simp only [hexText, List.cons_append, List.nil_append, hex4?, hdig, Option.some.injEq,
    Prod.mk.injEq, and_true]
  omega

theorem length_unitEscape (u : ℕ) : (unitEscape u).length = 6 := rfl

/-- What the reader sees ahead of it when a unit is written there. -/
theorem lowEscape?_unitEscape {u : ℕ} (h : u < 0x10000) (r : Text) :
    lowEscape? (unitEscape u ++ r) =
      if isLowSurrogate (Fin.ofNat 0x110000 u) then some (Fin.ofNat 0x110000 u, r) else none := by
  simp only [unitEscape, List.cons_append, lowEscape?, and_self, if_true, hex4?_hexText h]

theorem ofNat_val (c : CodePoint) : Fin.ofNat 0x110000 c.val = c :=
  Fin.ext (Nat.mod_eq_of_lt c.isLt)

/-- The two units of a code point above `U+FFFF`. -/
theorem joinPair_units {c : CodePoint} (h : 0x10000 ≤ c.val) :
    isHighSurrogate (Fin.ofNat 0x110000 (0xD800 + (c.val - 0x10000) / 1024)) = true ∧
    isLowSurrogate (Fin.ofNat 0x110000 (0xDC00 + (c.val - 0x10000) % 1024)) = true ∧
    joinPair (Fin.ofNat 0x110000 (0xD800 + (c.val - 0x10000) / 1024))
      (Fin.ofNat 0x110000 (0xDC00 + (c.val - 0x10000) % 1024)) = c := by
  have hlt := c.isLt
  have hhi : (Fin.ofNat 0x110000 (0xD800 + (c.val - 0x10000) / 1024)).val =
      0xD800 + (c.val - 0x10000) / 1024 := Nat.mod_eq_of_lt (by omega)
  have hlo : (Fin.ofNat 0x110000 (0xDC00 + (c.val - 0x10000) % 1024)).val =
      0xDC00 + (c.val - 0x10000) % 1024 := Nat.mod_eq_of_lt (by omega)
  refine ⟨?_, ?_, ?_⟩
  · simp only [isHighSurrogate, hhi, decide_eq_true_iff]
    omega
  · simp only [isLowSurrogate, hlo, decide_eq_true_iff]
    omega
  · rw [joinPair, hhi, hlo]
    refine Fin.ext ?_
    change (0x10000 + (0xD800 + (c.val - 0x10000) / 1024 - 0xD800) * 1024 +
      (0xDC00 + (c.val - 0x10000) % 1024 - 0xDC00)) % 0x110000 = c.val
    rw [Nat.mod_eq_of_lt (by omega)]
    omega

/-- A one-letter escape is not that of a unit, and is read back. -/
theorem shortUnescape?_shortEscape? {c e : CodePoint} (h : shortEscape? c = some e) :
    e ≠ cp 'u' ∧ shortUnescape? e = some c := by
  unfold shortEscape? at h
  split_ifs at h with h₁ h₂ h₃ h₄ h₅ h₆ h₇
  all_goals
    cases h
    refine ⟨by decide, ?_⟩
    have hc : c = Fin.ofNat 0x110000 c.val := (ofNat_val c).symm
  · rw [hc, h₁]; decide
  · rw [hc, h₂]; decide
  · rw [hc, h₃]; decide
  · rw [hc, h₄]; decide
  · rw [hc, h₅]; decide
  · rw [hc, h₆]; decide
  · rw [hc, h₇]; decide

/-- The four forms of an escaped code point. -/
theorem escapeChar_cases (c : CodePoint) :
    (∃ e, shortEscape? c = some e ∧ escapeChar c = [cp '\\', e]) ∨
    (shortEscape? c = none ∧ (32 ≤ c.val ∧ c.val ≤ 126) ∧ escapeChar c = [c]) ∨
    (c.val < 0x10000 ∧ escapeChar c = unitEscape c.val) ∨
    (0x10000 ≤ c.val ∧ escapeChar c = unitEscape (0xD800 + (c.val - 0x10000) / 1024) ++
      unitEscape (0xDC00 + (c.val - 0x10000) % 1024)) := by
  unfold escapeChar
  cases hs : shortEscape? c with
  | some e => exact Or.inl ⟨e, rfl, rfl⟩
  | none =>
    by_cases hp : 32 ≤ c.val ∧ c.val ≤ 126
    · exact Or.inr (Or.inl ⟨rfl, hp, if_pos hp⟩)
    · by_cases hu : c.val < 0x10000
      · exact Or.inr (Or.inr (Or.inl ⟨hu, by simp only [if_neg hp, if_pos hu]⟩))
      · exact Or.inr (Or.inr (Or.inr ⟨by omega, by simp only [if_neg hp, if_neg hu]⟩))

/-- A code point without a one-letter escape is neither a quote nor a
backslash. -/
theorem ne_of_shortEscape?_eq_none {c : CodePoint} (h : shortEscape? c = none) :
    c ≠ cp '"' ∧ c ≠ cp '\\' := by
  constructor
  · rintro rfl
    exact absurd h (by decide)
  · rintro rfl
    exact absurd h (by decide)

theorem val_le_of_shortEscape? {c e : CodePoint} (h : shortEscape? c = some e) :
    c.val ≤ 0x5C := by
  unfold shortEscape? at h
  split_ifs at h <;> omega

theorem lowEscape?_of_ne {t : Text} (h : ∀ a b r, t = a :: b :: r → ¬(a = cp '\\' ∧ b = cp 'u')) :
    lowEscape? t = none := by
  match t with
  | [] => rfl
  | [_] => rfl
  | a :: b :: r => exact if_neg (h a b r rfl)

theorem not_isLowSurrogate_of_le {c : CodePoint} (h : c.val ≤ 126 ∨ 0x10000 ≤ c.val) :
    isLowSurrogate c = false := by
  simp only [isLowSurrogate, decide_eq_false_iff_not]
  omega

/-- **What stands ahead of the reader inside a written string**: the escape of a
low surrogate exactly where the text goes on with one. -/
theorem lowEscape?_written (b : CodePoint) (t rest : Text) :
    lowEscape? ((b :: t).flatMap escapeChar ++ cp '"' :: rest) =
      if isLowSurrogate b then some (b, t.flatMap escapeChar ++ cp '"' :: rest) else none := by
  rw [List.flatMap_cons, List.append_assoc]
  rcases escapeChar_cases b with ⟨e, he, hb⟩ | ⟨hs, hp, hb⟩ | ⟨hu, hb⟩ | ⟨hu, hb⟩
  · have hle := val_le_of_shortEscape? he
    rw [hb, not_isLowSurrogate_of_le (by omega), lowEscape?_of_ne fun a b r heq hab => ?_]
    · rfl
    · obtain ⟨-, htl⟩ := List.cons.inj heq
      obtain ⟨rfl, -⟩ := List.cons.inj htl
      exact (shortUnescape?_shortEscape? he).1 hab.2
  · rw [hb, not_isLowSurrogate_of_le (by omega), lowEscape?_of_ne fun a b r heq hab => ?_]
    · rfl
    · obtain ⟨rfl, -⟩ := List.cons.inj heq
      exact (ne_of_shortEscape?_eq_none hs).2 hab.1
  · rw [hb, lowEscape?_unitEscape hu, ofNat_val]
  · have hlt := b.isLt
    have hhi := (joinPair_units hu).1
    have hno : isLowSurrogate (Fin.ofNat 0x110000 (0xD800 + (b.val - 0x10000) / 1024)) = false := by
      simp only [isHighSurrogate, decide_eq_true_iff] at hhi
      simp only [isLowSurrogate, decide_eq_false_iff_not]
      omega
    rw [hb, List.append_assoc, lowEscape?_unitEscape (by omega), hno,
      not_isLowSurrogate_of_le (by omega), if_neg (by simp), if_neg (by simp)]

theorem lowEscape?_quote (rest : Text) : lowEscape? (cp '"' :: rest) = none :=
  lowEscape?_of_ne fun _ _ _ heq hab => by
    obtain ⟨rfl, -⟩ := List.cons.inj heq
    exact absurd hab.1 (by decide)

theorem scanString_plain (n : ℕ) {c : CodePoint} (hs : shortEscape? c = none) (hc : 32 ≤ c.val)
    (r : Text) : scanString (n + 1) (c :: r) = consText c (scanString n r) := by
  obtain ⟨hq, hb⟩ := ne_of_shortEscape?_eq_none hs
  have hlt : ¬c.val < 32 := by omega
  rw [scanString.eq_def]
  simp only [if_neg hq, if_neg hb, if_neg hlt]

theorem scanString_short (n : ℕ) {c e : CodePoint} (h : shortEscape? c = some e) (r : Text) :
    scanString (n + 1) (cp '\\' :: e :: r) = consText c (scanString n r) := by
  obtain ⟨hne, hback⟩ := shortUnescape?_shortEscape? h
  have hbq : cp '\\' ≠ cp '"' := by decide
  simp only [scanString, if_neg hbq, if_true, if_neg hne, hback]

/-- Reading the escape of a unit: it is joined with a low surrogate ahead. -/
theorem scanString_unit (n : ℕ) {u : ℕ} (hu : u < 0x10000) (r : Text) :
    scanString (n + 1) (unitEscape u ++ r) =
      match isHighSurrogate (Fin.ofNat 0x110000 u), lowEscape? r with
      | true, some (l, r') => consText (joinPair (Fin.ofNat 0x110000 u) l) (scanString n r')
      | _, _ => consText (Fin.ofNat 0x110000 u) (scanString n r) := by
  have hbq : cp '\\' ≠ cp '"' := by decide
  cases hhigh : isHighSurrogate (Fin.ofNat 0x110000 u) with
  | false =>
    simp only [unitEscape, List.cons_append, scanString, if_neg hbq, if_true, hex4?_hexText hu,
      hhigh]
  | true =>
    cases hlow : lowEscape? r with
    | none =>
      simp only [unitEscape, List.cons_append, scanString, if_neg hbq, if_true, hex4?_hexText hu,
        hhigh, hlow]
    | some p =>
      simp only [unitEscape, List.cons_append, scanString, if_neg hbq, if_true, hex4?_hexText hu,
        hhigh, hlow]

/-- Reading one written code point that is not the first of a pair. -/
theorem scanString_single (n : ℕ) (c : CodePoint) (t rest : Text)
    (h : isHighSurrogate c = true → ∀ b u, t = b :: u → isLowSurrogate b = false) :
    scanString (n + 1) ((c :: t).flatMap escapeChar ++ cp '"' :: rest) =
      consText c (scanString n (t.flatMap escapeChar ++ cp '"' :: rest)) := by
  rw [List.flatMap_cons, List.append_assoc]
  rcases escapeChar_cases c with ⟨e, he, hc⟩ | ⟨hs, hp, hc⟩ | ⟨hu, hc⟩ | ⟨hu, hc⟩
  · rw [hc]
    exact scanString_short n he _
  · rw [hc]
    exact scanString_plain n hs hp.1 _
  · rw [hc, scanString_unit n hu, ofNat_val]
    cases hh : isHighSurrogate c with
    | false => rfl
    | true =>
      have hnone : lowEscape? (t.flatMap escapeChar ++ cp '"' :: rest) = none := by
        cases t with
        | nil => exact lowEscape?_quote rest
        | cons b u => rw [lowEscape?_written, h hh b u rfl, if_neg (by simp)]
      rw [hnone]
  · obtain ⟨hhi, hlo, hjoin⟩ := joinPair_units hu
    have hlt := c.isLt
    rw [hc, List.append_assoc, scanString_unit n (by omega), lowEscape?_unitEscape (by omega),
      if_pos hlo, hhi]
    simp only [hjoin]

/-- Reading two written surrogates that form a pair. -/
theorem scanString_pair (n : ℕ) (a b : CodePoint) (t rest : Text)
    (ha : isHighSurrogate a = true) (hb : isLowSurrogate b = true) :
    scanString (n + 1) ((a :: b :: t).flatMap escapeChar ++ cp '"' :: rest) =
      consText (joinPair a b) (scanString n (t.flatMap escapeChar ++ cp '"' :: rest)) := by
  have hval : 0xD800 ≤ a.val ∧ a.val ≤ 0xDBFF := by simpa [isHighSurrogate] using ha
  have hc : escapeChar a = unitEscape a.val := by
    rcases escapeChar_cases a with ⟨e, he, hc⟩ | ⟨hs, hp, hc⟩ | ⟨_, hc⟩ | ⟨hu', hc⟩
    · have := val_le_of_shortEscape? he
      omega
    · omega
    · exact hc
    · omega
  rw [List.flatMap_cons, List.append_assoc, hc, scanString_unit n (by omega), ofNat_val, ha,
    lowEscape?_written, if_pos hb]

/-- **A written string is read back**, with its surrogate pairs joined. -/
theorem scanString_written (s rest : Text) (n : ℕ) (hn : s.length < n) :
    scanString n (s.flatMap escapeChar ++ cp '"' :: rest) = .ok (joinSurrogates s, rest) := by
  induction s using joinSurrogates.induct generalizing n with
  | case1 =>
    obtain ⟨n, rfl⟩ : ∃ m, n = m + 1 := ⟨n - 1, by simp at hn; omega⟩
    exact if_pos rfl
  | case2 c =>
    obtain ⟨n, rfl⟩ : ∃ m, n = m + 2 := ⟨n - 2, by simp at hn; omega⟩
    rw [scanString_single _ _ _ _ (by simp)]
    rfl
  | case3 a b t hab ih =>
    obtain ⟨n, rfl⟩ : ∃ m, n = m + 1 := ⟨n - 1, by simp at hn; omega⟩
    rw [scanString_pair _ _ _ _ _ hab.1 hab.2, ih n (by simp at hn; omega), joinSurrogates,
      if_pos hab]
    rfl
  | case4 a b t hab ih =>
    obtain ⟨n, rfl⟩ : ∃ m, n = m + 1 := ⟨n - 1, by simp at hn; omega⟩
    rw [scanString_single _ _ _ _ fun ha b' u hbu => by
        obtain ⟨rfl, rfl⟩ := List.cons.inj hbu
        exact Bool.eq_false_iff.mpr fun hb => hab ⟨ha, hb⟩,
      ih n (by simp at hn ⊢; omega), joinSurrogates, if_neg hab]
    rfl

/-! ### Reading a number back -/

/-- The text does not go on like a number: it is empty or starts with a
separator. -/
def Delimited (t : Text) : Prop :=
  ∀ c r, t = c :: r → c = cp ',' ∨ c = cp ']' ∨ c = cp '}'

@[simp] theorem delimited_nil : Delimited [] := fun _ _ h => absurd h (by simp)

theorem delimited_cons {c : CodePoint} (h : c = cp ',' ∨ c = cp ']' ∨ c = cp '}') (r : Text) :
    Delimited (c :: r) := fun _ _ heq => by
  obtain ⟨rfl, -⟩ := List.cons.inj heq
  exact h

theorem isDigit_of_mem_natText {n : ℕ} {c : CodePoint} (h : c ∈ natText n) : isDigit c = true := by
  simpa [isDigit] using digit_of_mem_natText h

theorem digitsValue_map_cp (cs : List Char) (n : ℕ) :
    (cs.map cp).foldl (fun n c => 10 * n + (c.val - 48)) n = Nat.ofDigitChars 10 cs n := by
  induction cs generalizing n with
  | nil => rfl
  | cons c cs ih =>
    rw [List.map_cons, List.foldl_cons, ih, Nat.ofDigitChars_cons, cp_val]
    rfl

/-- The digits of a number have its value. -/
theorem digitsValue_natText (n : ℕ) : digitsValue (natText n) = n := by
  rw [digitsValue, natText, digitsValue_map_cp, Nat.ofDigitChars_ten_toDigits]

/-- Only zero is written with a leading zero. -/
theorem head_toDigits_ne_zero {n : ℕ} (hn : 0 < n) :
    (Nat.toDigits 10 n).head? ≠ some '0' := by
  induction n using Nat.strongRecOn with
  | ind n ih =>
    by_cases hlt : n < 10
    · rw [Nat.toDigits_of_lt_base hlt, List.head?_cons]
      intro heq
      have hv := Nat.toNat_digitChar_sub_48_of_lt_ten hlt
      rw [Option.some.inj heq] at hv
      change 0 = n at hv
      omega
    · rw [Nat.toDigits_of_base_le (by omega) (by omega), List.head?_append_of_ne_nil _ (by simp)]
      exact ih (n / 10) (by omega) (by omega)

theorem span_digits {t : Text} (ht : ∀ c ∈ t, isDigit c = true) {rest : Text}
    (hrest : Delimited rest) : (t ++ rest).span isDigit = (t, rest) := by
  rw [List.span_eq_takeWhile_dropWhile, List.takeWhile_append_of_pos ht,
    List.dropWhile_append_of_pos ht]
  cases rest with
  | nil => simp
  | cons c r =>
    have hc : isDigit c = false := by
      rcases hrest c r rfl with rfl | rfl | rfl <;> decide
    simp [hc]

theorem intPart?_natText (n : ℕ) {rest : Text} (hrest : Delimited rest) :
    intPart? (natText n ++ rest) = some (natText n, rest) := by
  rcases Nat.eq_zero_or_pos n with rfl | hn
  · rfl
  · cases hd : natText n with
    | nil => exact absurd hd (natText_ne_nil n)
    | cons c ds =>
      have hmem : c ∈ natText n := by rw [hd]; exact List.mem_cons_self
      -- a leading zero would end the integer part at once
      have hne : c ≠ cp '0' := by
        rintro rfl
        refine head_toDigits_ne_zero hn ?_
        rw [natText, List.map_eq_cons_iff] at hd
        obtain ⟨d, ds', htd, hcp, -⟩ := hd
        rw [htd, List.head?_cons, cp_injective hcp]
      rw [List.cons_append, intPart?, if_neg hne, if_pos (isDigit_of_mem_natText hmem),
        ← List.cons_append, ← hd, span_digits (fun c hc => isDigit_of_mem_natText hc) hrest]

theorem fraction_of_delimited {t : Text} (h : Delimited t) : fraction t = ([], t) := by
  match t with
  | [] => rfl
  | [_] => rfl
  | a :: b :: r =>
    refine if_neg fun hab => ?_
    rcases h a (b :: r) rfl with rfl | rfl | rfl <;> exact absurd hab.1 (by decide)

theorem exponent_of_delimited {t : Text} (h : Delimited t) : exponent t = ([], t) := by
  match t with
  | [] => rfl
  | [_] => rfl
  | a :: b :: r =>
    refine if_neg fun hab => ?_
    rcases h a (b :: r) rfl with rfl | rfl | rfl <;> exact absurd hab (by decide)

section

variable [Interpreter]

theorem scanUnsigned_natText (sign : Text) (n : ℕ) {rest : Text} (hrest : Delimited rest) :
    scanUnsigned sign (natText n ++ rest) =
      some (.int (if sign = [] then (n : ℤ) else -(n : ℤ)), rest) := by
  rw [scanUnsigned, intPart?_natText n hrest]
  simp only [fraction_of_delimited hrest, exponent_of_delimited hrest, and_self, if_true,
    digitsValue_natText]

/-- **A written integer is read back.** -/
theorem scanNumber_intText (i : ℤ) {rest : Text} (hrest : Delimited rest) :
    scanNumber (intText i ++ rest) = some (.int i, rest) := by
  unfold intText
  by_cases hi : i < 0
  · rw [if_pos hi, List.cons_append, scanNumber, if_pos rfl, scanUnsigned_natText _ _ hrest]
    simp only [List.cons_ne_nil, if_false, Option.some.injEq, Prod.mk.injEq, Json.int.injEq,
      and_true]
    omega
  · rw [if_neg hi]
    cases hd : natText i.natAbs with
    | nil => exact absurd hd (natText_ne_nil _)
    | cons c ds =>
      have hne : c ≠ cp '-' := by
        rintro rfl
        have := digit_of_mem_natText (n := i.natAbs) (c := cp '-') (by simp [hd])
        exact absurd this (by decide)
      rw [List.cons_append, scanNumber, if_neg hne, ← List.cons_append, ← hd,
        scanUnsigned_natText _ _ hrest]
      simp only [if_true, Option.some.injEq, Prod.mk.injEq, Json.int.injEq, and_true]
      omega

/-- A number starts with a digit or a sign. -/
theorem head_of_scanNumber {t : Text} {p : Json × Text} (h : scanNumber t = some p) :
    ∃ c r, t = c :: r ∧ ((48 ≤ c.val ∧ c.val ≤ 57) ∨
      (c = cp '-' ∧ ∃ d r', r = d :: r' ∧ 48 ≤ d.val ∧ d.val ≤ 57)) := by
  have hun : ∀ {sign t : Text}, scanUnsigned sign t = some p →
      ∃ c r, t = c :: r ∧ 48 ≤ c.val ∧ c.val ≤ 57 := by
    intro sign t ht
    cases t with
    | nil => exact absurd ht (by simp [scanUnsigned, intPart?])
    | cons c r =>
      refine ⟨c, r, rfl, ?_⟩
      by_contra hc
      have h0 : c ≠ cp '0' := by
        rintro rfl
        exact hc (by decide)
      have hdig : isDigit c = false := by simpa [isDigit] using hc
      rw [scanUnsigned, intPart?, if_neg h0, hdig] at ht
      exact absurd ht (by simp)
  cases t with
  | nil => exact absurd h (by simp [scanNumber])
  | cons c r =>
    refine ⟨c, r, rfl, ?_⟩
    rw [scanNumber] at h
    by_cases hc : c = cp '-'
    · rw [if_pos hc] at h
      exact Or.inr ⟨hc, hun h⟩
    · rw [if_neg hc] at h
      obtain ⟨c', r', heq, hd⟩ := hun h
      obtain ⟨rfl, rfl⟩ := List.cons.inj heq
      exact Or.inl hd

/-! ### Reading a keyword or a number back -/

omit [Interpreter] in
theorem afterWord?_append (w r : Text) : afterWord? w (w ++ r) = some r := by
  rw [afterWord?, if_pos (List.prefix_append w r), List.drop_left]

omit [Interpreter] in
/-- A text that differs from a word somewhere does not start with it. -/
theorem afterWord?_eq_none {w t : Text} (i : ℕ) {a b : CodePoint} (hw : w[i]? = some a)
    (ht : t[i]? = some b) (h : a ≠ b) : afterWord? w t = none := by
  refine if_neg fun hp => h ?_
  obtain ⟨s, rfl⟩ := hp
  rw [List.getElem?_append_left (List.getElem?_eq_some_iff.mp hw).1, hw] at ht
  exact Option.some.inj ht

/-- What is a number is no keyword. -/
theorem scanAtom_of_scanNumber {t : Text} {p : Json × Text} (h : scanNumber t = some p) :
    scanAtom t = .ok p := by
  obtain ⟨c, r, rfl, hc⟩ := head_of_scanNumber h
  have hhead : ∀ {w : Text} {a : CodePoint}, w[0]? = some a → a ≠ c →
      afterWord? w (c :: r) = none := fun hw hne => afterWord?_eq_none 0 hw rfl hne
  have hle : c.val ≤ 57 := by
    rcases hc with hd | ⟨rfl, -⟩
    · exact hd.2
    · decide
  have hne : ∀ {a : CodePoint}, 57 < a.val → a ≠ c := by
    rintro a ha rfl
    omega
  -- a minus sign is shared with one keyword, which goes on with a letter
  have hinf : afterWord? (text "-Infinity") (c :: r) = none := by
    rcases hc with hd | ⟨rfl, d, r', rfl, hd⟩
    · refine hhead (a := cp '-') rfl ?_
      rintro rfl
      exact absurd hd (by decide)
    · refine afterWord?_eq_none 1 (a := cp 'I') rfl rfl ?_
      rintro rfl
      exact absurd hd (by decide)
  rw [scanAtom, hhead (a := cp 'n') rfl (hne (by decide)),
    hhead (a := cp 't') rfl (hne (by decide)), hhead (a := cp 'f') rfl (hne (by decide)),
    hhead (a := cp 'N') rfl (hne (by decide)), hhead (a := cp 'I') rfl (hne (by decide)), hinf, h]

theorem scanAtom_null (r : Text) : scanAtom (text "null" ++ r) = .ok (.null, r) := by
  rw [scanAtom, afterWord?_append]

theorem scanAtom_true (r : Text) : scanAtom (text "true" ++ r) = .ok (.bool true, r) := by
  have h := afterWord?_append (text "true") r
  rw [scanAtom, afterWord?_eq_none 0 (a := cp 'n') (b := cp 't') rfl rfl (by decide), h]

theorem scanAtom_false (r : Text) : scanAtom (text "false" ++ r) = .ok (.bool false, r) := by
  have h := afterWord?_append (text "false") r
  rw [scanAtom, afterWord?_eq_none 0 (a := cp 'n') (b := cp 'f') rfl rfl (by decide),
    afterWord?_eq_none 0 (a := cp 't') (b := cp 'f') rfl rfl (by decide), h]

theorem scanAtom_nan (r : Text) : scanAtom (text "NaN" ++ r) = .ok (.float .nan, r) := by
  have h := afterWord?_append (text "NaN") r
  rw [scanAtom, afterWord?_eq_none 0 (a := cp 'n') (b := cp 'N') rfl rfl (by decide),
    afterWord?_eq_none 0 (a := cp 't') (b := cp 'N') rfl rfl (by decide),
    afterWord?_eq_none 0 (a := cp 'f') (b := cp 'N') rfl rfl (by decide), h]

theorem scanAtom_infinity (r : Text) :
    scanAtom (text "Infinity" ++ r) = .ok (.float (.inf false), r) := by
  have h := afterWord?_append (text "Infinity") r
  rw [scanAtom, afterWord?_eq_none 0 (a := cp 'n') (b := cp 'I') rfl rfl (by decide),
    afterWord?_eq_none 0 (a := cp 't') (b := cp 'I') rfl rfl (by decide),
    afterWord?_eq_none 0 (a := cp 'f') (b := cp 'I') rfl rfl (by decide),
    afterWord?_eq_none 0 (a := cp 'N') (b := cp 'I') rfl rfl (by decide), h]

theorem scanAtom_negInfinity (r : Text) :
    scanAtom (text "-Infinity" ++ r) = .ok (.float (.inf true), r) := by
  have h := afterWord?_append (text "-Infinity") r
  rw [scanAtom, afterWord?_eq_none 0 (a := cp 'n') (b := cp '-') rfl rfl (by decide),
    afterWord?_eq_none 0 (a := cp 't') (b := cp '-') rfl rfl (by decide),
    afterWord?_eq_none 0 (a := cp 'f') (b := cp '-') rfl rfl (by decide),
    afterWord?_eq_none 0 (a := cp 'N') (b := cp '-') rfl rfl (by decide),
    afterWord?_eq_none 0 (a := cp 'I') (b := cp '-') rfl rfl (by decide), h]

end

end Python
