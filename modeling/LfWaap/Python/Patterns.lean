import LfWaap.Python.Text
import LfWaap.Words.Regex

/-!
# Patterns of the module `re`

The building blocks of patterns as they are read with the flags `IGNORECASE` and `MULTILINE`:
literals, which match a letter in either case, the classes `\s`, `\d` and `\w`, the word
boundary `\b` and the line end `$`. A pattern is a `Words.Regex`; whether one is found in a
text is `Words.Regex.search`.

No block tells two letters apart that differ in their case on ASCII
(`Python.SameLetter`); and each of them takes a line end for the end of the text, if it looks
at what follows at all.
-/

namespace Python

open Words

/-- A letter, a digit or the underscore of ASCII. -/
def asciiWord (c : CodePoint) : Bool :=
  decide (48 ≤ c.val ∧ c.val ≤ 57 ∨ 65 ≤ c.val ∧ c.val ≤ 90 ∨ 97 ≤ c.val ∧ c.val ≤ 122) ||
    decide (c = cp '_')

/-- **The table behind `\w`**, which is part of the interpreter as well. -/
class WordTable where
  /-- The code points that `\w` matches. -/
  isWord : CodePoint → Bool
  /-- On ASCII they are known. -/
  isWord_ascii : ∀ c, IsAscii c → isWord c = asciiWord c

/-- The table that knows ASCII only. -/
@[reducible] def WordTable.ascii : WordTable where
  isWord := asciiWord
  isWord_ascii := fun _ _ => rfl

/-! ### Blocks -/

/-- A literal. -/
def lit (c : Char) : Regex CodePoint := .letter fun d => decide (foldCase d = foldCase (cp c))

/-- A literal of several letters. -/
def lits (s : String) : Regex CodePoint := .seqs (s.toList.map lit)

/-- It matches texts with the same letters, in either case. -/
theorem matches_lits {s : String} {t : Text}
    (h : List.Forall₂ (fun c d => foldCase d = foldCase (cp c)) s.toList t) (pre post : Text) :
    Regex.Matches (lits s) pre t post := by
  rw [lits]
  generalize s.toList = cs at h
  induction h generalizing pre with
  | nil => exact .look rfl
  | @cons c d cs t hc _ ih =>
    have hlit : Regex.Matches (lit c) pre [d] (t ++ post) := .letter (decide_eq_true hc)
    exact hlit.seqs_cons (ih _)

/-- `[…]` with the letters of a text. -/
def oneOf (s : String) : Regex CodePoint :=
  .letter fun d => s.toList.any fun c => decide (foldCase d = foldCase (cp c))

/-- `$`: before a line end, or at the end. -/
def lineEnd : Regex CodePoint :=
  .look fun _ next => decide (next = none) || decide (next = some (cp '\n'))

section

variable [Interpreter]

/-- `\s` -/
def space : Regex CodePoint := .letter Interpreter.isSpace

/-- `\d` -/
def digit : Regex CodePoint := .letter fun c => (Interpreter.decimal c).isSome

end

/-- The position next to a code point that `\w` matches, if there is a code point. -/
def isWordAt [WordTable] (c : Option CodePoint) : Bool := c.any WordTable.isWord

/-- `\b` -/
def wordBoundary [WordTable] : Regex CodePoint :=
  .look fun previous next => isWordAt previous != isWordAt next

/-! ### Letters in either case -/

/-- The same letter up to its case, on ASCII. -/
def SameLetter (c d : CodePoint) : Prop := asciiLower c = asciiLower d

instance : DecidableRel SameLetter := fun c d =>
  inferInstanceAs (Decidable (asciiLower c = asciiLower d))

/-- The code point is a letter of ASCII. -/
def IsLetter (c : CodePoint) : Prop := 65 ≤ c.val ∧ c.val ≤ 90 ∨ 97 ≤ c.val ∧ c.val ≤ 122

instance : DecidablePred IsLetter := fun c =>
  inferInstanceAs (Decidable (65 ≤ c.val ∧ c.val ≤ 90 ∨ 97 ≤ c.val ∧ c.val ≤ 122))

/-- What is the same letter is equal, or both are letters. -/
theorem SameLetter.cases {c d : CodePoint} (h : SameLetter c d) :
    c = d ∨ IsLetter c ∧ IsLetter d := by
  have hval := congrArg Fin.val h
  rw [asciiLower_val, asciiLower_val] at hval
  rw [IsLetter, IsLetter, Fin.ext_iff]
  split_ifs at hval <;> omega

theorem IsLetter.ascii {c : CodePoint} (h : IsLetter c) : IsAscii c := by
  rw [IsLetter] at h
  rw [IsAscii]
  omega

/-- Two letters that are the same are so in a pattern. -/
theorem SameLetter.foldCase {c d : CodePoint} (h : SameLetter c d) : foldCase c = foldCase d := by
  rcases h.cases with rfl | ⟨hc, hd⟩
  · rfl
  · have hc' := hc.ascii
    have hd' := hd.ascii
    rw [IsAscii] at hc' hd'
    rw [foldCase_of_lt (by omega), foldCase_of_lt (by omega)]
    exact h

/-- A letter is a word. -/
theorem IsLetter.isWord [WordTable] {c : CodePoint} (h : IsLetter c) :
    WordTable.isWord c = true := by
  rw [WordTable.isWord_ascii c h.ascii, asciiWord, Bool.or_eq_true, decide_eq_true_iff]
  exact .inl (.inr h)

section

variable [Interpreter]

/-- A letter is no white space. -/
theorem IsLetter.not_isSpace {c : CodePoint} (h : IsLetter c) : Interpreter.isSpace c = false := by
  have hc := h.ascii
  rw [IsAscii] at hc
  rw [IsLetter] at h
  rw [Interpreter.isSpace_latin1 c (by omega)]
  simp only [latin1Space, Bool.or_eq_false_iff, decide_eq_false_iff_not]
  omega

/-- A letter is no digit. -/
theorem IsLetter.decimal_eq_none {c : CodePoint} (h : IsLetter c) :
    Interpreter.decimal c = none := by
  have hc := h.ascii
  rw [IsAscii] at hc
  rw [IsLetter] at h
  rw [Interpreter.decimal_latin1 c (by omega), asciiDigit?, if_neg (by omega)]

theorem respects_space : space.Respects SameLetter := by
  intro c d h hc
  rcases h.cases with rfl | ⟨hletter, -⟩
  · exact hc
  · rw [hletter.not_isSpace] at hc
    cases hc

theorem respects_digit : digit.Respects SameLetter := by
  intro c d h hc
  rcases h.cases with rfl | ⟨hletter, -⟩
  · exact hc
  · have hsome : (Interpreter.decimal c).isSome = true := hc
    rw [hletter.decimal_eq_none] at hsome
    cases hsome

end

theorem respects_lit (c : Char) : (lit c).Respects SameLetter := by
  intro d e h hd
  rw [decide_eq_true_iff] at hd ⊢
  rw [← h.foldCase, hd]

theorem respects_lits (s : String) : (lits s).Respects SameLetter := by
  refine Regex.respects_seqs fun r hr => ?_
  obtain ⟨c, -, rfl⟩ := List.mem_map.mp hr
  exact respects_lit c

theorem respects_oneOf (s : String) : (oneOf s).Respects SameLetter := by
  intro d e h hd
  obtain ⟨c, hc, heq⟩ := List.any_eq_true.mp hd
  refine List.any_eq_true.mpr ⟨c, hc, ?_⟩
  rw [decide_eq_true_iff] at heq ⊢
  rw [← h.foldCase, heq]

theorem respects_lineEnd : lineEnd.Respects SameLetter := by
  intro x x' y y' _ hy h
  rw [Bool.or_eq_true, decide_eq_true_iff, decide_eq_true_iff] at h ⊢
  rcases hy with hy | -
  · obtain heq := Option.some.inj (h.resolve_left nofun)
    refine .inr (congrArg some ?_)
    rcases hy.cases with hyy | ⟨hletter, -⟩
    · rw [← hyy, heq]
    · rw [heq] at hletter
      exact absurd hletter (by decide)
  · exact .inl rfl

theorem isWordAt_congr [WordTable] {x y : Option CodePoint} (h : Option.Rel SameLetter x y) :
    isWordAt x = isWordAt y := by
  rcases h with h | -
  · rcases h.cases with rfl | ⟨hx, hy⟩
    · rfl
    · exact hx.isWord.trans hy.isWord.symm
  · rfl

theorem respects_wordBoundary [WordTable] : wordBoundary.Respects SameLetter := by
  intro x x' y y' hx hy h
  show (isWordAt x' != isWordAt y') = true
  rw [← isWordAt_congr hx, ← isWordAt_congr hy]
  exact h

/-! ### Line ends -/

theorem passesEnd_lineEnd : lineEnd.PassesEnd (cp '\n') := fun _ _ =>
  Bool.or_eq_true_iff.mpr (.inr (decide_eq_true rfl))

theorem passesEnd_lits (s : String) : (lits s).PassesEnd (cp '\n') := by
  refine Regex.passesEnd_seqs fun r hr => ?_
  obtain ⟨c, -, rfl⟩ := List.mem_map.mp hr
  exact trivial

theorem consumes_lits {s : String} (hs : s ≠ "") : (lits s).Consumes := by
  obtain ⟨c, r, hcr⟩ : ∃ c r, s.toList = c :: r :=
    List.exists_cons_of_ne_nil fun h => hs (String.toList_injective h)
  exact Regex.consumes_seqs (List.mem_map_of_mem (hcr ▸ List.mem_cons_self)) trivial

/-- A literal does not match a line end, unless it is one. -/
theorem neverLast_lit {c : Char} (h : c ≠ '\n') : (lit c).NeverLast (cp '\n') := by
  refine decide_eq_false fun heq => h (cp_injective ?_)
  have hnl : foldCase (cp '\n') = cp '\n' := by decide
  have hval : (cp '\n').val = 10 := by decide
  have hletters : (cp 'i').val = 105 ∧ (cp 's').val = 115 ∧ (cp 'k').val = 107 := by decide
  rw [hnl, foldCase] at heq
  replace heq := congrArg Fin.val heq
  refine Fin.ext ?_
  rw [hval] at heq ⊢
  split_ifs at heq
  · omega
  · omega
  · omega
  · rw [asciiLower_val] at heq
    split_ifs at heq <;> omega

theorem neverLast_lits {s : String} (h : '\n' ∉ s.toList) : (lits s).NeverLast (cp '\n') := by
  refine Regex.neverLast_seqs fun r hr => ?_
  obtain ⟨c, hc, rfl⟩ := List.mem_map.mp hr
  exact neverLast_lit fun heq => h (heq ▸ hc)

/-- A line end is no digit. -/
theorem neverLast_digit [Interpreter] : digit.NeverLast (cp '\n') := by
  show (Interpreter.decimal (cp '\n')).isSome = false
  rw [Interpreter.decimal_latin1 _ (by decide)]
  decide

/-- A line end is no word. -/
theorem passesEnd_wordBoundary [WordTable] : wordBoundary.PassesEnd (cp '\n') := by
  intro x h
  have hnl : isWordAt (some (cp '\n')) = false := by
    show WordTable.isWord (cp '\n') = false
    rw [WordTable.isWord_ascii _ (by decide)]
    decide
  show (isWordAt x != isWordAt (some (cp '\n'))) = true
  rw [hnl]
  exact h

end Python
