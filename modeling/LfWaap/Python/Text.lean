import Mathlib

/-!
# Text, bytes and exceptions of the interpreter

The values a Python program computes with before any library is imported: `str`
(a sequence of *code points*, so that a lone surrogate is an ordinary element),
`bytes`, `float` as far as a wire format needs it, and exceptions.

Some things about `str` are data rather than code: the Unicode tables behind
`lower`, `upper`, `isspace` and `int`, the shortest decimal notation of a
float, and the addresses a URL may name. They are collected in the class
`Python.Interpreter`, together with the documented facts every development on top
of them may use: what the tables say on ASCII or on Latin-1, and that changing the
case twice changes nothing more than changing it once.
`Python.Interpreter.ascii` is a small instance, right on ASCII, at which closed
examples are evaluated.
-/

namespace Python

/-! ### Code points, text and bytes -/

/-- A Unicode code point. Surrogates are code points: a Python `str` may hold
them one by one. -/
abbrev CodePoint := Fin 0x110000

instance neZero_codePoints : NeZero 0x110000 := ⟨by decide⟩

instance lawfulBEq_codePoint : LawfulBEq CodePoint := inferInstance

/-- A Python `str`. -/
abbrev Text := List CodePoint

/-- One octet. -/
abbrev Byte := Fin 256

instance neZero_octets : NeZero 256 := ⟨by decide⟩

instance lawfulBEq_byte : LawfulBEq Byte := inferInstance

/-- A Python `bytes`. -/
abbrev Bytes := List Byte

/-- The code point of a character of a source literal. -/
def cp (c : Char) : CodePoint := Fin.ofNat 0x110000 c.toNat

/-- A source literal, as a `str`. -/
def text (s : String) : Text := s.toList.map cp

/-- The octet of a number below `256`. -/
def byte (n : ℕ) : Byte := Fin.ofNat 256 n

theorem byte_val {n : ℕ} (h : n < 256) : (byte n : ℕ) = n := Nat.mod_eq_of_lt h

/-! ### Exceptions -/

/-- The exception classes the modelled programs raise or catch, each with its
message. `custom` is a class the program declares itself. -/
inductive PyError where
  | valueError (message : String)
  | typeError (message : String)
  | keyError (key : String)
  | indexError (message : String)
  | attributeError (message : String)
  | overflowError (message : String)
  | runtimeError (message : String)
  | fileNotFoundError (message : String)
  | unicodeEncodeError (message : String)
  | unicodeDecodeError (message : String)
  | jsonDecodeError (message : String)
  | custom (name message : String)
  deriving DecidableEq, Repr

/-! ### Floats on the wire -/

/-- A float, as a value: not a number, an infinity, or a finite number. -/
inductive PyFloat where
  | nan
  | inf (negative : Bool)
  | finite (value : ℚ)
  deriving DecidableEq

/-! ### Classes of code points -/

/-- The code points below `128`. -/
def IsAscii (c : CodePoint) : Prop := c.val < 128

instance : DecidablePred IsAscii := fun c => inferInstanceAs (Decidable (c.val < 128))

/-- All code points of a text are below `128`. -/
def AsciiText (t : Text) : Prop := ∀ c ∈ t, IsAscii c

instance : DecidablePred AsciiText := fun t => List.decidableBAll IsAscii t

@[simp] theorem asciiText_nil : AsciiText [] := by simp [AsciiText]

@[simp] theorem asciiText_cons {c : CodePoint} {t : Text} :
    AsciiText (c :: t) ↔ IsAscii c ∧ AsciiText t := by
  simp [AsciiText]

@[simp] theorem asciiText_append {s t : Text} :
    AsciiText (s ++ t) ↔ AsciiText s ∧ AsciiText t :=
  List.forall_mem_append

/-- All code points of a text are below `256`. -/
def Latin1Text (t : Text) : Prop := ∀ c ∈ t, c.val < 256

instance : DecidablePred Latin1Text := fun t =>
  List.decidableBAll (fun c : CodePoint => c.val < 256) t

@[simp] theorem latin1Text_nil : Latin1Text [] := by simp [Latin1Text]

@[simp] theorem latin1Text_cons {c : CodePoint} {t : Text} :
    Latin1Text (c :: t) ↔ c.val < 256 ∧ Latin1Text t := by
  simp [Latin1Text]

@[simp] theorem latin1Text_append {s t : Text} :
    Latin1Text (s ++ t) ↔ Latin1Text s ∧ Latin1Text t :=
  List.forall_mem_append

theorem AsciiText.latin1 {t : Text} (h : AsciiText t) : Latin1Text t := fun c hc => by
  have := h c hc
  rw [IsAscii] at this
  omega

/-- The printable ASCII texts, in which notations of numbers are written. -/
def PlainText (t : Text) : Prop := ∀ c ∈ t, 32 ≤ c.val ∧ c.val ≤ 126

instance : DecidablePred PlainText := fun t =>
  List.decidableBAll (fun c : CodePoint => 32 ≤ c.val ∧ c.val ≤ 126) t

@[simp] theorem plainText_nil : PlainText [] := by simp [PlainText]

@[simp] theorem plainText_cons {c : CodePoint} {t : Text} :
    PlainText (c :: t) ↔ (32 ≤ c.val ∧ c.val ≤ 126) ∧ PlainText t := by
  simp [PlainText]

@[simp] theorem plainText_append {s t : Text} :
    PlainText (s ++ t) ↔ PlainText s ∧ PlainText t :=
  List.forall_mem_append

theorem PlainText.ascii {t : Text} (h : PlainText t) : AsciiText t := fun c hc => by
  have := h c hc
  rw [IsAscii]
  omega

/-- The first half of a surrogate pair. -/
def isHighSurrogate (c : CodePoint) : Bool := decide (0xD800 ≤ c.val ∧ c.val ≤ 0xDBFF)

/-- The second half of a surrogate pair. -/
def isLowSurrogate (c : CodePoint) : Bool := decide (0xDC00 ≤ c.val ∧ c.val ≤ 0xDFFF)

/-- A code point reserved for surrogate pairs. -/
def isSurrogate (c : CodePoint) : Bool := decide (0xD800 ≤ c.val ∧ c.val ≤ 0xDFFF)

/-- ASCII lower-casing of one code point. -/
def asciiLower (c : CodePoint) : CodePoint :=
  if 65 ≤ c.val ∧ c.val ≤ 90 then Fin.ofNat 0x110000 (c.val + 32) else c

/-- ASCII upper-casing of one code point. -/
def asciiUpper (c : CodePoint) : CodePoint :=
  if 97 ≤ c.val ∧ c.val ≤ 122 then Fin.ofNat 0x110000 (c.val - 32) else c

/-- The letter a code point stands for in a pattern that ignores case, on the letters of
ASCII: their upper-case forms, and four letters that fold to one of them. -/
def foldCase (c : CodePoint) : CodePoint :=
  if c.val = 0x130 ∨ c.val = 0x131 then cp 'i'
  else if c.val = 0x17F then cp 's'
  else if c.val = 0x212A then cp 'k'
  else asciiLower c

/-- White space among the code points below `256`, the set `str.strip` removes
and `\s` matches. -/
def latin1Space (c : CodePoint) : Bool :=
  decide (9 ≤ c.val ∧ c.val ≤ 13) || decide (28 ≤ c.val ∧ c.val ≤ 32) ||
    decide (c.val = 133) || decide (c.val = 160)

/-- A decimal digit of ASCII, with its value. -/
def asciiDigit? (c : CodePoint) : Option ℕ :=
  if 48 ≤ c.val ∧ c.val ≤ 57 then some (c.val - 48) else none

theorem asciiLower_val (c : CodePoint) :
    (asciiLower c).val = if 65 ≤ c.val ∧ c.val ≤ 90 then c.val + 32 else c.val := by
  unfold asciiLower
  split
  · exact Nat.mod_eq_of_lt (by omega)
  · rfl

theorem asciiUpper_val (c : CodePoint) :
    (asciiUpper c).val = if 97 ≤ c.val ∧ c.val ≤ 122 then c.val - 32 else c.val := by
  unfold asciiUpper
  split
  · exact Nat.mod_eq_of_lt (by omega)
  · rfl

/-- Lower-casing twice is lower-casing once. -/
theorem asciiLower_asciiLower (c : CodePoint) : asciiLower (asciiLower c) = asciiLower c := by
  refine Fin.ext ?_
  rw [asciiLower_val, asciiLower_val]
  split_ifs <;> omega

/-- Upper-casing twice is upper-casing once. -/
theorem asciiUpper_asciiUpper (c : CodePoint) : asciiUpper (asciiUpper c) = asciiUpper c := by
  refine Fin.ext ?_
  rw [asciiUpper_val, asciiUpper_val]
  split_ifs <;> omega

/-- Below `256`, ignoring case is lower-casing on ASCII. -/
theorem foldCase_of_lt {c : CodePoint} (h : c.val < 256) : foldCase c = asciiLower c := by
  rw [foldCase, if_neg (by omega), if_neg (by omega), if_neg (by omega)]

/-! ### The notation of integers -/

/-- `str(n)` for a natural number, of any number of digits: the limit of the interpreter, which is
one of its settings, is not modelled. -/
def natText (n : ℕ) : Text := (Nat.toDigits 10 n).map cp

/-- `str(i)` for an integer, without a limit on the digits either. -/
def intText (i : ℤ) : Text := if i < 0 then cp '-' :: natText i.natAbs else natText i.natAbs

theorem cp_val (c : Char) : (cp c).val = c.toNat := by
  refine Nat.mod_eq_of_lt ?_
  have h := c.valid
  rw [UInt32.isValidChar, Nat.isValidChar] at h
  have he : c.toNat = c.val.toNat := rfl
  omega

theorem cp_injective {c d : Char} (h : cp c = cp d) : c = d := by
  have hv := congrArg Fin.val h
  rw [cp_val, cp_val] at hv
  exact Char.ext (UInt32.toNat_inj.mp hv)

/-- The digits of a number are code points `48` to `57`. -/
theorem digit_of_mem_natText {n : ℕ} {c : CodePoint} (h : c ∈ natText n) :
    48 ≤ c.val ∧ c.val ≤ 57 := by
  obtain ⟨d, hd, rfl⟩ := List.mem_map.mp h
  have hdig : d.isDigit = true := Nat.isDigit_of_mem_toDigits (by omega) (by omega) hd
  rw [cp_val]
  rw [Char.isDigit, Bool.and_eq_true, decide_eq_true_iff, decide_eq_true_iff] at hdig
  exact ⟨hdig.1, hdig.2⟩

theorem plainText_natText (n : ℕ) : PlainText (natText n) := fun c hc => by
  have h := digit_of_mem_natText hc
  omega

theorem plainText_intText (i : ℤ) : PlainText (intText i) := by
  unfold intText
  split
  · exact plainText_cons.mpr ⟨by decide, plainText_natText _⟩
  · exact plainText_natText _

theorem natText_ne_nil (n : ℕ) : natText n ≠ [] := by
  simp [natText, Nat.toDigits_ne_nil]

/-! ### What the interpreter supplies -/

/-- **The tables of the interpreter**: the Unicode case mappings and character
classes, and the decimal notation of floats, with the documented facts about
them that do not depend on the Unicode version. -/
class Interpreter where
  /-- `str.lower`. -/
  lower : Text → Text
  /-- `str.upper`. -/
  upper : Text → Text
  /-- `str.isspace` of one code point. -/
  isSpace : CodePoint → Bool
  /-- The value of a decimal digit of any script. -/
  decimal : CodePoint → Option ℕ
  /-- `str.isprintable` of one code point. -/
  isPrintable : CodePoint → Bool
  /-- `repr` of a finite float. -/
  floatRepr : ℚ → Text
  /-- `float` of a numeral with a fraction or an exponent. -/
  floatParse : Text → PyFloat
  /-- `float` of any text; `none` where it raises `ValueError`. -/
  floatOfText : Text → Option PyFloat
  /-- The format `.3f` of a float of an exact computation. -/
  fixed3 : EReal → Text
  /-- What `urlsplit` raises over a network location whose brackets are paired: over the
  address between them, or over what compatibility normalisation makes of it. -/
  netlocError : Text → Option PyError
  /-- Case mapping on ASCII. -/
  lower_ascii : ∀ t, AsciiText t → lower t = t.map asciiLower
  /-- Case mapping on ASCII. -/
  upper_ascii : ∀ t, AsciiText t → upper t = t.map asciiUpper
  /-- Lower-casing is idempotent. -/
  lower_lower : ∀ t, lower (lower t) = lower t
  /-- Upper-casing is idempotent. -/
  upper_upper : ∀ t, upper (upper t) = upper t
  /-- White space below `256`. -/
  isSpace_latin1 : ∀ c, c.val < 256 → isSpace c = latin1Space c
  /-- Decimal digits below `256`. -/
  decimal_latin1 : ∀ c, c.val < 256 → decimal c = asciiDigit? c
  /-- Surrogates are not printable. -/
  isPrintable_surrogate : ∀ c, isSurrogate c = true → isPrintable c = false
  /-- The notation of a float is printable ASCII. -/
  floatRepr_plain : ∀ q, PlainText (floatRepr q)
  /-- Nothing below `256` is normalised to a delimiter of a URL. -/
  netlocError_latin1 : ∀ t, Latin1Text t → cp '[' ∉ t → netlocError t = none

/-- The instance that knows ASCII only: case mapping, white space and digits as
the documentation lists them there, and every other code point left alone. It knows
no address that a URL may hold in brackets. -/
@[reducible] def Interpreter.ascii : Interpreter where
  lower := fun t => t.map asciiLower
  upper := fun t => t.map asciiUpper
  isSpace := latin1Space
  decimal := asciiDigit?
  isPrintable := fun c => decide (32 ≤ c.val ∧ c.val ≤ 126)
  floatRepr := fun q => intText q.num ++ cp '.' :: natText q.den
  floatParse := fun _ => .nan
  floatOfText := fun _ => none
  fixed3 := fun _ => text "0.000"
  netlocError := fun t => if cp '[' ∈ t then some (.valueError "Invalid IPv6 URL") else none
  lower_ascii := fun _ _ => rfl
  upper_ascii := fun _ _ => rfl
  lower_lower := fun t => by
    rw [List.map_map]
    exact List.map_congr_left fun c _ => asciiLower_asciiLower c
  upper_upper := fun t => by
    rw [List.map_map]
    exact List.map_congr_left fun c _ => asciiUpper_asciiUpper c
  isSpace_latin1 := fun _ _ => rfl
  decimal_latin1 := fun _ _ => rfl
  isPrintable_surrogate := fun c h => by
    simp only [isSurrogate, decide_eq_true_eq] at h
    simp only [decide_eq_false_iff_not]
    omega
  floatRepr_plain := fun q => plainText_append.mpr
    ⟨plainText_intText _, plainText_cons.mpr ⟨by decide, plainText_natText _⟩⟩
  netlocError_latin1 := fun _ _ h => if_neg h

export Interpreter (lower upper)

attribute [simp] Interpreter.lower_lower Interpreter.upper_upper

/-! ### Methods of `str` -/

/-- `sep in s` and `s.rsplit(sep, 1)[1]` for a one-character separator: the part
after the last separator, if there is one. -/
def afterLast (sep : CodePoint) : Text → Option Text
  | [] => none
  | c :: t =>
    match afterLast sep t with
    | some r => some r
    | none => if c = sep then some t else none

/-- `s.partition(sep)` for a one-character separator: the part before the first
separator, and the part after it (empty when there is none). -/
def partition (sep : CodePoint) : Text → Text × Text
  | [] => ([], [])
  | c :: t => if c = sep then ([], t) else ((c :: (partition sep t).1), (partition sep t).2)

/-- `s.rpartition(sep)` for a one-character separator: the part before the last
separator and the part after it; without a separator the whole text is the
second part. -/
def rpartition (sep : CodePoint) (t : Text) : Text × Text :=
  if sep ∈ t then ((partition sep t.reverse).2.reverse, (partition sep t.reverse).1.reverse)
  else ([], t)

/-- `sep.join(parts)`. -/
def join (sep : Text) : List Text → Text
  | [] => []
  | [p] => p
  | p :: ps => p ++ sep ++ join sep ps

/-- What follows the last separator of a text that ends with a separator. -/
theorem afterLast_append_singleton (sep : CodePoint) (s : Text) :
    afterLast sep (s ++ [sep]) = some [] := by
  induction s with
  | nil => simp [afterLast]
  | cons c s ih => rw [List.cons_append, afterLast, ih]

theorem partition_append_cons {sep : CodePoint} {s : Text} (h : sep ∉ s) (t : Text) :
    partition sep (s ++ sep :: t) = (s, t) := by
  induction s with
  | nil => simp [partition]
  | cons c s ih =>
    rw [List.mem_cons, not_or] at h
    rw [List.cons_append, partition, if_neg (Ne.symm h.1), ih h.2]

theorem partition_of_notMem {sep : CodePoint} {t : Text} (h : sep ∉ t) :
    partition sep t = (t, []) := by
  induction t with
  | nil => rfl
  | cons c t ih =>
    rw [List.mem_cons, not_or] at h
    rw [partition, if_neg (Ne.symm h.1), ih h.2]

/-- There is no separator before the first. -/
theorem notMem_partition (sep : CodePoint) (t : Text) : sep ∉ (partition sep t).1 := by
  induction t with
  | nil => simp [partition]
  | cons c t ih =>
    rw [partition]
    split
    · simp
    · next hc =>
      rw [List.mem_cons, not_or]
      exact ⟨fun he => hc he.symm, ih⟩

theorem mem_of_mem_partition {sep c : CodePoint} {t : Text}
    (h : c ∈ (partition sep t).1 ∨ c ∈ (partition sep t).2) : c ∈ t := by
  induction t with
  | nil => simp [partition] at h
  | cons d t ih =>
    rw [partition] at h
    split at h
    · exact List.mem_cons_of_mem _ (h.resolve_left (by simp))
    · rw [List.mem_cons, or_assoc] at h
      rcases h with rfl | h
      · exact List.mem_cons_self
      · exact List.mem_cons_of_mem _ (ih h)

theorem mem_of_mem_rpartition {sep c : CodePoint} {t : Text}
    (h : c ∈ (rpartition sep t).1 ∨ c ∈ (rpartition sep t).2) : c ∈ t := by
  unfold rpartition at h
  split at h
  · rw [List.mem_reverse, List.mem_reverse] at h
    exact List.mem_reverse.mp (mem_of_mem_partition h.symm)
  · exact h.resolve_left (by simp)

section Strip

variable [Interpreter]

/-- `s.lstrip()`. -/
def lstrip (t : Text) : Text := t.dropWhile Interpreter.isSpace

/-- `s.rstrip()`. -/
def rstrip (t : Text) : Text := (lstrip t.reverse).reverse

/-- `s.strip()`. -/
def strip (t : Text) : Text := rstrip (lstrip t)

theorem mem_of_mem_lstrip {c : CodePoint} {t : Text} (h : c ∈ lstrip t) : c ∈ t :=
  (List.dropWhile_sublist _).subset h

theorem mem_of_mem_strip {c : CodePoint} {t : Text} (h : c ∈ strip t) : c ∈ t := by
  have h' := mem_of_mem_lstrip (List.mem_reverse.mp h)
  exact mem_of_mem_lstrip (List.mem_reverse.mp h')

theorem Latin1Text.strip {t : Text} (h : Latin1Text t) : Latin1Text (strip t) := fun c hc =>
  h c (mem_of_mem_strip hc)

/-- White space at the end is all that `rstrip` removes. -/
theorem rstrip_append_cons {s : Text} {c : CodePoint} {t : Text}
    (hc : Interpreter.isSpace c = false) (ht : ∀ d ∈ t, Interpreter.isSpace d = true) :
    rstrip (s ++ c :: t) = s ++ [c] := by
  have hdrop : lstrip (t.reverse ++ c :: s.reverse) = c :: s.reverse := by
    rw [lstrip, List.dropWhile_append_of_pos fun d hd => ht d (List.mem_reverse.mp hd)]
    exact List.dropWhile_cons_of_neg (by simp [hc])
  have hrev : (s ++ c :: t).reverse = t.reverse ++ c :: s.reverse := by simp
  rw [rstrip, hrev, hdrop, List.reverse_cons, List.reverse_reverse]

/-- What strips to nothing is white space. -/
theorem isSpace_of_strip_eq_nil {t : Text} (h : strip t = []) :
    ∀ c ∈ t, Interpreter.isSpace c = true := by
  -- whatever `lstrip` leaves begins with no white space, so neither can it end there
  rw [strip, rstrip, List.reverse_eq_nil_iff, lstrip, List.dropWhile_eq_nil_iff] at h
  intro c hc
  by_contra hn
  have hl : lstrip t ≠ [] := by
    intro he
    exact hn (List.dropWhile_eq_nil_iff.mp he c hc)
  obtain ⟨d, r, hd⟩ := List.exists_cons_of_ne_nil hl
  have hspace := h d (by rw [List.mem_reverse, hd]; exact List.mem_cons_self)
  have hnot := List.head_dropWhile_not Interpreter.isSpace hl
  simp only [show t.dropWhile Interpreter.isSpace = d :: r from hd, List.head_cons] at hnot
  exact absurd hspace (by simp [hnot])

/-- Nothing is stripped from a text without white space. -/
theorem strip_of_not_isSpace {t : Text} (h : ∀ c ∈ t, Interpreter.isSpace c = false) :
    strip t = t := by
  have hl : ∀ s : Text, (∀ c ∈ s, Interpreter.isSpace c = false) → lstrip s = s := by
    intro s hs
    rw [lstrip, List.dropWhile_eq_self_iff]
    intro hpos hspace
    rw [hs _ (List.getElem_mem hpos)] at hspace
    exact Bool.false_ne_true hspace
  rw [strip, hl t h, rstrip, hl t.reverse fun c hc => h c (List.mem_reverse.mp hc),
    List.reverse_reverse]

theorem isSpace_of_lstrip {t : Text} (h : ∀ c ∈ lstrip t, Interpreter.isSpace c = true) :
    ∀ c ∈ t, Interpreter.isSpace c = true := by
  intro c hc
  rw [← List.takeWhile_append_dropWhile (p := Interpreter.isSpace) (l := t)] at hc
  rcases List.mem_append.mp hc with hc | hc
  · exact List.mem_takeWhile_imp hc
  · exact h c hc

end Strip

/-! ### Integer literals -/

section ParseInt

variable [Interpreter]

/-- The digits of an integer literal: decimal digits, a single underscore being
allowed between two of them. `acc` is the value so far, `digit` whether the last
code point was a digit. -/
def intDigits (acc : ℕ) (digit : Bool) : Text → Option ℕ
  | [] => if digit then some acc else none
  | c :: t =>
    match Interpreter.decimal c with
    | some d => intDigits (10 * acc + d) true t
    | none => if c = cp '_' ∧ digit = true then intDigits acc false t else none

/-- `int(s)`: white space around the literal is ignored, a sign may precede it;
`none` where `int` raises `ValueError`. As with `Python.natText`, the limit that the interpreter
sets on the number of digits is not modelled. -/
def parseInt (t : Text) : Option ℤ :=
  match strip t with
  | [] => none
  | c :: r =>
    if c = cp '-' then (intDigits 0 false r).map fun n => -(n : ℤ)
    else if c = cp '+' then (intDigits 0 false r).map fun n => (n : ℤ)
    else (intDigits 0 false (c :: r)).map fun n => (n : ℤ)

end ParseInt

end Python
