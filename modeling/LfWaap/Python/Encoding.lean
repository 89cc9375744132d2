import LfWaap.Python.Text

/-!
# Text as bytes

The codecs of the interpreter a network program meets: UTF-8, in the strict form
and with the two error handlers `surrogateescape` and `surrogatepass`, the two
other Unicode transformation formats, and Latin-1 with `backslashreplace`.

The handler is what decides the *domain* of an encoder. With `surrogateescape`
the code points `U+DC80` to `U+DCFF` stand for the undecodable octets they were
made from and are written back as these octets; every other surrogate is an
error. `Python.encodeUtf8SurrogateEscape_isOk_iff` states that domain. On ASCII
all codecs agree, one octet a code point (`Python.utf8_ascii`,
`Python.encodeLatin1_of_latin1`), and the decoder undoes it
(`Python.decodeUtf8_asciiBytes`).
-/

namespace Python

/-! ### UTF-8 -/

/-- The UTF-8 octets of a code point. A surrogate gets its three octets, which
only the handler `surrogatepass` writes or reads. -/
def utf8Char (c : CodePoint) : Bytes :=
  if c.val < 0x80 then [byte c.val]
  else if c.val < 0x800 then [byte (0xC0 + c.val / 64), byte (0x80 + c.val % 64)]
  else if c.val < 0x10000 then
    [byte (0xE0 + c.val / 4096), byte (0x80 + c.val / 64 % 64), byte (0x80 + c.val % 64)]
  else
    [byte (0xF0 + c.val / 262144), byte (0x80 + c.val / 4096 % 64),
      byte (0x80 + c.val / 64 % 64), byte (0x80 + c.val % 64)]

/-- `s.encode("utf-8")` of a text without surrogates. -/
def utf8 (t : Text) : Bytes := t.flatMap utf8Char

/-- The code points that stand for an undecodable octet: `U+DC80` to `U+DCFF`. -/
def isEscapedByte (c : CodePoint) : Bool := decide (0xDC80 ≤ c.val ∧ c.val ≤ 0xDCFF)

/-- A code point the handler `surrogateescape` can write: one that is no
surrogate, or that stands for an octet. -/
def Encodable (c : CodePoint) : Prop := isSurrogate c = true → isEscapedByte c = true

instance : DecidablePred Encodable := fun c =>
  inferInstanceAs (Decidable (isSurrogate c = true → isEscapedByte c = true))

/-- All code points of a text can be written by the handler
`surrogateescape`. -/
def EncodableText (t : Text) : Prop := ∀ c ∈ t, Encodable c

instance : DecidablePred EncodableText := fun t => List.decidableBAll Encodable t

@[simp] theorem encodableText_cons {c : CodePoint} {t : Text} :
    EncodableText (c :: t) ↔ Encodable c ∧ EncodableText t := by
  simp [EncodableText]

@[simp] theorem encodableText_append {s t : Text} :
    EncodableText (s ++ t) ↔ EncodableText s ∧ EncodableText t :=
  List.forall_mem_append

/-- The octets the handler `surrogateescape` writes for an encodable code
point. -/
def escapedUtf8Char (c : CodePoint) : Bytes :=
  if isEscapedByte c then [byte (c.val - 0xDC00)] else utf8Char c

/-- `s.encode("utf-8", errors="surrogateescape")`. -/
def encodeUtf8SurrogateEscape (t : Text) : Except PyError Bytes :=
  if EncodableText t then .ok (t.flatMap escapedUtf8Char)
  else .error (.unicodeEncodeError "'utf-8' codec can't encode: surrogates not allowed")

/-- **The domain of the encoder**: it returns exactly on the texts all of whose
surrogates stand for octets. -/
theorem encodeUtf8SurrogateEscape_isOk_iff {t : Text} :
    (∃ b, encodeUtf8SurrogateEscape t = .ok b) ↔ EncodableText t := by
  unfold encodeUtf8SurrogateEscape
  constructor
  · rintro ⟨b, hb⟩
    by_contra hn
    rw [if_neg hn] at hb
    exact absurd hb (by simp)
  · intro h
    exact ⟨_, if_pos h⟩

theorem encodeUtf8SurrogateEscape_eq_ok {t : Text} {b : Bytes}
    (h : encodeUtf8SurrogateEscape t = .ok b) : b = t.flatMap escapedUtf8Char := by
  unfold encodeUtf8SurrogateEscape at h
  split at h
  · exact (Except.ok.inj h).symm
  · cases h

/-- An octet of the middle or the end of a UTF-8 sequence. -/
def isTail (b : Byte) : Bool := decide (0x80 ≤ b.val ∧ b.val < 0xC0)

/-- A code point from its number, when there is one. -/
def codePoint? (n : ℕ) : Option CodePoint := if h : n < 0x110000 then some ⟨n, h⟩ else none

/-- The first code point of a UTF-8 sequence read with `surrogatepass`, and what
follows it. Overlong forms and numbers above `U+10FFFF` are refused. -/
def utf8Head : Bytes → Option (CodePoint × Bytes)
  | [] => none
  | a :: r =>
    if a.val < 0x80 then (codePoint? a.val).map fun c => (c, r)
    else if 0xC2 ≤ a.val ∧ a.val ≤ 0xDF then
      match r with
      | b :: r => if isTail b then
          (codePoint? (a.val % 32 * 64 + b.val % 64)).map fun c => (c, r) else none
      | _ => none
    else if 0xE0 ≤ a.val ∧ a.val ≤ 0xEF then
      match r with
      | b :: c :: r => if isTail b ∧ isTail c ∧
            0x800 ≤ a.val % 16 * 4096 + b.val % 64 * 64 + c.val % 64 then
          (codePoint? (a.val % 16 * 4096 + b.val % 64 * 64 + c.val % 64)).map fun p => (p, r)
        else none
      | _ => none
    else if 0xF0 ≤ a.val ∧ a.val ≤ 0xF4 then
      match r with
      | b :: c :: d :: r => if isTail b ∧ isTail c ∧ isTail d ∧
            0x10000 ≤ a.val % 8 * 262144 + b.val % 64 * 4096 + c.val % 64 * 64 + d.val % 64 then
          (codePoint? (a.val % 8 * 262144 + b.val % 64 * 4096 + c.val % 64 * 64 + d.val % 64)).map
            fun p => (p, r)
        else none
      | _ => none
    else none

/-! ### UTF-16 and UTF-32 -/

/-- A two-octet unit. -/
def unit16 (bigEndian : Bool) (a b : Byte) : ℕ :=
  if bigEndian then a.val * 256 + b.val else b.val * 256 + a.val

/-- The first code point of a UTF-16 sequence read with `surrogatepass`: a pair
of surrogates is joined, a lone one is kept. -/
def utf16Head (bigEndian : Bool) : Bytes → Option (CodePoint × Bytes)
  | a :: b :: c :: d :: r =>
    if 0xD800 ≤ unit16 bigEndian a b ∧ unit16 bigEndian a b ≤ 0xDBFF ∧
        0xDC00 ≤ unit16 bigEndian c d ∧ unit16 bigEndian c d ≤ 0xDFFF then
      (codePoint? (0x10000 + (unit16 bigEndian a b - 0xD800) * 1024 +
        (unit16 bigEndian c d - 0xDC00))).map fun p => (p, r)
    else (codePoint? (unit16 bigEndian a b)).map fun p => (p, c :: d :: r)
  | a :: b :: r => (codePoint? (unit16 bigEndian a b)).map fun p => (p, r)
  | _ => none

/-- The first code point of a UTF-32 sequence read with `surrogatepass`. -/
def utf32Head (bigEndian : Bool) : Bytes → Option (CodePoint × Bytes)
  | a :: b :: c :: d :: r =>
    if bigEndian then (codePoint? (unit16 true a b * 65536 + unit16 true c d)).map fun p => (p, r)
    else (codePoint? (unit16 false c d * 65536 + unit16 false a b)).map fun p => (p, r)
  | _ => none

/-! ### Decoding a whole sequence -/

/-- Read code points until nothing is left; `fuel` bounds their number. -/
def decodeLoop (head : Bytes → Option (CodePoint × Bytes)) : ℕ → Bytes → Except PyError Text
  | _, [] => .ok []
  | 0, _ :: _ => .error (.unicodeDecodeError "invalid data")
  | fuel + 1, b :: bs =>
    match head (b :: bs) with
    | none => .error (.unicodeDecodeError "invalid data")
    | some (c, rest) => (decodeLoop head fuel rest).map fun t => c :: t

/-- `b.decode(...)` with a codec given by how it reads one code point. Every code
point takes at least one octet, so the length of the sequence is fuel enough. -/
def decodeWith (head : Bytes → Option (CodePoint × Bytes)) (b : Bytes) : Except PyError Text :=
  decodeLoop head b.length b

/-- `b.decode("utf-8", "surrogatepass")`. -/
def decodeUtf8 (b : Bytes) : Except PyError Text := decodeWith utf8Head b

/-! ### ASCII -/

/-- A text written one octet a code point. -/
def asciiBytes (t : Text) : Bytes := t.map fun c => byte c.val

theorem utf8Char_ascii {c : CodePoint} (h : IsAscii c) : utf8Char c = [byte c.val] :=
  if_pos h

/-- On ASCII, UTF-8 is one octet a code point. -/
theorem utf8_ascii {t : Text} (h : AsciiText t) : utf8 t = asciiBytes t := by
  induction t with
  | nil => rfl
  | cons c t ih =>
    obtain ⟨hc, ht⟩ := asciiText_cons.mp h
    rw [utf8, List.flatMap_cons, utf8Char_ascii hc]
    exact congrArg (byte c.val :: ·) (ih ht)

theorem not_isSurrogate_of_ascii {c : CodePoint} (h : IsAscii c) : isSurrogate c = false := by
  rw [IsAscii] at h
  simp only [isSurrogate, decide_eq_false_iff_not]
  omega

theorem encodable_of_ascii {c : CodePoint} (h : IsAscii c) : Encodable c := fun hs => by
  rw [not_isSurrogate_of_ascii h] at hs
  exact absurd hs (by simp)

theorem encodableText_of_ascii {t : Text} (h : AsciiText t) : EncodableText t :=
  fun c hc => encodable_of_ascii (h c hc)

theorem escapedUtf8Char_ascii {c : CodePoint} (h : IsAscii c) :
    escapedUtf8Char c = [byte c.val] := by
  have hne : isEscapedByte c = false := by
    rw [IsAscii] at h
    simp only [isEscapedByte, decide_eq_false_iff_not]
    omega
  rw [escapedUtf8Char, hne]
  exact utf8Char_ascii h

theorem flatMap_escapedUtf8Char_ascii {t : Text} (h : AsciiText t) :
    t.flatMap escapedUtf8Char = asciiBytes t := by
  induction t with
  | nil => rfl
  | cons c t ih =>
    obtain ⟨hc, ht⟩ := asciiText_cons.mp h
    rw [List.flatMap_cons, escapedUtf8Char_ascii hc, ih ht]
    rfl

/-- On ASCII, the handler has nothing to do. -/
theorem encodeUtf8SurrogateEscape_ascii {t : Text} (h : AsciiText t) :
    encodeUtf8SurrogateEscape t = .ok (asciiBytes t) := by
  rw [encodeUtf8SurrogateEscape, if_pos (encodableText_of_ascii h),
    flatMap_escapedUtf8Char_ascii h]

theorem utf8Head_ascii {c : CodePoint} (h : IsAscii c) (r : Bytes) :
    utf8Head (byte c.val :: r) = some (c, r) := by
  have hc : c.val < 0x80 := h
  have hv : (byte c.val : ℕ) = c.val := byte_val (by omega)
  have hlt : c.val < 0x110000 := by omega
  unfold utf8Head
  simp only [hv, hc, if_true, codePoint?, hlt, dif_pos, Option.map_some]

/-- **Decoding undoes encoding on ASCII.** -/
theorem decodeUtf8_asciiBytes {t : Text} (h : AsciiText t) :
    decodeUtf8 (asciiBytes t) = .ok t := by
  rw [decodeUtf8, decodeWith]
  induction t with
  | nil => rfl
  | cons c t ih =>
    obtain ⟨hc, ht⟩ := asciiText_cons.mp h
    -- one octet and one unit of fuel for each code point
    change decodeLoop utf8Head ((asciiBytes t).length + 1) (byte c.val :: asciiBytes t) = _
    rw [decodeLoop, utf8Head_ascii hc]
    change (decodeLoop utf8Head (asciiBytes t).length (asciiBytes t)).map _ = _
    rw [ih ht]
    rfl

/-! ### Latin-1 -/

/-- A hexadecimal digit in lower case. -/
def hexDigit (d : ℕ) : CodePoint :=
  Fin.ofNat 0x110000 (if d < 10 then 48 + d else 87 + d)

/-- `n` hexadecimal digits of a number. -/
def hexText : ℕ → ℕ → Text
  | 0, _ => []
  | n + 1, v => hexDigit (v / 16 ^ n % 16) :: hexText n v

/-- The escape the handler `backslashreplace` writes. -/
def backslashEscape (c : CodePoint) : Text :=
  if c.val < 0x100 then cp '\\' :: cp 'x' :: hexText 2 c.val
  else if c.val < 0x10000 then cp '\\' :: cp 'u' :: hexText 4 c.val
  else cp '\\' :: cp 'U' :: hexText 8 c.val

/-- The octets of a code point in Latin-1 with `backslashreplace`. -/
def latin1Char (c : CodePoint) : Bytes :=
  if c.val < 0x100 then [byte c.val] else asciiBytes (backslashEscape c)

/-- `s.encode("latin-1", errors="backslashreplace")`. -/
def encodeLatin1 (t : Text) : Bytes := t.flatMap latin1Char

/-- `s.encode("latin-1")`. -/
def encodeLatin1Strict (t : Text) : Except PyError Bytes :=
  if Latin1Text t then .ok (asciiBytes t)
  else .error (.unicodeEncodeError "'latin-1' codec can't encode: ordinal not in range(256)")

theorem latin1Char_of_lt {c : CodePoint} (h : c.val < 0x100) : latin1Char c = [byte c.val] :=
  if_pos h

/-- Latin-1 text is written one octet a code point. -/
theorem encodeLatin1_of_latin1 {t : Text} (h : Latin1Text t) : encodeLatin1 t = asciiBytes t := by
  induction t with
  | nil => rfl
  | cons c t ih =>
    obtain ⟨hc, ht⟩ := latin1Text_cons.mp h
    rw [encodeLatin1, List.flatMap_cons, latin1Char_of_lt hc]
    exact congrArg (byte c.val :: ·) (ih ht)

@[simp] theorem encodeLatin1_append (s t : Text) :
    encodeLatin1 (s ++ t) = encodeLatin1 s ++ encodeLatin1 t :=
  List.flatMap_append

end Python
