import LfWaap.Python.Text

/-!
# Base64

`base64.b64encode` and `base64.b64decode` with their default arguments. The
decoder is lenient: it works through the text with a position inside the current
group of four digits, skips every character that is no digit, and stops at the
padding that completes a group. `Python.b64decode_b64encode` is the round trip; the
induction follows the groups of three octets of the encoder.
-/

namespace Python

/-! ### Encoding -/

/-- The digit of a number below `64`. -/
def b64Digit (v : ℕ) : CodePoint :=
  Fin.ofNat 0x110000
    (if v < 26 then 65 + v else if v < 52 then 71 + v else if v < 62 then v - 4
      else if v = 62 then 43 else 47)

/-- `base64.b64encode(b).decode("ascii")`: groups of three octets become four
digits, and the last group is padded. -/
def b64encode : Bytes → Text
  | [] => []
  | [a] => [b64Digit (a.val / 4), b64Digit (a.val % 4 * 16), cp '=', cp '=']
  | [a, b] =>
    [b64Digit (a.val / 4), b64Digit (a.val % 4 * 16 + b.val / 16), b64Digit (b.val % 16 * 4),
      cp '=']
  | a :: b :: c :: r =>
    b64Digit (a.val / 4) :: b64Digit (a.val % 4 * 16 + b.val / 16) ::
      b64Digit (b.val % 16 * 4 + c.val / 64) :: b64Digit (c.val % 64) :: b64encode r

/-! ### Decoding -/

/-- The value of a digit. -/
def b64Value? (c : CodePoint) : Option ℕ :=
  if 65 ≤ c.val ∧ c.val ≤ 90 then some (c.val - 65)
  else if 97 ≤ c.val ∧ c.val ≤ 122 then some (c.val - 71)
  else if 48 ≤ c.val ∧ c.val ≤ 57 then some (c.val + 4)
  else if c.val = 43 then some 62
  else if c.val = 47 then some 63
  else none

/-- Work through a text. `quad` is the position inside the current group of four
digits, `left` the bits of the last digit that are still to be written, `pads` the
number of padding characters since the last digit. -/
def b64Loop (quad left pads : ℕ) : Text → Except PyError Bytes
  | [] =>
    if quad = 0 then .ok []
    else if quad = 1 then .error (.valueError "Invalid base64-encoded string")
    else .error (.valueError "Incorrect padding")
  | c :: r =>
    if c = cp '=' then
      -- padding ends the text once the group is full; before that it is skipped
      if 2 ≤ quad then
        if 4 ≤ quad + (pads + 1) then .ok [] else b64Loop quad left (pads + 1) r
      else b64Loop quad left pads r
    else
      match b64Value? c with
      -- what is no digit is skipped
      | none => b64Loop quad left pads r
      | some v =>
        if quad = 0 then b64Loop 1 v 0 r
        else if quad = 1 then (b64Loop 2 (v % 16) 0 r).map (byte (left * 4 + v / 16) :: ·)
        else if quad = 2 then (b64Loop 3 (v % 4) 0 r).map (byte (left * 16 + v / 4) :: ·)
        else (b64Loop 0 0 0 r).map (byte (left * 64 + v) :: ·)

/-- `base64.b64decode(s)` of a `str`, which must be ASCII. -/
def b64decode (t : Text) : Except PyError Bytes :=
  if AsciiText t then b64Loop 0 0 0 t
  else .error (.valueError "string argument should contain only ASCII characters")

/-! ### The round trip -/

theorem b64Digit_val {v : ℕ} (h : v < 64) :
    (b64Digit v).val =
      if v < 26 then 65 + v else if v < 52 then 71 + v else if v < 62 then v - 4
      else if v = 62 then 43 else 47 := by
  unfold b64Digit
  refine Nat.mod_eq_of_lt ?_
  split_ifs <;> omega

/-- A digit is read back. -/
theorem b64Value?_b64Digit {v : ℕ} (h : v < 64) : b64Value? (b64Digit v) = some v := by
  unfold b64Value?
  rw [b64Digit_val h]
  split_ifs <;> first | omega | exact congrArg some (by omega)

theorem b64Digit_ne_pad {v : ℕ} (h : v < 64) : b64Digit v ≠ cp '=' := by
  intro heq
  have hv := congrArg Fin.val heq
  have hp : (cp '=').val = 61 := rfl
  rw [b64Digit_val h, hp] at hv
  split_ifs at hv <;> omega

theorem plainText_b64encode (b : Bytes) : PlainText (b64encode b) := by
  have hdig : ∀ {v : ℕ}, v < 64 → 32 ≤ (b64Digit v).val ∧ (b64Digit v).val ≤ 126 := by
    intro v hv
    rw [b64Digit_val hv]
    split_ifs <;> omega
  have hpad : 32 ≤ (cp '=').val ∧ (cp '=').val ≤ 126 := by decide
  induction b using b64encode.induct with
  | case1 => simp [b64encode]
  | case2 a =>
    simp only [b64encode, plainText_cons, plainText_nil, and_true]
    exact ⟨hdig (by omega), hdig (by omega), hpad, hpad⟩
  | case3 a b =>
    simp only [b64encode, plainText_cons, plainText_nil, and_true]
    exact ⟨hdig (by omega), hdig (by omega), hdig (by omega), hpad⟩
  | case4 a b c r ih =>
    simp only [b64encode, plainText_cons]
    exact ⟨hdig (by omega), hdig (by omega), hdig (by omega), hdig (by omega), ih⟩

/-- One digit advances the position inside the group. -/
theorem b64Loop_digit (quad left pads : ℕ) {v : ℕ} (h : v < 64) (r : Text) :
    b64Loop quad left pads (b64Digit v :: r) =
      if quad = 0 then b64Loop 1 v 0 r
      else if quad = 1 then (b64Loop 2 (v % 16) 0 r).map (byte (left * 4 + v / 16) :: ·)
      else if quad = 2 then (b64Loop 3 (v % 4) 0 r).map (byte (left * 16 + v / 4) :: ·)
      else (b64Loop 0 0 0 r).map (byte (left * 64 + v) :: ·) := by
  rw [b64Loop, if_neg (b64Digit_ne_pad h), b64Value?_b64Digit h]

theorem byte_eq {a : Byte} {n : ℕ} (h : n = a.val) : byte n = a := by
  subst h
  exact Fin.ext (Nat.mod_eq_of_lt a.isLt)

theorem b64Loop_b64encode (b : Bytes) : b64Loop 0 0 0 (b64encode b) = .ok b := by
  induction b using b64encode.induct with
  | case1 => rfl
  | case2 a =>
    rw [b64encode, b64Loop_digit _ _ _ (by omega), if_pos rfl, b64Loop_digit _ _ _ (by omega),
      if_neg (by decide), if_pos rfl, byte_eq (a := a) (by omega)]
    rfl
  | case3 a b =>
    rw [b64encode, b64Loop_digit _ _ _ (by omega), if_pos rfl, b64Loop_digit _ _ _ (by omega),
      if_neg (by decide), if_pos rfl, b64Loop_digit _ _ _ (by omega), if_neg (by decide),
      if_neg (by decide), if_pos rfl, byte_eq (a := a) (by omega), byte_eq (a := b) (by omega)]
    rfl
  | case4 a b c r ih =>
    -- four digits bring the loop back to the start of a group
    rw [b64encode, b64Loop_digit _ _ _ (by omega), if_pos rfl, b64Loop_digit _ _ _ (by omega),
      if_neg (by decide), if_pos rfl, b64Loop_digit _ _ _ (by omega), if_neg (by decide),
      if_neg (by decide), if_pos rfl, b64Loop_digit _ _ _ (by omega), if_neg (by decide),
      if_neg (by decide), if_neg (by decide), ih, byte_eq (a := a) (by omega),
      byte_eq (a := b) (by omega), byte_eq (a := c) (by omega)]
    rfl

/-- **Decoding undoes encoding.** -/
theorem b64decode_b64encode (b : Bytes) : b64decode (b64encode b) = .ok b := by
  rw [b64decode, if_pos (plainText_b64encode b).ascii, b64Loop_b64encode]

end Python
