import LfWaap.Python.JsonScan

/-!
# Built-in functions on the values of a document

What a program makes of a document it has read: indexing, `bool`, `int`, `float`,
`dict`, and the `str` of a value that is put into a text. They accept more than a
program means by them (`dict` takes a list of pairs, `int` takes a text), and what
they refuse is an exception; both are part of what a decoder accepts.

The `repr` of a value escapes every code point that is not printable, so a surrogate
reaches an encoder only as part of a value that is itself a text
(`Python.encodable_pyStr_iff`).
-/

namespace Python

/-! ### Indexing and truth -/

/-- The name of the type of a value. -/
def Json.typeName : Json → String
  | .null => "NoneType"
  | .bool _ => "bool"
  | .int _ => "int"
  | .float _ => "float"
  | .str _ => "str"
  | .arr _ => "list"
  | .obj _ => "dict"

/-- `document[name]`. -/
def Json.item (document : Json) (name : String) : Except PyError Json :=
  match document with
  | .obj ms =>
    match assocGet (text name) ms with
    | some v => .ok v
    | none => .error (.keyError name)
  | .arr _ => .error (.typeError "list indices must be integers or slices, not str")
  | .str _ => .error (.typeError "string indices must be integers, not 'str'")
  | d => .error (.typeError ("'" ++ d.typeName ++ "' object is not subscriptable"))

theorem text_injective {s t : String} (h : text s = text t) : s = t :=
  String.toList_injective ((List.map_injective_iff.mpr fun _ _ => cp_injective) h)

/-- Indexing an object member by member. -/
theorem Json.item_cons (name name' : String) (v : Json) (ms : List (Text × Json)) :
    (Json.obj ((text name, v) :: ms)).item name' =
      if name = name' then .ok v else (Json.obj ms).item name' := by
  simp only [item, assocGet]
  by_cases h : name = name'
  · rw [if_pos (congrArg text h), if_pos h]
  · rw [if_neg fun ht => h (text_injective ht), if_neg h]

/-- The value is this text. -/
def Json.isText (t : Text) : Json → Bool
  | .str s => decide (s = t)
  | _ => false

/-- `c in d` for a text `c` of one code point. -/
def Json.contains (c : CodePoint) : Json → Except PyError Bool
  | .str s => .ok (decide (c ∈ s))
  | .arr xs => .ok (xs.any (Json.isText [c]))
  | .obj ms => .ok (ms.any fun m => decide (m.1 = [c]))
  | d => .error (.typeError ("argument of type '" ++ d.typeName ++ "' is not iterable"))

/-- `bool(d)`. -/
def Json.truth : Json → Bool
  | .null => false
  | .bool b => b
  | .int i => decide (i ≠ 0)
  | .float x => decide (x ≠ .finite 0)
  | .str s => decide (s ≠ [])
  | .arr xs => !xs.isEmpty
  | .obj ms => !ms.isEmpty

/-! ### Numbers -/

/-- An integer that `float` converts: the conversion rounds to the nearest float
and overflows from the midpoint above the largest one on. -/
def FloatRange (i : ℤ) : Prop := i.natAbs < 2 ^ 1024 - 2 ^ 970

instance : DecidablePred FloatRange := fun i =>
  inferInstanceAs (Decidable (i.natAbs < 2 ^ 1024 - 2 ^ 970))

/-- The powers of two from `2 ^ 1024` on are beyond it. -/
theorem not_floatRange_two_pow : ¬FloatRange (2 ^ 1024) := by
  have htwo : Int.natAbs 2 = 2 := rfl
  rw [FloatRange, Int.natAbs_pow, htwo, not_lt]
  simp only [Nat.sub_le]

/-- The nearest number of 53 significant binary digits, the even one of two. -/
def roundToFloat (n : ℕ) : ℕ :=
  if n < 2 ^ 53 then n
  else
    let unit := 2 ^ (Nat.log2 n - 52)
    let m := n / unit
    if 2 * (n % unit) < unit ∨ 2 * (n % unit) = unit ∧ m % 2 = 0 then m * unit else (m + 1) * unit

/-- `float(i)`. -/
def floatOfInt (i : ℤ) : Except PyError PyFloat :=
  if FloatRange i then .ok (.finite (i.sign * roundToFloat i.natAbs))
  else .error (.overflowError "int too large to convert to float")

section

variable [Interpreter]

/-- `int(d)`. -/
def Json.toInt : Json → Except PyError ℤ
  | .int i => .ok i
  | .bool b => .ok (if b then 1 else 0)
  | .float .nan => .error (.valueError "cannot convert float NaN to integer")
  | .float (.inf _) => .error (.overflowError "cannot convert float infinity to integer")
  | .float (.finite q) => .ok (q.num.tdiv q.den)
  | .str s =>
    match parseInt s with
    | some i => .ok i
    | none => .error (.valueError "invalid literal for int() with base 10")
  | d => .error (.typeError
      ("int() argument must be a string, a bytes-like object or a real number, " ++
      "not '" ++ d.typeName ++ "'"))

@[simp] theorem Json.toInt_int (i : ℤ) : (Json.int i).toInt = .ok i := rfl

@[simp] theorem pyStr_str (s : Text) : pyStr (.str s) = s := rfl

/-- `float(d)`. -/
def Json.toFloat : Json → Except PyError PyFloat
  | .float x => .ok x
  | .int i => floatOfInt i
  | .bool b => .ok (.finite (if b then 1 else 0))
  | .str s =>
    match Interpreter.floatOfText s with
    | some x => .ok x
    | none => .error (.valueError "could not convert string to float")
  | d => .error (.typeError ("float() argument must be a string or a real number, not '" ++
      d.typeName ++ "'"))

@[simp] theorem Json.toFloat_float (x : PyFloat) : (Json.float x).toFloat = .ok x := rfl

end

/-! ### Dictionaries -/

/-- One element of the sequence a `dict` is built from: anything that has two
elements, the first of them hashable. -/
def Json.toPair (d : Json) : Except PyError (Json × Json) := do
  let (k, v) ← match d with
    | .arr [k, v] => .ok (k, v)
    | .str [k, v] => .ok (.str [k], .str [v])
    | .obj [(k, _), (v, _)] => .ok (.str k, .str v)
    | .arr _ | .str _ | .obj _ =>
      .error (.valueError "dictionary update sequence element has wrong length; 2 is required")
    | _ => .error (.typeError "cannot convert dictionary update sequence element to a sequence")
  match k with
  | .arr _ | .obj _ => .error (.typeError ("unhashable type: '" ++ k.typeName ++ "'"))
  | _ => .ok (k, v)

/-- `list(d)`: the elements of a list, the code points of a text, the names of an
object. -/
def Json.elements : Json → Except PyError (List Json)
  | .arr xs => .ok xs
  | .str s => .ok (s.map fun c => .str [c])
  | .obj ms => .ok (ms.map fun m => .str m.1)
  | d => .error (.typeError ("'" ++ d.typeName ++ "' object is not iterable"))

@[simp] theorem Json.elements_arr (xs : List Json) : (Json.arr xs).elements = .ok xs := rfl

/-- `dict(d)`, as the items it is filled with. -/
def Json.toItems : Json → Except PyError (List (Json × Json))
  | .obj ms => .ok (ms.map fun m => (.str m.1, m.2))
  | d => do (← d.elements).mapM Json.toPair

/-! ### Values inside a text -/

theorem asciiText_backslashEscape (c : CodePoint) : AsciiText (backslashEscape c) := by
  unfold backslashEscape
  split_ifs
  all_goals
    rw [asciiText_cons, asciiText_cons]
    exact ⟨by decide, by decide, (plainText_hexText _ _).ascii⟩

section

variable [Interpreter]

/-- A surrogate is escaped in a `repr`, whatever the quote. -/
theorem encodableText_reprChar {q : CodePoint} (hq : IsAscii q) (c : CodePoint) :
    EncodableText (reprChar q c) := by
  have hpair : ∀ d, IsAscii d → EncodableText [cp '\\', d] := by
    intro d hd
    exact encodableText_of_ascii (asciiText_cons.mpr ⟨by decide, by simp [hd]⟩)
  have hesc := encodableText_of_ascii (asciiText_backslashEscape c)
  unfold reprChar
  split_ifs with h₁ h₂ h₃ h₄ h₅ h₆
  · rcases h₁ with rfl | rfl
    · exact hpair c hq
    · exact hpair _ (by decide)
  · exact hpair _ (by decide)
  · exact hpair _ (by decide)
  · exact hpair _ (by decide)
  · exact hesc
  · -- the code point stands for itself, so it is ASCII or printable
    intro d hd
    obtain rfl := List.mem_singleton.mp hd
    intro hs
    rcases h₆ with hlt | hp
    · simp only [isSurrogate, decide_eq_true_eq] at hs
      omega
    · rw [Interpreter.isPrintable_surrogate d hs] at hp
      exact absurd hp (by simp)
  · exact hesc

theorem encodableText_reprText (s : Text) : EncodableText (reprText s) := by
  have hquote : ∀ q, IsAscii q → EncodableText (q :: (s.flatMap (reprChar q) ++ [q])) := by
    intro q hq c hc
    rw [List.mem_cons, List.mem_append, List.mem_flatMap, List.mem_singleton] at hc
    rcases hc with rfl | ⟨d, -, hc⟩ | rfl
    · exact encodable_of_ascii hq
    · exact encodableText_reprChar hq d c hc
    · exact encodable_of_ascii hq
  unfold reprText
  dsimp only
  split
  · exact hquote _ (by decide)
  · exact hquote _ (by decide)

mutual

/-- **The `repr` of a value can be encoded.** -/
theorem encodableText_pyRepr : ∀ d : Json, EncodableText (pyRepr d)
  | .null => by rw [pyRepr]; decide
  | .bool true => by rw [pyRepr]; decide
  | .bool false => by rw [pyRepr]; decide
  | .int i => by rw [pyRepr]; exact encodableText_of_ascii (plainText_intText i).ascii
  | .float .nan => by rw [pyRepr]; decide
  | .float (.inf true) => by rw [pyRepr]; decide
  | .float (.inf false) => by rw [pyRepr]; decide
  | .float (.finite q) => by
    rw [pyRepr]
    exact encodableText_of_ascii (Interpreter.floatRepr_plain q).ascii
  | .str s => by rw [pyRepr]; exact encodableText_reprText s
  | .arr [] => by rw [pyRepr]; decide
  | .arr (x :: xs) => by
    rw [pyRepr, encodableText_cons, encodableText_append]
    exact ⟨by decide, encodableText_pyRepr x, encodableText_reprElems xs⟩
  | .obj [] => by rw [pyRepr]; decide
  | .obj ((k, v) :: ms) => by
    rw [pyRepr, encodableText_cons, encodableText_append, encodableText_append,
      encodableText_append]
    exact ⟨by decide, ⟨⟨encodableText_reprText k, by decide⟩, encodableText_pyRepr v⟩,
      encodableText_reprMembers ms⟩

/-- The elements of a list have a `repr` that can be encoded. -/
theorem encodableText_reprElems : ∀ xs : List Json, EncodableText (reprElems xs)
  | [] => by rw [reprElems]; decide
  | x :: xs => by
    rw [reprElems, encodableText_append, encodableText_append]
    exact ⟨⟨by decide, encodableText_pyRepr x⟩, encodableText_reprElems xs⟩

/-- The items of a dictionary have a `repr` that can be encoded. -/
theorem encodableText_reprMembers : ∀ ms : List (Text × Json), EncodableText (reprMembers ms)
  | [] => by rw [reprMembers]; decide
  | (k, v) :: ms => by
    rw [reprMembers, encodableText_append, encodableText_append, encodableText_append,
      encodableText_append]
    exact ⟨⟨⟨⟨by decide, encodableText_reprText k⟩, by decide⟩, encodableText_pyRepr v⟩,
      encodableText_reprMembers ms⟩

end

/-- **The `str` of a value can be encoded** unless the value is a text that
cannot. -/
theorem encodable_pyStr_iff {d : Json} :
    EncodableText (pyStr d) ↔ ∀ s, d = .str s → EncodableText s := by
  constructor
  · rintro h s rfl
    exact h
  · intro h
    cases d with
    | str s => exact h s rfl
    | _ => exact encodableText_pyRepr _

end

end Python
