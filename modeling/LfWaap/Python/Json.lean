import LfWaap.Python.Encoding
import LfWaap.Python.Dict

/-!
# JSON documents and their text

The values a JSON document can hold, `str` and `repr` of them, and the two
directions of the standard codec: `Python.dumps` writes the text of a document
with every code point outside printable ASCII escaped, and `Python.loads` reads a
document from bytes, detecting the encoding first.

Three habits of the reader matter to what a program receives, and are modelled as
they are: a `\u` escape of a surrogate is accepted on its own, two such escapes
that form a pair are joined into one code point, and of two members with the same
name the later one wins, in the place of the earlier one. The depth of a document
and the number of digits of an integer are not limited here, which the
interpreter does by its configuration.
-/

namespace Python

/-! ### Documents -/

/-- A document. The members of an object are in insertion order. -/
inductive Json where
  | null
  | bool (b : Bool)
  | int (i : ℤ)
  | float (x : PyFloat)
  | str (s : Text)
  | arr (xs : List Json)
  | obj (members : List (Text × Json))

/-! ### The text of a string -/

/-- The code point of a surrogate pair. -/
def joinPair (h l : CodePoint) : CodePoint :=
  Fin.ofNat 0x110000 (0x10000 + (h.val - 0xD800) * 1024 + (l.val - 0xDC00))

/-- The one-letter escape of a code point, if it has one. -/
def shortEscape? (c : CodePoint) : Option CodePoint :=
  if c.val = 0x5C then some (cp '\\')
  else if c.val = 0x22 then some (cp '"')
  else if c.val = 8 then some (cp 'b')
  else if c.val = 12 then some (cp 'f')
  else if c.val = 10 then some (cp 'n')
  else if c.val = 13 then some (cp 'r')
  else if c.val = 9 then some (cp 't')
  else none

/-- A `\u` escape of a 16-bit unit. -/
def unitEscape (u : ℕ) : Text := cp '\\' :: cp 'u' :: hexText 4 u

/-- A code point inside a JSON string. -/
def escapeChar (c : CodePoint) : Text :=
  match shortEscape? c with
  | some e => [cp '\\', e]
  | none =>
    if 32 ≤ c.val ∧ c.val ≤ 126 then [c]
    else if c.val < 0x10000 then unitEscape c.val
    else unitEscape (0xD800 + (c.val - 0x10000) / 1024) ++
      unitEscape (0xDC00 + (c.val - 0x10000) % 1024)

/-- A JSON string. -/
def quoteText (s : Text) : Text := cp '"' :: (s.flatMap escapeChar ++ [cp '"'])

section Dumps

variable [Interpreter]

/-- A float in a document. -/
def floatText : PyFloat → Text
  | .nan => text "NaN"
  | .inf true => text "-Infinity"
  | .inf false => text "Infinity"
  | .finite q => Interpreter.floatRepr q

mutual

/-- `json.dumps(d)`. -/
def dumps : Json → Text
  | .null => text "null"
  | .bool true => text "true"
  | .bool false => text "false"
  | .int i => intText i
  | .float x => floatText x
  | .str s => quoteText s
  | .arr [] => text "[]"
  | .arr (x :: xs) => cp '[' :: (dumps x ++ dumpsElems xs)
  | .obj [] => text "\x7b\x7d"
  | .obj ((k, v) :: ms) => cp '{' :: (quoteText k ++ text ": " ++ dumps v ++ dumpsMembers ms)

/-- The elements of a list after the first, and its end. -/
def dumpsElems : List Json → Text
  | [] => text "]"
  | x :: xs => text ", " ++ dumps x ++ dumpsElems xs

/-- The members of an object after the first, and its end. -/
def dumpsMembers : List (Text × Json) → Text
  | [] => text "\x7d"
  | (k, v) :: ms => text ", " ++ quoteText k ++ text ": " ++ dumps v ++ dumpsMembers ms

end

end Dumps

/-! ### Reading a string -/

/-- The white space of JSON. -/
def isJsonSpace (c : CodePoint) : Bool :=
  decide (c.val = 32 ∨ c.val = 9 ∨ c.val = 10 ∨ c.val = 13)

/-- Skip white space. -/
def skipWs (t : Text) : Text := t.dropWhile isJsonSpace

/-- The value of a hexadecimal digit. -/
def hexValue? (c : CodePoint) : Option ℕ :=
  if 48 ≤ c.val ∧ c.val ≤ 57 then some (c.val - 48)
  else if 97 ≤ c.val ∧ c.val ≤ 102 then some (c.val - 87)
  else if 65 ≤ c.val ∧ c.val ≤ 70 then some (c.val - 55)
  else none

/-- Four hexadecimal digits. -/
def hex4? : Text → Option (ℕ × Text)
  | a :: b :: c :: d :: r =>
    match hexValue? a, hexValue? b, hexValue? c, hexValue? d with
    | some w, some x, some y, some z => some (((w * 16 + x) * 16 + y) * 16 + z, r)
    | _, _, _, _ => none
  | _ => none

/-- What a one-letter escape stands for. -/
def shortUnescape? (e : CodePoint) : Option CodePoint :=
  if e = cp '"' then some (cp '"')
  else if e = cp '\\' then some (cp '\\')
  else if e = cp '/' then some (cp '/')
  else if e = cp 'b' then some 8
  else if e = cp 'f' then some 12
  else if e = cp 'n' then some 10
  else if e = cp 'r' then some 13
  else if e = cp 't' then some 9
  else none

/-- The escape of a low surrogate at the head of a text, and what follows it. -/
def lowEscape? (t : Text) : Option (CodePoint × Text) :=
  match t with
  | a :: b :: r =>
    if a = cp '\\' ∧ b = cp 'u' then
      match hex4? r with
      | some (v, r') =>
        if isLowSurrogate (Fin.ofNat 0x110000 v) then some (Fin.ofNat 0x110000 v, r') else none
      | none => none
    else none
  | _ => none

/-- Put a code point in front of what a reader returns. -/
def consText (c : CodePoint) (r : Except PyError (Text × Text)) : Except PyError (Text × Text) :=
  r.map fun p => (c :: p.1, p.2)

/-- Read a string after its opening quote, up to its closing quote; `fuel` bounds
the number of code points read. -/
def scanString : ℕ → Text → Except PyError (Text × Text)
  | 0, _ => .error (.jsonDecodeError "Unterminated string starting at")
  | _ + 1, [] => .error (.jsonDecodeError "Unterminated string starting at")
  | n + 1, c :: r =>
    if c = cp '"' then .ok ([], r)
    else if c = cp '\\' then
      match r with
      | [] => .error (.jsonDecodeError "Unterminated string starting at")
      | e :: r =>
        if e = cp 'u' then
          match hex4? r with
          | none => .error (.jsonDecodeError "Invalid \\uXXXX escape")
          | some (u, r) =>
            match isHighSurrogate (Fin.ofNat 0x110000 u), lowEscape? r with
            | true, some (l, r') => consText (joinPair (Fin.ofNat 0x110000 u) l) (scanString n r')
            | _, _ => consText (Fin.ofNat 0x110000 u) (scanString n r)
        else
          match shortUnescape? e with
          | some d => consText d (scanString n r)
          | none => .error (.jsonDecodeError "Invalid \\escape")
    else if c.val < 32 then .error (.jsonDecodeError "Invalid control character at")
    else consText c (scanString n r)

/-! ### Reading a number -/

/-- A decimal digit. -/
def isDigit (c : CodePoint) : Bool := decide (48 ≤ c.val ∧ c.val ≤ 57)

/-- The value of a string of digits. -/
def digitsValue (ds : Text) : ℕ := ds.foldl (fun n c => 10 * n + (c.val - 48)) 0

/-- The integer part of a number: a zero, or digits that do not start with
one. -/
def intPart? : Text → Option (Text × Text)
  | [] => none
  | c :: r =>
    if c = cp '0' then some ([c], r)
    else if isDigit c then some ((c :: r).span isDigit) else none

/-- The fraction of a number, if it has one. -/
def fraction (t : Text) : Text × Text :=
  match t with
  | a :: b :: r =>
    if a = cp '.' ∧ isDigit b then (a :: ((b :: r).span isDigit).1, ((b :: r).span isDigit).2)
    else ([], t)
  | _ => ([], t)

/-- The exponent of a number, if it has one. -/
def exponent (t : Text) : Text × Text :=
  match t with
  | a :: b :: r =>
    if a = cp 'e' ∨ a = cp 'E' then
      if isDigit b then (a :: ((b :: r).span isDigit).1, ((b :: r).span isDigit).2)
      else
        match r with
        | d :: _ =>
          if (b = cp '+' ∨ b = cp '-') ∧ isDigit d then
            (a :: b :: (r.span isDigit).1, (r.span isDigit).2)
          else ([], t)
        | [] => ([], t)
    else ([], t)
  | _ => ([], t)

section Loads

variable [Interpreter]

/-- Read a number: an integer, or a float if it has a fraction or an
exponent. -/
def scanUnsigned (sign : Text) (t : Text) : Option (Json × Text) :=
  match intPart? t with
  | none => none
  | some (ip, r) =>
    if (fraction r).1 = [] ∧ (exponent (fraction r).2).1 = [] then
      some (.int (if sign = [] then (digitsValue ip : ℤ) else -(digitsValue ip : ℤ)), r)
    else
      some (.float (Interpreter.floatParse
        (sign ++ ip ++ (fraction r).1 ++ (exponent (fraction r).2).1)),
        (exponent (fraction r).2).2)

/-- Read a number with its sign. -/
def scanNumber (t : Text) : Option (Json × Text) :=
  match t with
  | [] => none
  | c :: r => if c = cp '-' then scanUnsigned [c] r else scanUnsigned [] (c :: r)

/-! ### Reading a document -/

/-- What follows a keyword at the head of a text. -/
def afterWord? (w t : Text) : Option Text := if w <+: t then some (t.drop w.length) else none

/-- Read a keyword or a number. -/
def scanAtom (t : Text) : Except PyError (Json × Text) :=
  match afterWord? (text "null") t with
  | some r => .ok (.null, r)
  | none =>
  match afterWord? (text "true") t with
  | some r => .ok (.bool true, r)
  | none =>
  match afterWord? (text "false") t with
  | some r => .ok (.bool false, r)
  | none =>
  match afterWord? (text "NaN") t with
  | some r => .ok (.float .nan, r)
  | none =>
  match afterWord? (text "Infinity") t with
  | some r => .ok (.float (.inf false), r)
  | none =>
  match afterWord? (text "-Infinity") t with
  | some r => .ok (.float (.inf true), r)
  | none =>
  match scanNumber t with
  | some r => .ok r
  | none => .error (.jsonDecodeError "Expecting value")

mutual

/-- Read a value; `fuel` bounds the nesting and the number of values read. -/
def parseValue : ℕ → Text → Except PyError (Json × Text)
  | 0, _ => .error (.jsonDecodeError "Expecting value")
  | _ + 1, [] => .error (.jsonDecodeError "Expecting value")
  | n + 1, c :: r =>
    if c = cp '"' then (scanString (r.length + 1) r).map fun p => (.str p.1, p.2)
    else if c = cp '[' then
      match skipWs r with
      | [] => .error (.jsonDecodeError "Expecting value")
      | d :: r' =>
        if d = cp ']' then .ok (.arr [], r')
        else (parseElems n (d :: r')).map fun p => (.arr p.1, p.2)
    else if c = cp '{' then
      match skipWs r with
      | [] => .error (.jsonDecodeError "Expecting property name enclosed in double quotes")
      | d :: r' =>
        if d = cp '}' then .ok (.obj [], r')
        else (parseMembers n (d :: r')).map fun p => (.obj (Dict.ofList p.1).entries, p.2)
    else scanAtom (c :: r)

/-- Read the elements of a list, from an element on. -/
def parseElems : ℕ → Text → Except PyError (List Json × Text)
  | 0, _ => .error (.jsonDecodeError "Expecting value")
  | n + 1, t =>
    match parseValue n t with
    | .error e => .error e
    | .ok (x, r) =>
      match skipWs r with
      | [] => .error (.jsonDecodeError "Expecting ',' delimiter")
      | d :: r' =>
        if d = cp ']' then .ok ([x], r')
        else if d = cp ',' then (parseElems n (skipWs r')).map fun p => (x :: p.1, p.2)
        else .error (.jsonDecodeError "Expecting ',' delimiter")

/-- Read the members of an object, from a name on. -/
def parseMembers : ℕ → Text → Except PyError (List (Text × Json) × Text)
  | 0, _ => .error (.jsonDecodeError "Expecting property name enclosed in double quotes")
  | _ + 1, [] => .error (.jsonDecodeError "Expecting property name enclosed in double quotes")
  | n + 1, c :: t =>
    if c = cp '"' then
      match scanString (t.length + 1) t with
      | .error e => .error e
      | .ok (k, r) =>
        match skipWs r with
        | [] => .error (.jsonDecodeError "Expecting ':' delimiter")
        | d :: r' =>
          if d = cp ':' then
            match parseValue n (skipWs r') with
            | .error e => .error e
            | .ok (v, r₂) =>
              match skipWs r₂ with
              | [] => .error (.jsonDecodeError "Expecting ',' delimiter")
              | e :: r₃ =>
                if e = cp '}' then .ok ([(k, v)], r₃)
                else if e = cp ',' then
                  (parseMembers n (skipWs r₃)).map fun p => ((k, v) :: p.1, p.2)
                else .error (.jsonDecodeError "Expecting ',' delimiter")
          else .error (.jsonDecodeError "Expecting ':' delimiter")
    else .error (.jsonDecodeError "Expecting property name enclosed in double quotes")

end

/-- `json.loads` of a `str`. -/
def loadsText (t : Text) : Except PyError Json :=
  match parseValue (t.length + 1) (skipWs t) with
  | .error e => .error e
  | .ok (d, r) => if skipWs r = [] then .ok d else .error (.jsonDecodeError "Extra data")

/-- `json.detect_encoding` without a byte order mark, followed by decoding: the
positions of zero octets among the first four decide. -/
def decodeUnmarked (b : Bytes) : Except PyError Text :=
  match b with
  | b₀ :: b₁ :: b₂ :: b₃ :: _ =>
    if b₀ = 0 then
      if b₁ = 0 then decodeWith (utf32Head true) b else decodeWith (utf16Head true) b
    else if b₁ = 0 then
      if b₂ = 0 ∧ b₃ = 0 then decodeWith (utf32Head false) b else decodeWith (utf16Head false) b
    else decodeUtf8 b
  | [b₀, b₁] =>
    if b₀ = 0 then decodeWith (utf16Head true) b
    else if b₁ = 0 then decodeWith (utf16Head false) b
    else decodeUtf8 b
  | _ => decodeUtf8 b

/-- `json.detect_encoding` followed by decoding: byte order marks come first. -/
def decodeDetected (b : Bytes) : Except PyError Text :=
  if [0x00, 0x00, 0xFE, 0xFF] <+: b then decodeWith (utf32Head true) (b.drop 4)
  else if [0xFF, 0xFE, 0x00, 0x00] <+: b then decodeWith (utf32Head false) (b.drop 4)
  else if [0xFE, 0xFF] <+: b then decodeWith (utf16Head true) (b.drop 2)
  else if [0xFF, 0xFE] <+: b then decodeWith (utf16Head false) (b.drop 2)
  else if [0xEF, 0xBB, 0xBF] <+: b then decodeUtf8 (b.drop 3)
  else decodeUnmarked b

/-- `json.loads` of `bytes`. -/
def loads (b : Bytes) : Except PyError Json := do
  let t ← decodeDetected b
  loadsText t

/-! ### `str` and `repr` of a value -/

/-- A code point inside the `repr` of a string that is quoted by `q`. -/
def reprChar (q c : CodePoint) : Text :=
  if c = q ∨ c = cp '\\' then [cp '\\', c]
  else if c.val = 9 then [cp '\\', cp 't']
  else if c.val = 10 then [cp '\\', cp 'n']
  else if c.val = 13 then [cp '\\', cp 'r']
  else if c.val < 32 ∨ c.val = 127 then backslashEscape c
  else if c.val < 127 ∨ Interpreter.isPrintable c then [c]
  else backslashEscape c

/-- `repr` of a string: in single quotes, unless it has some and no double
ones. -/
def reprText (s : Text) : Text :=
  let q := if cp '\'' ∈ s ∧ cp '"' ∉ s then cp '"' else cp '\''
  q :: (s.flatMap (reprChar q) ++ [q])

mutual

/-- `repr(d)`. -/
def pyRepr : Json → Text
  | .null => text "None"
  | .bool true => text "True"
  | .bool false => text "False"
  | .int i => intText i
  | .float .nan => text "nan"
  | .float (.inf true) => text "-inf"
  | .float (.inf false) => text "inf"
  | .float (.finite q) => Interpreter.floatRepr q
  | .str s => reprText s
  | .arr [] => text "[]"
  | .arr (x :: xs) => cp '[' :: (pyRepr x ++ reprElems xs)
  | .obj [] => text "\x7b\x7d"
  | .obj ((k, v) :: ms) => cp '{' :: (reprText k ++ text ": " ++ pyRepr v ++ reprMembers ms)

/-- The elements of a list after the first, and its end. -/
def reprElems : List Json → Text
  | [] => text "]"
  | x :: xs => text ", " ++ pyRepr x ++ reprElems xs

/-- The items of a dictionary after the first, and its end. -/
def reprMembers : List (Text × Json) → Text
  | [] => text "\x7d"
  | (k, v) :: ms => text ", " ++ reprText k ++ text ": " ++ pyRepr v ++ reprMembers ms

end

/-- `str(d)`: a string is itself, everything else its `repr`. -/
def pyStr : Json → Text
  | .str s => s
  | d => pyRepr d

end Loads

end Python
