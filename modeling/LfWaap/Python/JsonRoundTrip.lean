import LfWaap.Python.JsonScan

/-!
# What reading a written document returns

`Python.loads` after `Python.dumps`. It is almost the identity, and the exact
statement says where it is not: every text of the document has its surrogate pairs
joined (`Python.Json.reread`). `Python.loads_dumps` is the round trip, from the
octets the program puts on the wire to the document a consumer computes with.

The induction is on the document and reads its text in front of an arbitrary
continuation (`Python.parseValue_dumps`); the fuel of the reader is spent at most
as fast as the text is used up.
-/

namespace Python

/-! ### The document a reader gets -/

mutual

/-- A document with the surrogate pairs of its texts joined. Names that become
equal are merged the way an object merges them. -/
def Json.reread : Json → Json
  | .str s => .str (joinSurrogates s)
  | .arr xs => .arr (rereadElems xs)
  | .obj ms => .obj (Dict.ofList (rereadMembers ms)).entries
  | d => d

/-- `Python.Json.reread` of the elements of a list. -/
def rereadElems : List Json → List Json
  | [] => []
  | x :: xs => x.reread :: rereadElems xs

/-- `Python.Json.reread` of the members of an object. -/
def rereadMembers : List (Text × Json) → List (Text × Json)
  | [] => []
  | (k, v) :: ms => (joinSurrogates k, v.reread) :: rereadMembers ms

end

/-! ### The text of a document -/

section

variable [Interpreter]

mutual

/-- **The text of a document is printable ASCII.** -/
theorem plainText_dumps : ∀ d : Json, PlainText (dumps d)
  | .null => by rw [dumps]; decide
  | .bool true => by rw [dumps]; decide
  | .bool false => by rw [dumps]; decide
  | .int i => by rw [dumps]; exact plainText_intText i
  | .float x => by rw [dumps]; exact plainText_floatText x
  | .str s => by rw [dumps]; exact plainText_quoteText s
  | .arr [] => by rw [dumps]; decide
  | .arr (x :: xs) => by
    rw [dumps, plainText_cons, plainText_append]
    exact ⟨by decide, plainText_dumps x, plainText_dumpsElems xs⟩
  | .obj [] => by rw [dumps]; decide
  | .obj ((k, v) :: ms) => by
    rw [dumps, plainText_cons, plainText_append, plainText_append, plainText_append]
    exact ⟨by decide, ⟨⟨plainText_quoteText k, by decide⟩, plainText_dumps v⟩,
      plainText_dumpsMembers ms⟩

/-- The elements of a list are written in printable ASCII. -/
theorem plainText_dumpsElems : ∀ xs : List Json, PlainText (dumpsElems xs)
  | [] => by rw [dumpsElems]; decide
  | x :: xs => by
    rw [dumpsElems, plainText_append, plainText_append]
    exact ⟨⟨by decide, plainText_dumps x⟩, plainText_dumpsElems xs⟩

/-- The members of an object are written in printable ASCII. -/
theorem plainText_dumpsMembers : ∀ ms : List (Text × Json), PlainText (dumpsMembers ms)
  | [] => by rw [dumpsMembers]; decide
  | (k, v) :: ms => by
    rw [dumpsMembers, plainText_append, plainText_append, plainText_append, plainText_append]
    exact ⟨⟨⟨⟨by decide, plainText_quoteText k⟩, by decide⟩, plainText_dumps v⟩,
      plainText_dumpsMembers ms⟩

end

/-! ### Documents that can be read back -/

/-- The notation of a float is read back. -/
def FloatReads (q : ℚ) : Prop :=
  ∀ rest, Delimited rest →
    scanNumber (Interpreter.floatRepr q ++ rest) = some (.float (.finite q), rest)

mutual

/-- All finite floats of a document are read back. -/
def Json.Readable : Json → Prop
  | .float (.finite q) => FloatReads q
  | .arr xs => ReadableElems xs
  | .obj ms => ReadableMembers ms
  | _ => True

/-- `Python.Json.Readable` of the elements of a list. -/
def ReadableElems : List Json → Prop
  | [] => True
  | x :: xs => x.Readable ∧ ReadableElems xs

/-- `Python.Json.Readable` of the members of an object. -/
def ReadableMembers : List (Text × Json) → Prop
  | [] => True
  | (_, v) :: ms => v.Readable ∧ ReadableMembers ms

end

/-! ### Tokens of a document -/

omit [Interpreter] in
theorem skipWs_of_head {c : CodePoint} (h : isJsonSpace c = false) (r : Text) :
    skipWs (c :: r) = c :: r := by
  rw [skipWs, List.dropWhile_cons, h, if_neg (by simp)]

omit [Interpreter] in
theorem skipWs_space (r : Text) : skipWs (cp ' ' :: r) = skipWs r := by
  rw [skipWs, List.dropWhile_cons, if_pos (by decide), skipWs]

/-- The first code point of a written document. -/
theorem head_dumps {d : Json} (hd : d.Readable) :
    ∃ c r, dumps d = c :: r ∧ isJsonSpace c = false ∧ c ≠ cp ']' := by
  have hnum : ∀ {t : Text} {p : Json × Text}, scanNumber t = some p →
      ∃ c r, t = c :: r ∧ isJsonSpace c = false ∧ c ≠ cp ']' := by
    intro t p ht
    obtain ⟨c, r, rfl, hc⟩ := head_of_scanNumber ht
    refine ⟨c, r, rfl, ?_⟩
    rcases hc with hd | ⟨rfl, -⟩
    · constructor
      · simp only [isJsonSpace, decide_eq_false_iff_not]
        omega
      · rintro rfl
        exact absurd hd (by decide)
    · exact ⟨by decide, by decide⟩
  cases d with
  | null => exact ⟨cp 'n', text "ull", by rw [dumps]; rfl, by decide, by decide⟩
  | bool b =>
    cases b with
    | true => exact ⟨cp 't', text "rue", by rw [dumps]; rfl, by decide, by decide⟩
    | false => exact ⟨cp 'f', text "alse", by rw [dumps]; rfl, by decide, by decide⟩
  | int i =>
    rw [dumps]
    have h := scanNumber_intText i delimited_nil
    rw [List.append_nil] at h
    exact hnum h
  | float x =>
    rcases x with _ | negative | q
    · exact ⟨cp 'N', text "aN", by rw [dumps, floatText]; rfl, by decide, by decide⟩
    · cases negative with
      | true => exact ⟨cp '-', text "Infinity", by rw [dumps, floatText]; rfl, by decide, by decide⟩
      | false => exact ⟨cp 'I', text "nfinity", by rw [dumps, floatText]; rfl, by decide, by decide⟩
    · rw [Json.Readable] at hd
      have h := hd [] delimited_nil
      rw [List.append_nil] at h
      rw [dumps, floatText]
      exact hnum h
  | str s => exact ⟨cp '"', _, by rw [dumps, quoteText], by decide, by decide⟩
  | arr xs =>
    cases xs with
    | nil => exact ⟨cp '[', text "]", by rw [dumps]; rfl, by decide, by decide⟩
    | cons x xs => exact ⟨cp '[', _, by rw [dumps], by decide, by decide⟩
  | obj ms =>
    rcases ms with _ | ⟨⟨k, v⟩, ms⟩
    · exact ⟨cp '{', text "\x7d", by rw [dumps]; rfl, by decide, by decide⟩
    · exact ⟨cp '{', _, by rw [dumps], by decide, by decide⟩

/-- No white space precedes a written document. -/
theorem skipWs_dumps {d : Json} (hd : d.Readable) (rest : Text) :
    skipWs (dumps d ++ rest) = dumps d ++ rest := by
  obtain ⟨c, r, hr, hc, -⟩ := head_dumps hd
  rw [hr, List.cons_append, skipWs_of_head hc]

theorem delimited_dumpsElems (xs : List Json) (rest : Text) :
    Delimited (dumpsElems xs ++ rest) := by
  cases xs with
  | nil =>
    rw [dumpsElems]
    exact delimited_cons (c := cp ']') (by decide) rest
  | cons x xs =>
    rw [dumpsElems]
    exact delimited_cons (c := cp ',') (by decide) _

theorem delimited_dumpsMembers (ms : List (Text × Json)) (rest : Text) :
    Delimited (dumpsMembers ms ++ rest) := by
  match ms with
  | [] =>
    rw [dumpsMembers]
    exact delimited_cons (c := cp '}') (by decide) rest
  | (k, v) :: ms =>
    rw [dumpsMembers]
    exact delimited_cons (c := cp ',') (by decide) _

omit [Interpreter] in
theorem length_le_flatMap_escapeChar (s : Text) : s.length ≤ (s.flatMap escapeChar).length := by
  induction s with
  | nil => simp
  | cons c s ih =>
    have hpos : 0 < (escapeChar c).length := by
      rcases escapeChar_cases c with ⟨e, -, h⟩ | ⟨-, -, h⟩ | ⟨-, h⟩ | ⟨-, h⟩ <;>
        simp [h, length_unitEscape]
    rw [List.flatMap_cons, List.length_append, List.length_cons]
    omega

omit [Interpreter] in
/-- Reading a written string in front of a continuation, with the fuel its caller
gives it. -/
theorem scanString_quoted (s rest : Text) :
    scanString ((s.flatMap escapeChar ++ [cp '"'] ++ rest).length + 1)
      (s.flatMap escapeChar ++ [cp '"'] ++ rest) = .ok (joinSurrogates s, rest) := by
  have hlen := length_le_flatMap_escapeChar s
  rw [List.append_assoc, List.singleton_append]
  refine scanString_written s rest _ ?_
  rw [List.length_append]
  omega

/-- A value that is neither a string nor a container is read as one token. -/
theorem parseValue_atom {t : Text} {p : Json × Text} (h : scanAtom t = .ok p) (n : ℕ)
    (hq : ∀ c r, t = c :: r → c ≠ cp '"' ∧ c ≠ cp '[' ∧ c ≠ cp '{') :
    parseValue (n + 1) t = .ok p := by
  cases t with
  | nil => exact absurd h (by simp [scanAtom, afterWord?, scanNumber, text])
  | cons c r =>
    obtain ⟨h₁, h₂, h₃⟩ := hq c r rfl
    rw [parseValue, if_neg h₁, if_neg h₂, if_neg h₃, h]

theorem parseValue_number {t : Text} {p : Json × Text} (h : scanNumber t = some p) (n : ℕ) :
    parseValue (n + 1) t = .ok p := by
  refine parseValue_atom (scanAtom_of_scanNumber h) n fun c r ht => ?_
  obtain ⟨c', r', ht', hc⟩ := head_of_scanNumber h
  obtain ⟨rfl, -⟩ := List.cons.inj (ht.symm.trans ht')
  rcases hc with hd | ⟨rfl, -⟩
  · refine ⟨?_, ?_, ?_⟩ <;>
      · rintro rfl
        exact absurd hd (by decide)
  · exact ⟨by decide, by decide, by decide⟩

/-! ### One step of a container -/

theorem parseElems_last {n : ℕ} {t r r' : Text} {x : Json} (hx : parseValue n t = .ok (x, r))
    (hr : skipWs r = cp ']' :: r') : parseElems (n + 1) t = .ok ([x], r') := by
  rw [parseElems, hx]
  simp only [hr, if_true]

theorem parseElems_more {n : ℕ} {t r r' r'' : Text} {x : Json} {xs : List Json}
    (hx : parseValue n t = .ok (x, r)) (hr : skipWs r = cp ',' :: r')
    (hxs : parseElems n (skipWs r') = .ok (xs, r'')) :
    parseElems (n + 1) t = .ok (x :: xs, r'') := by
  rw [parseElems, hx]
  simp only [hr, if_neg (show cp ',' ≠ cp ']' by decide), if_true, hxs]
  rfl

/-- Reading a written name, up to its value. -/
theorem parseMembers_name (n : ℕ) (k t : Text) :
    parseMembers (n + 1) (quoteText k ++ (text ": " ++ t)) =
      match parseValue n (skipWs t) with
      | .error e => .error e
      | .ok (v, r₂) =>
        match skipWs r₂ with
        | [] => .error (.jsonDecodeError "Expecting ',' delimiter")
        | e :: r₃ =>
          if e = cp '}' then .ok ([(joinSurrogates k, v)], r₃)
          else if e = cp ',' then
            (parseMembers n (skipWs r₃)).map fun p => ((joinSurrogates k, v) :: p.1, p.2)
          else .error (.jsonDecodeError "Expecting ',' delimiter") := by
  rw [quoteText, List.cons_append, parseMembers, if_pos rfl, scanString_quoted]
  have hcolon : skipWs (text ": " ++ t) = cp ':' :: cp ' ' :: t :=
    skipWs_of_head (c := cp ':') (by decide) _
  cases hv : parseValue n (skipWs t) with
  | error e => simp only [hcolon, if_true, skipWs_space, hv]
  | ok p =>
    obtain ⟨v, r₂⟩ := p
    cases hr : skipWs r₂ with
    | nil => simp only [hcolon, if_true, skipWs_space, hv, hr]
    | cons e r₃ => simp only [hcolon, if_true, skipWs_space, hv, hr]

theorem parseMembers_last {n : ℕ} {k t r r' : Text} {v : Json} (ht : skipWs t = t)
    (hv : parseValue n t = .ok (v, r)) (hr : skipWs r = cp '}' :: r') :
    parseMembers (n + 1) (quoteText k ++ (text ": " ++ t)) = .ok ([(joinSurrogates k, v)], r') := by
  rw [parseMembers_name, ht, hv]
  simp only [hr, if_true]

theorem parseMembers_more {n : ℕ} {k t r r' r'' : Text} {v : Json} {ms : List (Text × Json)}
    (ht : skipWs t = t) (hv : parseValue n t = .ok (v, r)) (hr : skipWs r = cp ',' :: r')
    (hms : parseMembers n (skipWs r') = .ok (ms, r'')) :
    parseMembers (n + 1) (quoteText k ++ (text ": " ++ t)) =
      .ok ((joinSurrogates k, v) :: ms, r'') := by
  rw [parseMembers_name, ht, hv]
  simp only [hr, if_neg (show cp ',' ≠ cp '}' by decide), if_true, hms]
  rfl

/-! ### The round trip -/

mutual

/-- **A written document is read back in front of any continuation.** -/
theorem parseValue_dumps : ∀ (d : Json), d.Readable → ∀ (n : ℕ) (rest : Text), Delimited rest →
    (dumps d).length ≤ n → parseValue n (dumps d ++ rest) = .ok (d.reread, rest)
  | d, hd, 0, rest, _, hn => by
    obtain ⟨c, r, hr, -⟩ := head_dumps hd
    rw [hr] at hn
    exact absurd hn (by simp)
  | .null, _, n + 1, rest, _, _ => by
    rw [dumps, Json.reread]
    · exact parseValue_atom (scanAtom_null rest) n (by rintro c r ⟨⟩; decide)
    all_goals exact fun _ h => absurd h (by simp)
  | .bool true, _, n + 1, rest, _, _ => by
    rw [dumps, Json.reread]
    · exact parseValue_atom (scanAtom_true rest) n (by rintro c r ⟨⟩; decide)
    all_goals exact fun _ h => absurd h (by simp)
  | .bool false, _, n + 1, rest, _, _ => by
    rw [dumps, Json.reread]
    · exact parseValue_atom (scanAtom_false rest) n (by rintro c r ⟨⟩; decide)
    all_goals exact fun _ h => absurd h (by simp)
  | .int i, _, n + 1, rest, hrest, _ => by
    rw [dumps, Json.reread]
    · exact parseValue_number (scanNumber_intText i hrest) n
    all_goals exact fun _ h => absurd h (by simp)
  | .float .nan, _, n + 1, rest, _, _ => by
    rw [dumps, floatText, Json.reread]
    · exact parseValue_atom (scanAtom_nan rest) n (by rintro c r ⟨⟩; decide)
    all_goals exact fun _ h => absurd h (by simp)
  | .float (.inf true), _, n + 1, rest, _, _ => by
    rw [dumps, floatText, Json.reread]
    · exact parseValue_atom (scanAtom_negInfinity rest) n (by rintro c r ⟨⟩; decide)
    all_goals exact fun _ h => absurd h (by simp)
  | .float (.inf false), _, n + 1, rest, _, _ => by
    rw [dumps, floatText, Json.reread]
    · exact parseValue_atom (scanAtom_infinity rest) n (by rintro c r ⟨⟩; decide)
    all_goals exact fun _ h => absurd h (by simp)
  | .float (.finite q), hd, n + 1, rest, hrest, _ => by
    rw [Json.Readable] at hd
    rw [dumps, floatText, Json.reread]
    · exact parseValue_number (hd rest hrest) n
    all_goals exact fun _ h => absurd h (by simp)
  | .str s, _, n + 1, rest, _, _ => by
    rw [dumps, Json.reread, quoteText, List.cons_append, parseValue, if_pos rfl,
      scanString_quoted]
    rfl
  | .arr [], _, n + 1, rest, _, _ => by
    rw [dumps, Json.reread, rereadElems]
    change parseValue (n + 1) (cp '[' :: cp ']' :: rest) = _
    rw [parseValue, if_neg (by decide), if_pos rfl, skipWs_of_head (by decide)]
    exact if_pos rfl
  | .arr (x :: xs), hd, n + 1, rest, hrest, hn => by
    rw [Json.Readable] at hd
    have hx := hd
    rw [ReadableElems] at hx
    obtain ⟨c, r, hr, hc, hne⟩ := head_dumps hx.1
    have hlen : (dumps x ++ dumpsElems xs).length ≤ n := by
      rw [dumps, List.length_cons] at hn
      omega
    have ih := parseElems_dumps x xs hd n rest hlen
    -- the first element does not start like the end of the list
    rw [dumps, List.cons_append, parseValue, if_neg (by decide), if_pos rfl, List.append_assoc,
      skipWs_dumps hx.1, hr, List.cons_append]
    simp only [if_neg hne]
    rw [← List.cons_append, ← hr, ← List.append_assoc, ih, Json.reread]
    rfl
  | .obj [], _, n + 1, rest, _, _ => by
    rw [dumps, Json.reread, rereadMembers]
    change parseValue (n + 1) (cp '{' :: cp '}' :: rest) = _
    rw [parseValue, if_neg (by decide), if_neg (by decide), if_pos rfl,
      skipWs_of_head (by decide)]
    exact if_pos rfl
  | .obj ((k, v) :: ms), hd, n + 1, rest, hrest, hn => by
    rw [Json.Readable] at hd
    have hlen : (quoteText k ++ text ": " ++ dumps v ++ dumpsMembers ms).length ≤ n := by
      rw [dumps, List.length_cons] at hn
      omega
    have ih := parseMembers_dumps k v ms hd n rest hlen
    rw [dumps, List.cons_append, parseValue, if_neg (by decide), if_neg (by decide), if_pos rfl]
    simp only [List.append_assoc, quoteText, List.cons_append] at ih ⊢
    rw [skipWs_of_head (by decide)]
    simp only [if_neg (show cp '"' ≠ cp '}' by decide)]
    rw [ih, Json.reread]
    rfl

/-- The elements of a list are read back. -/
theorem parseElems_dumps : ∀ (x : Json) (xs : List Json), ReadableElems (x :: xs) →
    ∀ (n : ℕ) (rest : Text), (dumps x ++ dumpsElems xs).length ≤ n →
      parseElems n (dumps x ++ dumpsElems xs ++ rest) = .ok (rereadElems (x :: xs), rest)
  | x, xs, hd, 0, rest, hn => by
    rw [ReadableElems] at hd
    obtain ⟨c, r, hr, -⟩ := head_dumps hd.1
    rw [hr] at hn
    exact absurd hn (by simp)
  | x, [], hd, n + 1, rest, hn => by
    rw [ReadableElems] at hd
    have hbr : (text "]").length = 1 := rfl
    rw [dumpsElems, List.length_append] at hn
    rw [dumpsElems, List.append_assoc]
    exact parseElems_last
      (parseValue_dumps x hd.1 n _ (delimited_cons (c := cp ']') (by decide) rest) (by omega))
      (skipWs_of_head (by decide) rest)
  | x, y :: ys, hd, n + 1, rest, hn => by
    rw [ReadableElems] at hd
    have hdy := hd.2
    rw [ReadableElems] at hdy
    have hlen : (dumpsElems (y :: ys)).length = 2 + (dumps y ++ dumpsElems ys).length := by
      rw [dumpsElems, List.append_assoc, List.length_append]
      rfl
    rw [List.length_append] at hn
    have hx := parseValue_dumps x hd.1 n (dumpsElems (y :: ys) ++ rest)
      (delimited_dumpsElems _ rest) (by omega)
    have ih := parseElems_dumps y ys hd.2 n rest (by omega)
    rw [List.append_assoc]
    have hsep : skipWs (dumpsElems (y :: ys) ++ rest) =
        cp ',' :: cp ' ' :: (dumps y ++ dumpsElems ys ++ rest) := by
      rw [dumpsElems]
      exact skipWs_of_head (c := cp ',') (by decide) _
    -- behind the comma stands one space, which the reader skips
    refine parseElems_more hx hsep ?_
    rw [skipWs_space, List.append_assoc, skipWs_dumps hdy.1, ← List.append_assoc, ih]

/-- The members of an object are read back. -/
theorem parseMembers_dumps : ∀ (k : Text) (v : Json) (ms : List (Text × Json)),
    ReadableMembers ((k, v) :: ms) → ∀ (n : ℕ) (rest : Text),
    (quoteText k ++ text ": " ++ dumps v ++ dumpsMembers ms).length ≤ n →
      parseMembers n (quoteText k ++ text ": " ++ dumps v ++ dumpsMembers ms ++ rest) =
        .ok (rereadMembers ((k, v) :: ms), rest)
  | k, v, ms, hd, 0, rest, hn => absurd hn (by simp [quoteText])
  | k, v, [], hd, n + 1, rest, hn => by
    rw [ReadableMembers] at hd
    have hk : 0 < (quoteText k).length := by simp [quoteText]
    simp only [List.length_append] at hn
    rw [dumpsMembers]
    simp only [List.append_assoc]
    exact parseMembers_last (skipWs_dumps hd.1 _)
      (parseValue_dumps v hd.1 n _ (delimited_cons (c := cp '}') (by decide) rest) (by omega))
      (skipWs_of_head (by decide) rest)
  | k, v, (k', v') :: ms, hd, n + 1, rest, hn => by
    rw [ReadableMembers] at hd
    have hk : 0 < (quoteText k).length := by simp [quoteText]
    have hlen : (dumpsMembers ((k', v') :: ms)).length =
        2 + (quoteText k' ++ text ": " ++ dumps v' ++ dumpsMembers ms).length := by
      have hsep : (text ", ").length = 2 := rfl
      rw [dumpsMembers]
      simp only [List.length_append]
      omega
    rw [List.length_append, List.length_append, List.length_append] at hn
    have hv := parseValue_dumps v hd.1 n (dumpsMembers ((k', v') :: ms) ++ rest)
      (delimited_dumpsMembers _ rest) (by omega)
    have ih := parseMembers_dumps k' v' ms hd.2 n rest (by omega)
    have hq : ∀ t, skipWs (quoteText k' ++ t) = quoteText k' ++ t := fun t =>
      skipWs_of_head (c := cp '"') (by decide) _
    simp only [List.append_assoc] at ih ⊢
    have hsep : skipWs (dumpsMembers ((k', v') :: ms) ++ rest) =
        cp ',' :: cp ' ' ::
          (quoteText k' ++ (text ": " ++ (dumps v' ++ (dumpsMembers ms ++ rest)))) := by
      rw [dumpsMembers]
      simp only [List.append_assoc]
      exact skipWs_of_head (c := cp ',') (by decide) _
    refine parseMembers_more (skipWs_dumps hd.1 _) hv hsep ?_
    rw [skipWs_space, hq, ih]

end

/-! ### From octets to octets -/

omit [Interpreter] in
/-- Printable octets carry no mark of another encoding. -/
theorem decodeDetected_asciiBytes {t : Text} (h : PlainText t) :
    decodeDetected (asciiBytes t) = .ok t := by
  have hutf := decodeUtf8_asciiBytes h.ascii
  have hrange : ∀ b ∈ asciiBytes t, 32 ≤ b.val ∧ b.val ≤ 126 := by
    intro b hb
    obtain ⟨c, hc, rfl⟩ := List.mem_map.mp hb
    have := h c hc
    rw [byte_val (by omega)]
    exact this
  have hmark : ∀ {m : Byte} {r : Bytes}, ¬(32 ≤ m.val ∧ m.val ≤ 126) →
      ¬(m :: r) <+: asciiBytes t := fun hm hp =>
    hm (hrange _ (hp.subset List.mem_cons_self))
  have hzero : ∀ b ∈ asciiBytes t, b ≠ 0 := by
    rintro b hb rfl
    exact absurd (hrange 0 hb) (by simp)
  -- no byte order mark, and no zero octet among the first ones
  rw [decodeDetected, if_neg (hmark (by decide)), if_neg (hmark (by decide)),
    if_neg (hmark (by decide)), if_neg (hmark (by decide)), if_neg (hmark (by decide)),
    decodeUnmarked.eq_def]
  split
  · next b₀ b₁ b₂ b₃ r heq =>
    rw [if_neg (hzero b₀ (by simp [heq])), if_neg (hzero b₁ (by simp [heq])), hutf]
  · next b₀ b₁ heq =>
    rw [if_neg (hzero b₀ (by simp [heq])), if_neg (hzero b₁ (by simp [heq])), hutf]
  · exact hutf

/-- `json.loads` undoes `json.dumps` on a `str`. -/
theorem loadsText_dumps {d : Json} (hd : d.Readable) : loadsText (dumps d) = .ok d.reread := by
  have h := parseValue_dumps d hd ((dumps d).length + 1) [] delimited_nil (by omega)
  rw [List.append_nil] at h
  have hws := skipWs_dumps hd []
  rw [List.append_nil] at hws
  rw [loadsText, hws, h]
  rfl

/-- **The round trip**: what is read from the octets of a written document is the
document, with the surrogate pairs of its texts joined. -/
theorem loads_dumps {d : Json} (hd : d.Readable) : loads (utf8 (dumps d)) = .ok d.reread := by
  rw [loads, utf8_ascii (plainText_dumps d).ascii, decodeDetected_asciiBytes (plainText_dumps d)]
  exact loadsText_dumps hd

end

end Python
