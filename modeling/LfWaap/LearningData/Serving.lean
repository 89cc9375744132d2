import LfWaap.Hmm.HmmDetector
import LfWaap.LearningData.CsicTrafficSource
import LfWaap.Words.Doubling

/-!
# What the model is trained on, and what it is asked about

A row of the dataset becomes a flow twice over: as a reconstructed packet, on which models
are trained and evaluated, and, when the same request reaches the detector online, through
`http_request_to_flow`. The two serialisers agree on the layout of a request
(`LearningData.packetText`) and on nothing else:

* the packet is written in Latin-1 with backslash escapes, the request in UTF-8;
* the packet has header names in their usual case, the request has them in lower case;
* the packet repeats the version of the row, the request always says `HTTP/1.1`.

The model sees classes of bytes, and each of the three can be read off them. In Latin-1 a
code point from `128` to `255` is one byte of the class of high bytes, in UTF-8 it is two:
one of the two codings doubles a letter, and the lemmas about such codings
(`Words.agree_of_flatMap_eq`, `Words.agree_of_eq_flatMap`) compare the two packets from
the front, up to the spaces of the request line, and from the end, up to the last header.
So the same observation is made of exactly those rows that
`LearningData.WrittenAlike` describes (`LearningData.sameObservation_iff`): a row with a
single header is never among them.
-/

namespace LearningData

open Python Waf

variable [Interpreter]

/-! ### The request of a row -/

/-- **The request of a row**: the same method, the same target split at its first question
mark, the headers that are written, and the same body. -/
def servedRequest (fields : Dict Field Text) : Except PyError HttpRequest := do
  let (target, _) ← splitUrl (fields.getD .url [])
  let length ← contentLength fields
  let (path, query) := partition (cp '?') target
  let headers := (emittedHeaders fields length).map fun h => (h.1, Json.str h.2)
  return HttpRequest.new (requestMethod fields) path query (Dict.ofList headers)
    (fields.getD .body [])

/-- The two flows are the same observation: they have one partition key and one sequence
of byte classes, so that every model of byte classes assesses them alike. -/
structure SameObservation [Libraries] (served trained : Flow) : Prop where
  key : partitionKey served = partitionKey trained
  symbols : byteClassExtractor.extract served = byteClassExtractor.extract trained
  assessment : ∀ d : HmmDetector, d.settings.extractor = byteClassExtractor →
    d.assessFlow served = d.assessFlow trained

theorem sameObservation_of_symbols [Libraries] {served trained : Flow}
    (hkey : partitionKey served = partitionKey trained)
    (hsymbols : byteClassExtractor.extract served = byteClassExtractor.extract trained) :
    SameObservation served trained where
  key := hkey
  symbols := hsymbols
  assessment := fun d hd => by
    refine d.partitioned.assess_congr_flow hkey ?_
    rw [hd]
    exact hsymbols

/-! ### Byte classes of the two codings -/

/-- The classes of a text in Latin-1 with backslash escapes. -/
def latin1Classes (t : Text) : List ℕ := (encodeLatin1 t).map byteClass

/-- The classes of a text in UTF-8. -/
def utf8Classes (t : Text) : List ℕ := (t.flatMap escapedUtf8Char).map byteClass

omit [Interpreter] in
@[simp] theorem latin1Classes_append (s t : Text) :
    latin1Classes (s ++ t) = latin1Classes s ++ latin1Classes t := by
  simp [latin1Classes]

omit [Interpreter] in
@[simp] theorem utf8Classes_append (s t : Text) :
    utf8Classes (s ++ t) = utf8Classes s ++ utf8Classes t := by
  simp [utf8Classes]

omit [Interpreter] in
theorem latin1Classes_eq (t : Text) :
    latin1Classes t = t.flatMap fun c => (latin1Char c).map byteClass :=
  List.map_flatMap

omit [Interpreter] in
theorem utf8Classes_eq (t : Text) :
    utf8Classes t = t.flatMap fun c => (escapedUtf8Char c).map byteClass :=
  List.map_flatMap

omit [Interpreter] in
/-- On ASCII the two codings agree. -/
theorem latin1Classes_of_ascii {t : Text} (h : AsciiText t) : latin1Classes t = utf8Classes t := by
  rw [latin1Classes, utf8Classes, encodeLatin1_of_latin1 h.latin1, flatMap_escapedUtf8Char_ascii h]

omit [Interpreter] in
/-- The class of high bytes. -/
theorem byteClass_eq_seven_iff {b : Byte} : byteClass b = 7 ↔ 128 ≤ b.val := by
  unfold byteClass whitespace
  simp only [List.mem_cons, List.not_mem_nil, or_false]
  constructor
  · intro h
    split_ifs at h <;> omega
  · intro h
    split_ifs <;> omega

omit [Interpreter] in
theorem byteClass_byte_high {n : ℕ} (h : 128 ≤ n) (hn : n < 256) : byteClass (byte n) = 7 := by
  rw [byteClass_eq_seven_iff, byte_val hn]
  exact h

omit [Interpreter] in
/-- In UTF-8 a code point above ASCII is more than one high byte. -/
theorem utf8Char_classes {c : CodePoint} (h : ¬IsAscii c) :
    ∃ k, (utf8Char c).map byteClass = List.replicate (k + 2) 7 := by
  have hc : 128 ≤ c.val := Nat.le_of_not_lt h
  have hmax := c.isLt
  unfold utf8Char
  rw [if_neg (show ¬c.val < 0x80 from h)]
  split_ifs with h₂ h₃
  · refine ⟨0, ?_⟩
    rw [List.map_cons, List.map_cons, byteClass_byte_high (by omega) (by omega),
      byteClass_byte_high (by omega) (by omega)]
    rfl
  · refine ⟨1, ?_⟩
    rw [List.map_cons, List.map_cons, List.map_cons, byteClass_byte_high (by omega) (by omega),
      byteClass_byte_high (by omega) (by omega), byteClass_byte_high (by omega) (by omega)]
    rfl
  · refine ⟨2, ?_⟩
    rw [List.map_cons, List.map_cons, List.map_cons, List.map_cons,
      byteClass_byte_high (by omega) (by omega), byteClass_byte_high (by omega) (by omega),
      byteClass_byte_high (by omega) (by omega), byteClass_byte_high (by omega) (by omega)]
    rfl

omit [Interpreter] in
/-- With the handler it is at least one: a surrogate that stands for an octet is written as
this octet. -/
theorem escapedUtf8Char_classes {c : CodePoint} (h : ¬IsAscii c) :
    ∃ k, (escapedUtf8Char c).map byteClass = List.replicate (k + 1) 7 := by
  unfold escapedUtf8Char
  split
  · next he =>
    simp only [isEscapedByte, decide_eq_true_eq] at he
    refine ⟨0, ?_⟩
    rw [List.map_singleton, byteClass_byte_high (by omega) (by omega)]
    rfl
  · obtain ⟨k, hk⟩ := utf8Char_classes h
    exact ⟨k + 1, hk⟩

omit [Interpreter] in
/-- Below the surrogates the handler changes nothing. -/
theorem escapedUtf8Char_classes_latin1 {c : CodePoint} (h : ¬IsAscii c) (hc : c.val < 256) :
    ∃ k, (escapedUtf8Char c).map byteClass = List.replicate (k + 2) 7 := by
  have hne : isEscapedByte c = false := by
    simp only [isEscapedByte, decide_eq_false_iff_not]
    omega
  rw [escapedUtf8Char, hne]
  exact utf8Char_classes h

omit [Interpreter] in
/-- In Latin-1 a code point above ASCII is one high byte, or an escape. -/
theorem latin1Char_classes_high {c : CodePoint} (h : ¬IsAscii c) (hc : c.val < 256) :
    (latin1Char c).map byteClass = [7] := by
  rw [latin1Char_of_lt hc, List.map_singleton, byteClass_byte_high (Nat.le_of_not_lt h) hc]

omit [Interpreter] in
theorem latin1Char_classes_escape {c : CodePoint} (hc : ¬c.val < 256) :
    ∃ w, (latin1Char c).map byteClass = 6 :: w := by
  rw [latin1Char, if_neg hc]
  unfold backslashEscape
  split_ifs
  all_goals exact ⟨_, rfl⟩

omit [Interpreter] in
theorem classes_of_ascii {c : CodePoint} (h : IsAscii c) :
    ∃ x, x ≠ 7 ∧ (latin1Char c).map byteClass = [x] ∧ (escapedUtf8Char c).map byteClass = [x] := by
  have hc : c.val < 128 := h
  refine ⟨byteClass (byte c.val), ?_, ?_, ?_⟩
  · rw [Ne, byteClass_eq_seven_iff, byte_val (by omega)]
    omega
  · rw [latin1Char_of_lt (by omega)]
    rfl
  · rw [escapedUtf8Char_ascii h]
    rfl

omit [Interpreter] in
/-- **In Latin-1 and in UTF-8**, the classes of a code point below `256` differ as those of
a coding that doubles the class of high bytes. -/
theorem doubled_classes {c : CodePoint} (hc : c.val < 256) :
    Words.Doubled 7 ((latin1Char c).map byteClass) ((escapedUtf8Char c).map byteClass) := by
  by_cases h : IsAscii c
  · exact Or.inl (classes_of_ascii h)
  · obtain ⟨k, hk⟩ := escapedUtf8Char_classes_latin1 h hc
    exact Or.inr ⟨k, latin1Char_classes_high h hc, hk⟩

omit [Interpreter] in
/-- Above `256` the one escapes what the other writes in high bytes. -/
theorem coded_classes (c : CodePoint) :
    Words.Coded 7 ((latin1Char c).map byteClass) ((escapedUtf8Char c).map byteClass) := by
  by_cases hc : c.val < 256
  · exact (doubled_classes hc).coded
  · obtain ⟨w, hw⟩ := latin1Char_classes_escape hc
    obtain ⟨k, hk⟩ := escapedUtf8Char_classes fun h => hc (Nat.lt_trans h (by omega))
    exact Or.inr ⟨6, w, k, by omega, hw, hk⟩

omit [Interpreter] in
/-- The two codings of a code point have the same classes on ASCII only. -/
theorem ascii_of_classes {c : CodePoint}
    (h : (latin1Char c).map byteClass = (escapedUtf8Char c).map byteClass) : IsAscii c := by
  by_contra hn
  by_cases hc : c.val < 256
  · obtain ⟨k, hk⟩ := escapedUtf8Char_classes_latin1 hn hc
    rw [latin1Char_classes_high hn hc, hk] at h
    have hlen := congrArg List.length h
    rw [List.length_singleton, List.length_replicate] at hlen
    omega
  · obtain ⟨w, hw⟩ := latin1Char_classes_escape hc
    obtain ⟨k, hk⟩ := escapedUtf8Char_classes hn
    rw [hw, hk, List.replicate_succ] at h
    exact absurd (List.cons.inj h).1 (by omega)

omit [Interpreter] in
/-- **From the front**: where the classes agree up to a space, the texts before it are
ASCII, and the classes agree after it. -/
theorem ascii_of_latin1Classes_eq {s : Text} {r r' : List ℕ}
    (h : latin1Classes s ++ 1 :: r = utf8Classes s ++ r') : AsciiText s ∧ 1 :: r = r' := by
  rw [latin1Classes_eq, utf8Classes_eq] at h
  obtain ⟨hall, hr⟩ := Words.agree_of_flatMap_eq (fun c _ => coded_classes c) (by omega) h
  exact ⟨fun c hc => ascii_of_classes (hall c hc), hr⟩

omit [Interpreter] in
/-- **From the end**: where the classes agree from white space on, what precedes it agrees
too. -/
theorem prefix_of_latin1Classes_eq {s : Text} (hs : Latin1Text s) {r r' : List ℕ}
    (h : r ++ 1 :: latin1Classes s = r' ++ utf8Classes s) : r ++ [1] = r' := by
  rw [latin1Classes_eq, utf8Classes_eq] at h
  exact (Words.agree_of_eq_flatMap (fun c hc => doubled_classes (hs c hc)) (by omega) h).2

/-! ### The packets of a row -/

/-- The header names and values of the request: the names are in lower case. -/
def lowerNames (headers : List (Text × Text)) : List (Text × Text) :=
  headers.map fun h => (lower h.1, h.2)

theorem names_emittedHeaders (fields : Dict Field Text) (length : Text) :
    ((emittedHeaders fields length).map Prod.fst).Sublist (headerOrder.map Prod.snd) := by
  unfold emittedHeaders
  induction headerOrder with
  | nil => exact List.Sublist.slnil
  | cons h hs ih =>
    rw [List.filterMap_cons, List.map_cons]
    dsimp only
    split
    · exact ih.cons _
    · next he =>
      split at he
      · cases he
      · obtain rfl := Option.some.inj he
        exact ih.cons_cons _

theorem nodup_emittedHeaders (fields : Dict Field Text) (length : Text) :
    ((emittedHeaders fields length).map Prod.fst).Nodup := by
  have hnodup : (headerOrder.map Prod.snd).Nodup := by decide
  exact hnodup.sublist (names_emittedHeaders fields length)

/-- The names stay apart in lower case. -/
theorem nodup_lowerNames (fields : Dict Field Text) (length : Text) :
    ((lowerNames (emittedHeaders fields length)).map Prod.fst).Nodup := by
  have hascii : ∀ name ∈ headerOrder.map Prod.snd, AsciiText name := by decide
  have hnodup : ((headerOrder.map Prod.snd).map fun name => name.map asciiLower).Nodup := by decide
  have hsub := names_emittedHeaders fields length
  have hnames : (lowerNames (emittedHeaders fields length)).map Prod.fst =
      ((emittedHeaders fields length).map Prod.fst).map fun name => name.map asciiLower := by
    rw [lowerNames, List.map_map, List.map_map]
    refine List.map_congr_left fun h hh => ?_
    exact Interpreter.lower_ascii _ (hascii _ (hsub.subset (List.mem_map.mpr ⟨h, hh, rfl⟩)))
  rw [hnames]
  exact hnodup.sublist (hsub.map _)

/-- The headers of the request of a row. -/
theorem entries_lowerHeaders (fields : Dict Field Text) (length : Text) :
    (lowerHeaders (Dict.ofList ((emittedHeaders fields length).map fun h =>
        (h.1, Json.str h.2)))).entries =
      (lowerNames (emittedHeaders fields length)).map fun h => (h.1, Json.str h.2) := by
  have hnodup : (((emittedHeaders fields length).map fun h => (h.1, Json.str h.2)).map
      Prod.fst).Nodup := by
    rw [List.map_map]
    exact nodup_emittedHeaders fields length
  have hlower : (((emittedHeaders fields length).map fun h => (lower h.1, Json.str h.2)).map
      Prod.fst).Nodup := by
    have h := nodup_lowerNames fields length
    rw [lowerNames, List.map_map] at h
    rw [List.map_map]
    exact h
  rw [lowerHeaders, Dict.entries_ofList hnodup, List.map_map]
  refine (Dict.entries_ofList hlower).trans ?_
  rw [lowerNames, List.map_map]
  rfl

theorem servedRequest_eq_ok {fields : Dict Field Text} {target version length : Text}
    {request : HttpRequest} (hurl : splitUrl (fields.getD .url []) = .ok (target, version))
    (hlength : contentLength fields = .ok length) (hq : servedRequest fields = .ok request) :
    request = HttpRequest.new (requestMethod fields) (partition (cp '?') target).1
      (partition (cp '?') target).2
      (Dict.ofList ((emittedHeaders fields length).map fun h => (h.1, Json.str h.2)))
      (fields.getD .body []) := by
  unfold servedRequest at hq
  rw [hurl, ok_bind, hlength] at hq
  exact (Except.ok.inj hq).symm

/-- **The text that is encoded for the request of a row.** -/
theorem requestText_servedRequest {fields : Dict Field Text} {target version length : Text}
    {request : HttpRequest} (hurl : splitUrl (fields.getD .url []) = .ok (target, version))
    (hlength : contentLength fields = .ok length) (hq : servedRequest fields = .ok request) :
    requestText request = packetText (requestMethod fields) target (text "HTTP/1.1")
      (lowerNames (emittedHeaders fields length)) (fields.getD .body []) := by
  obtain ⟨path, query, hpath, htarget⟩ := splitUrl_eq_ok hurl
  have hmethod : upper (requestMethod fields) = requestMethod fields := Interpreter.upper_upper _
  have hjoin : joinTarget (partition (cp '?') target).1 (partition (cp '?') target).2 = target := by
    rw [htarget]
    exact joinTarget_partition hpath
  have hversion : text " HTTP/1.1\r\n" = text " " ++ text "HTTP/1.1" ++ text "\r\n" := by decide
  rw [servedRequest_eq_ok hurl hlength hq]
  unfold requestText packetText
  change upper (requestMethod fields) ++ text " " ++
    joinTarget (partition (cp '?') target).1 (partition (cp '?') target).2 ++
    text " HTTP/1.1\r\n" ++ (lowerHeaders _).entries.flatMap headerLine ++ text "\r\n" ++
    fields.getD .body [] = _
  rw [hmethod, hjoin, hversion, entries_lowerHeaders, List.flatMap_map]
  simp only [headerLine, pyStr_str, List.append_assoc]

/-! ### Comparing the packets -/

/-- **A header gives a packet away**: its name begins with a capital letter in the packet
and with a small one in the request. -/
theorem classes_ne_of_header {x y : List ℕ} {name value body : Text}
    (hname : name ∈ headerOrder.map Prod.snd) (hvalue : Latin1Text value)
    (hbody : Latin1Text body) :
    x ++ latin1Classes (name ++ text ": " ++ value ++ text "\r\n" ++ text "\r\n" ++ body) ≠
      y ++ utf8Classes (lower name ++ text ": " ++ value ++ text "\r\n" ++ text "\r\n" ++
        body) := by
  intro h
  have hascii : ∀ n ∈ headerOrder.map Prod.snd, AsciiText n := by decide
  have hcapital : ∀ n ∈ headerOrder.map Prod.snd,
      latin1Classes n ≠ utf8Classes (n.map asciiLower) := by decide
  have hlength : ∀ n ∈ headerOrder.map Prod.snd,
      (latin1Classes n).length = (utf8Classes (n.map asciiLower)).length := by decide
  have hline : latin1Classes (text "\r\n") = [1, 1] := by decide
  have hline' : utf8Classes (text "\r\n") = [1, 1] := by decide
  have hcolon : latin1Classes (text ": ") = [6, 1] := by decide
  have hcolon' : utf8Classes (text ": ") = [6, 1] := by decide
  simp only [latin1Classes_append, utf8Classes_append, hline, hline', hcolon, hcolon',
    Interpreter.lower_ascii name (hascii name hname)] at h
  -- the body, then the value of the header, are compared from the end
  have hend : x ++ latin1Classes name ++ [6, 1] ++ latin1Classes value ++ [1, 1, 1] ++
      1 :: latin1Classes body =
      y ++ utf8Classes (name.map asciiLower) ++ [6, 1] ++ utf8Classes value ++ [1, 1, 1, 1] ++
        utf8Classes body := by
    simpa using h
  have hcut := prefix_of_latin1Classes_eq hbody hend
  have hvalues : x ++ latin1Classes name ++ [6] ++ 1 :: latin1Classes value =
      y ++ utf8Classes (name.map asciiLower) ++ [6, 1] ++ utf8Classes value :=
    (List.append_left_inj [1, 1, 1, 1]).mp (by
      simpa only [List.append_assoc, List.cons_append, List.nil_append] using hcut)
  have hnames := prefix_of_latin1Classes_eq hvalue hvalues
  have hsame : x ++ latin1Classes name = y ++ utf8Classes (name.map asciiLower) :=
    (List.append_left_inj [6, 1]).mp (by
      simpa only [List.append_assoc, List.cons_append, List.nil_append] using hnames)
  exact hcapital name hname (List.append_inj_right' hsame (hlength name hname))

/-- **Packets with the same classes**: no header is written, method and target are ASCII,
and the version has the classes of `HTTP/1.1`. -/
theorem alike_of_classes {method target version body : Text} {headers : List (Text × Text)}
    (hnames : ∀ h ∈ headers, h.1 ∈ headerOrder.map Prod.snd)
    (hvalues : ∀ h ∈ headers, Latin1Text h.2) (hbody : Latin1Text body)
    (hnil : headers = [] → body = [])
    (h : latin1Classes (packetText method target version headers body) =
      utf8Classes (packetText method target (text "HTTP/1.1") (lowerNames headers) body)) :
    headers = [] ∧ AsciiText method ∧ AsciiText target ∧
      latin1Classes version = latin1Classes (text "HTTP/1.1") := by
  have hspace : latin1Classes (text " ") = [1] := by decide
  have hspace' : utf8Classes (text " ") = [1] := by decide
  have hversion : utf8Classes (text "HTTP/1.1") = latin1Classes (text "HTTP/1.1") := by decide
  have hline : latin1Classes (text "\r\n") = [1, 1] := by decide
  have hline' : utf8Classes (text "\r\n") = [1, 1] := by decide
  simp only [packetText, latin1Classes_append, utf8Classes_append, hspace, hspace',
    List.append_assoc, List.singleton_append] at h
  -- the request line is compared from the front, up to its two spaces
  obtain ⟨hmethod, h⟩ := ascii_of_latin1Classes_eq h
  obtain ⟨htarget, h⟩ := ascii_of_latin1Classes_eq (List.cons.inj h).2
  have htail := (List.cons.inj h).2
  rcases List.eq_nil_or_concat headers with rfl | ⟨init, last, rfl⟩
  · rw [hnil rfl, hline, hline', hversion] at htail
    exact ⟨rfl, hmethod, htarget, List.append_cancel_right htail⟩
  · -- the last header is followed by the empty line and the body
    refine absurd ?_ (classes_ne_of_header
      (x := latin1Classes version ++ [1, 1] ++ latin1Classes (init.flatMap fun h =>
        h.1 ++ text ": " ++ h.2 ++ text "\r\n"))
      (y := latin1Classes (text "HTTP/1.1") ++ [1, 1] ++ utf8Classes ((lowerNames init).flatMap
        fun h => h.1 ++ text ": " ++ h.2 ++ text "\r\n"))
      (hnames last (by simp)) (hvalues last (by simp)) hbody)
    simpa [lowerNames, hline, hline', hversion] using htail

omit [Interpreter] in
/-- The packets of a row without headers, whose method and target are ASCII. -/
theorem classes_of_alike {method target version : Text} (hmethod : AsciiText method)
    (htarget : AsciiText target)
    (hversion : latin1Classes version = latin1Classes (text "HTTP/1.1")) :
    latin1Classes (packetText method target version [] []) =
      utf8Classes (packetText method target (text "HTTP/1.1") [] []) := by
  have hspace : latin1Classes (text " ") = utf8Classes (text " ") := by decide
  have hline : latin1Classes (text "\r\n") = utf8Classes (text "\r\n") := by decide
  have hserved : latin1Classes (text "HTTP/1.1") = utf8Classes (text "HTTP/1.1") := by decide
  simp only [packetText, latin1Classes_append, utf8Classes_append, List.flatMap_nil,
    List.append_nil, latin1Classes_of_ascii hmethod, latin1Classes_of_ascii htarget, hspace, hline,
    hversion, hserved]

/-! ### The flows of a row -/

/-- **The rows that are written alike** by the two serialisers: all header cells are blank
and there is no body, method and target are ASCII, and the version falls into the byte
classes of `HTTP/1.1`. -/
structure WrittenAlike (fields : Dict Field Text) : Prop where
  headers : BlankHeaders fields
  body : fields.getD .body [] = []
  method : AsciiText (requestMethod fields)
  target : ∀ {target version}, splitUrl (fields.getD .url []) = .ok (target, version) →
    AsciiText target
  version : ∀ {target version}, splitUrl (fields.getD .url []) = .ok (target, version) →
    latin1Classes version = latin1Classes (text "HTTP/1.1")

omit [Interpreter] in
/-- A packet is never empty. -/
theorem classes_packetText_ne_nil (method target version body : Text)
    (headers : List (Text × Text)) :
    latin1Classes (packetText method target version headers body) ≠ [] ∧
      utf8Classes (packetText method target version headers body) ≠ [] := by
  have hline : latin1Classes (text "\r\n") = [1, 1] := by decide
  have hline' : utf8Classes (text "\r\n") = [1, 1] := by decide
  constructor
  · simp [packetText, hline]
  · simp [packetText, hline']

/-- The symbols of a request that becomes a flow. -/
theorem extract_served (port : ℤ) {t : Text} (h : utf8Classes t ≠ []) :
    byteClassExtractor.extract (Flow.new (text "http") port .inbound (t.flatMap escapedUtf8Char)) =
      .ok (utf8Classes t) :=
  congrArg Except.ok (if_neg h)

/-- The symbols of a packet. -/
theorem extract_recordToFlow (label method host : Text) {t : Text} (h : latin1Classes t ≠ []) :
    byteClassExtractor.extract (recordToFlow ⟨label, method, host, encodeLatin1 t⟩) =
      .ok (latin1Classes t) :=
  congrArg Except.ok (if_neg h)

/-- The partition of a flow with a payload depends on the number of its classes. -/
theorem partitionKey_congr {f g : Flow} (hprotocol : f.protocol = g.protocol)
    (hport : f.port = g.port) (hdirection : f.direction = g.direction)
    (hf : f.payload.map byteClass ≠ [])
    (hclasses : f.payload.map byteClass = g.payload.map byteClass) :
    partitionKey f = partitionKey g := by
  have hlength : ∀ f : Flow, f.payload.map byteClass ≠ [] →
      f.length = (f.payload.map byteClass).length := by
    intro f hf
    have hne : f.payload ≠ [] := fun h => hf (by rw [h]; rfl)
    rw [Flow.length, if_neg hne, List.length_map]
  rw [partitionKey, partitionKey, hprotocol, hport, hdirection, hlength f hf,
    hlength g (hclasses ▸ hf), hclasses]

/-- The request of a row written alike becomes a flow with the port where no other is
named. -/
theorem httpRequestToFlow_of_alike {fields : Dict Field Text} {target version length : Text}
    {request : HttpRequest} (hurl : splitUrl (fields.getD .url []) = .ok (target, version))
    (hlength : contentLength fields = .ok length) (hq : servedRequest fields = .ok request)
    (hnil : emittedHeaders fields length = []) (hbody : fields.getD .body [] = [])
    (hmethod : AsciiText (requestMethod fields)) (htarget : AsciiText target) :
    httpRequestToFlow request = .ok (Flow.new (text "http") defaultHttpPort .inbound
      ((packetText (requestMethod fields) target (text "HTTP/1.1") [] []).flatMap
        escapedUtf8Char)) := by
  have htext := requestText_servedRequest hurl hlength hq
  rw [hnil, hbody] at htext
  have hport : portOf request = .ok defaultHttpPort := by
    rw [servedRequest_eq_ok hurl hlength hq, hnil]
    rfl
  have hascii : AsciiText (packetText (requestMethod fields) target (text "HTTP/1.1") [] []) := by
    have hspace : AsciiText (text " ") := by decide
    have hversion : AsciiText (text "HTTP/1.1") := by decide
    have hline : AsciiText (text "\r\n") := by decide
    simp [packetText, hmethod, htarget, hspace, hversion, hline]
  have hpayload : encodeUtf8SurrogateEscape (requestText request) =
      .ok ((requestText request).flatMap escapedUtf8Char) :=
    if_pos (by
      rw [htext]
      exact encodableText_of_ascii hascii)
  rw [httpRequestToFlow, hport, hpayload, htext]
  rfl

/-- **The same observation** is made of the packet of a row and of its request exactly
when the row is written alike: with a header, a letter outside ASCII in the request line,
or another version, the model is asked about bytes it has not been trained on. -/
theorem sameObservation_iff [Libraries] {fields : Dict Field Text} (hfields : Latin1Fields fields)
    {record : PacketRecord} (hrecord : packetRecord fields = .ok record) {request : HttpRequest}
    (hrequest : servedRequest fields = .ok request) :
    (∃ served, httpRequestToFlow request = .ok served ∧
        SameObservation served (recordToFlow record)) ↔ WrittenAlike fields := by
  obtain ⟨raw, hraw, hrecord⟩ := exists_of_bind_eq_ok hrecord
  obtain rfl := Except.ok.inj hrecord
  obtain ⟨target, version, length, hurl, hlength, rfl⟩ := reconstruct_eq_ok hraw
  constructor
  · rintro ⟨served, hserved, hsame⟩
    obtain ⟨port, payload, -, hpayload, rfl⟩ := httpRequestToFlow_eq_ok hserved
    obtain rfl := encodeUtf8SurrogateEscape_eq_ok hpayload
    have htext := requestText_servedRequest hurl hlength hrequest
    have hsymbols := hsame.symbols
    rw [htext, extract_served _ (classes_packetText_ne_nil _ _ _ _ _).2,
      extract_recordToFlow _ _ _ (classes_packetText_ne_nil _ _ _ _ _).1] at hsymbols
    have hclasses := Except.ok.inj hsymbols
    obtain ⟨hnil, hmethod, htarget, hversion⟩ := alike_of_classes
      (fun h hh => (names_emittedHeaders fields length).subset (List.mem_map.mpr ⟨h, hh, rfl⟩))
      (emittedHeaders_latin1 hfields hlength) (hfields .body)
      (fun hnil => ((emittedHeaders_eq_nil_iff hlength).mp hnil).2) hclasses.symm
    obtain ⟨hblank, hbody⟩ := (emittedHeaders_eq_nil_iff hlength).mp hnil
    refine ⟨hblank, hbody, hmethod, ?_, ?_⟩
    · intro t v h
      obtain ⟨rfl, -⟩ := Prod.mk.inj (Except.ok.inj (h.symm.trans hurl))
      exact htarget
    · intro t v h
      obtain ⟨-, rfl⟩ := Prod.mk.inj (Except.ok.inj (h.symm.trans hurl))
      exact hversion
  · intro h
    have hnil := (emittedHeaders_eq_nil_iff hlength).mpr ⟨h.headers, h.body⟩
    refine ⟨_, httpRequestToFlow_of_alike hurl hlength hrequest hnil h.body h.method
      (h.target hurl), ?_⟩
    rw [hnil, h.body]
    have hclasses := (classes_of_alike h.method (h.target hurl) (h.version hurl)).symm
    have hne := classes_packetText_ne_nil (requestMethod fields) target
    -- with no header there is no value in the host cell either
    have hport : portFromHost (strip (fields.getD .host [])) = defaultHttpPort :=
      portFromHost_of_blank (h.headers (.host, text "Host") (by decide))
    refine sameObservation_of_symbols
      (partitionKey_congr rfl hport.symm rfl (hne _ _ _).2 hclasses) ?_
    rw [extract_served _ (hne _ _ _).2, extract_recordToFlow _ _ _ (hne _ _ _).1, hclasses]

omit [Interpreter] in
/-- A row with nothing but a path. -/
theorem sameObservation_path :
    let _ : Interpreter := .ascii
    let _ : Libraries := .memoryless
    let fields : Dict Field Text := Dict.ofList [(.url, text "/index.html"), (.label, text "0")]
    let record : PacketRecord :=
      { label := text "0", method := [], host := [],
        raw := asciiBytes (text "GET /index.html HTTP/1.1\r\n\r\n") }
    let request := HttpRequest.new (text "GET") (text "/index.html")
    packetRecord fields = .ok record ∧ servedRequest fields = .ok request ∧
      ∃ served, httpRequestToFlow request = .ok served ∧
        SameObservation served (recordToFlow record) := by
  intro _ _ fields record request
  have hrecord : packetRecord fields = .ok record := by decide
  have hrequest : servedRequest fields = .ok request := rfl
  have hfields : Latin1Fields fields := by
    intro key
    cases key <;> decide
  have hparts : splitUrl (fields.getD .url []) = .ok (text "/index.html", text "HTTP/1.1") := rfl
  refine ⟨hrecord, hrequest, (sameObservation_iff hfields hrecord hrequest).mpr ?_⟩
  refine ⟨by decide, rfl, by decide, ?_, ?_⟩
  · intro t v h
    obtain ⟨rfl, -⟩ := Prod.mk.inj (Except.ok.inj (h.symm.trans hparts))
    decide
  · intro t v h
    obtain ⟨-, rfl⟩ := Prod.mk.inj (Except.ok.inj (h.symm.trans hparts))
    rfl

omit [Interpreter] in
/-- **A row with a host** is trained on with `Host`, and served with `host`. -/
theorem not_sameObservation_host :
    let _ : Interpreter := .ascii
    let _ : Libraries := .memoryless
    let fields : Dict Field Text := Dict.ofList [(.url, text "/"), (.host, text "a")]
    let record : PacketRecord :=
      { label := [], method := [], host := text "a",
        raw := asciiBytes (text "GET / HTTP/1.1\r\nHost: a\r\n\r\n") }
    let request := HttpRequest.new (text "GET") (text "/") []
      (Dict.ofList [(text "Host", .str (text "a"))])
    let served := Flow.new (text "http") 80 .inbound
      (asciiBytes (text "GET / HTTP/1.1\r\nhost: a\r\n\r\n"))
    packetRecord fields = .ok record ∧ servedRequest fields = .ok request ∧
      httpRequestToFlow request = .ok served ∧ ¬SameObservation served (recordToFlow record) := by
  intro _ _ fields record request served
  have hport : portOf request = .ok 80 := rfl
  have htext : requestText request = text "GET / HTTP/1.1\r\nhost: a\r\n\r\n" := by decide
  have hserved : httpRequestToFlow request = .ok served := by
    rw [httpRequestToFlow, hport, htext, encodeUtf8SurrogateEscape_ascii (by decide)]
    rfl
  have hrequest : servedRequest fields = .ok request := by rfl
  refine ⟨by decide, hrequest, hserved, fun h => ?_⟩
  exact absurd h.symbols (by decide)

end LearningData
