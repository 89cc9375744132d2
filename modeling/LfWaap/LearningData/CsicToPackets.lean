import LfWaap.Python.Dict
import LfWaap.Python.Encoding
import LfWaap.Python.Url

/-!
# The CSIC dataset as packets

`learning_data.csic_to_packets`: every row of the CSV file is one HTTP request, flattened
into columns. The columns are found by their names in the header row, the request is put
together again from the cells, and written as bytes.

The file is read in Latin-1, so that no cell holds a code point above `255`; this is a
field of `LearningData.CsvFile`. A row is written back in Latin-1, which is why a cell is
always encodable; what need not be Latin-1 any more is the method, which is upper-cased
(`LearningData.reconstruct_eq_ok` lists the parts of a reconstructed packet). Rows are
refused over the URL only, and only over brackets in it
(`LearningData.exists_reconstruct`).
-/

namespace LearningData

open Python

/-! ### Columns -/

/-- The semantic fields of a row. -/
inductive Field where
  | method
  | userAgent
  | pragma
  | cacheControl
  | accept
  | acceptEncoding
  | acceptCharset
  | acceptLanguage
  | host
  | cookie
  | contentType
  | connection
  | contentLength
  | body
  | url
  | label
  deriving DecidableEq, Repr

/-- The field of a normalised column name. -/
def columnAliases : List (Text × Field) :=
  [(text "method", .method), (text "useragent", .userAgent), (text "pragma", .pragma),
    (text "cachecontrol", .cacheControl), (text "accept", .accept),
    (text "acceptencoding", .acceptEncoding), (text "acceptcharset", .acceptCharset),
    (text "language", .acceptLanguage), (text "acceptlanguage", .acceptLanguage),
    (text "host", .host), (text "cookie", .cookie), (text "contenttype", .contentType),
    (text "connection", .connection),
    -- the misspelling of the dataset
    (text "lenght", .contentLength), (text "length", .contentLength),
    (text "contentlength", .contentLength), (text "content", .body), (text "body", .body),
    (text "payload", .body), (text "url", .url), (text "classification", .label),
    (text "class", .label), (text "label", .label)]

/-- The headers of a packet, in the order in which they are written. -/
def headerOrder : List (Field × Text) :=
  [(.host, text "Host"), (.userAgent, text "User-Agent"), (.pragma, text "Pragma"),
    (.cacheControl, text "Cache-Control"), (.accept, text "Accept"),
    (.acceptEncoding, text "Accept-Encoding"), (.acceptCharset, text "Accept-Charset"),
    (.acceptLanguage, text "Accept-Language"), (.cookie, text "Cookie"),
    (.contentType, text "Content-Type"), (.connection, text "Connection"),
    (.contentLength, text "Content-Length")]

/-- The labels of benign traffic. -/
def normalLabels : List Text := [text "normal", text "0"]

/-- The labels of attacks. -/
def anomalousLabels : List Text := [text "anomalous", text "anomaly", text "1"]

variable [Interpreter]

/-! ### Records -/

/-- **A reconstructed packet**, with the cells its flow and its label are read from. -/
structure PacketRecord where
  label : Text
  method : Text
  host : Text
  raw : Bytes
  deriving DecidableEq

/-- The packet as a sequence of byte values. -/
def PacketRecord.byteSequence (record : PacketRecord) : List ℕ := record.raw.map Fin.val

/-- The record is benign traffic. -/
def PacketRecord.isNormal (record : PacketRecord) : Bool :=
  decide (lower (strip record.label) ∈ normalLabels)

/-- The record is an attack. -/
def PacketRecord.isAnomalous (record : PacketRecord) : Bool :=
  decide (lower (strip record.label) ∈ anomalousLabels)

/-- No record is both. -/
theorem PacketRecord.not_isNormal_of_isAnomalous {record : PacketRecord}
    (h : record.isAnomalous = true) : record.isNormal = false := by
  have hdisjoint : ∀ t ∈ anomalousLabels, t ∉ normalLabels := by decide
  exact decide_eq_false (hdisjoint _ (of_decide_eq_true h))

/-! ### Cells -/

/-- A column name without case and separators. -/
def normalize (name : Text) : Text :=
  (lower name).filter fun c =>
    decide (97 ≤ c.val ∧ c.val ≤ 122 ∨ 48 ≤ c.val ∧ c.val ≤ 57)

/-- What follows a name in a text that begins with it, up to case. -/
def dropName : Text → Text → Option Text
  | [], t => some t
  | _ :: _, [] => none
  | c :: name, d :: t => if foldCase c = foldCase d then dropName name t else none

/-- What follows the name of a header and its colon in a cell that embeds them. -/
def embeddedValue (value headerName : Text) : Option Text :=
  match dropName headerName (lstrip value) with
  | none => none
  | some rest =>
    match lstrip rest with
    | c :: r => if c = cp ':' then some (lstrip r) else none
    | [] => none

/-- A cell without the name of its header, if it begins with it. -/
def stripKnownPrefix (value headerName : Text) : Text :=
  (embeddedValue value headerName).getD value

/-- The target and the version of a request line, from the cell of the URL. -/
def splitUrl (urlField : Text) : Except PyError (Text × Text) := do
  let urlField := strip urlField
  let (head, tail) := rpartition (cp ' ') urlField
  let (urlField, version) :=
    if head ≠ [] ∧ (text "HTTP/").isPrefixOf (upper tail) = true then (head, tail)
    else (urlField, text "HTTP/1.1")
  let parts ← urlsplit urlField
  let path := if parts.path = [] then text "/" else parts.path
  return (if parts.query = [] then path else path ++ text "?" ++ parts.query, version)

/-! ### Rows -/

/-- The column of each field: of two columns of one field the first counts, and unknown
columns are left out. -/
def buildFieldMap (header : List Text) : Dict Field ℕ :=
  header.zipIdx.foldl (fun fieldToIndex column =>
    match assocGet (normalize column.1) columnAliases with
    | some semantic =>
      if semantic ∈ fieldToIndex.keys then fieldToIndex else fieldToIndex.set semantic column.2
    | none => fieldToIndex) .empty

/-- The method of a request line. -/
def requestMethod (fields : Dict Field Text) : Text :=
  let method := fields.getD .method []
  upper (strip (if method = [] then text "GET" else method))

/-- The content length: that of the cell, or the length of the body if there is one. -/
def contentLength (fields : Dict Field Text) : Except PyError Text :=
  let body := fields.getD .body []
  let cell := strip (stripKnownPrefix (fields.getD .contentLength []) (text "Content-Length"))
  if cell = [] ∧ body ≠ [] then (encodeLatin1Strict body).map fun bytes => natText bytes.length
  else .ok cell

/-- The value of a header. -/
def headerValue (fields : Dict Field Text) (contentLength : Text) (key : Field)
    (headerName : Text) : Text :=
  if key = .contentLength then contentLength
  else strip (stripKnownPrefix (fields.getD key []) headerName)

/-- The headers that are written: those with a value. -/
def emittedHeaders (fields : Dict Field Text) (contentLength : Text) : List (Text × Text) :=
  headerOrder.filterMap fun h =>
    let value := headerValue fields contentLength h.1 h.2
    if value = [] then none else some (h.2, value)

/-- **A row as bytes.** -/
def reconstruct (fields : Dict Field Text) : Except PyError Bytes := do
  let method := requestMethod fields
  let (path, version) ← splitUrl (fields.getD .url [])
  let body := fields.getD .body []
  let contentLength ← contentLength fields
  let lines := (method ++ text " " ++ path ++ text " " ++ version) ::
    (emittedHeaders fields contentLength).map fun h => h.1 ++ text ": " ++ h.2
  return encodeLatin1 (join (text "\r\n") lines ++ text "\r\n\r\n" ++ body)

/-- The fields of a row; a cell that is missing is empty. -/
def rowFields (fieldToIndex : Dict Field ℕ) (row : List Text) : Dict Field Text :=
  Dict.ofList (fieldToIndex.entries.map fun e => (e.1, row[e.2]?.getD []))

/-- The record of a row. -/
def packetRecord (fields : Dict Field Text) : Except PyError PacketRecord := do
  let raw ← reconstruct fields
  return {
    label := strip (fields.getD .label [])
    method := upper (strip (fields.getD .method []))
    host := strip (fields.getD .host [])
    raw := raw }

/-! ### Files -/

omit [Interpreter] in
/-- **A CSV file**, read in Latin-1: its rows, the header row first, and the exception
reading ends with, if with one. -/
structure CsvFile where
  rows : Generator (List Text)
  /-- The encoding of the file. -/
  latin1 : ∀ row ∈ rows.yields, ∀ cell ∈ row, Latin1Text cell

/-- The rows of a file after the header, up to a limit. The row that shows that the limit
is reached has been read by then. -/
def limitRows (limit : Option ℤ) (rows : List (List Text)) (raised : Option PyError) :
    Generator (List Text) :=
  match limit with
  | none => ⟨rows, raised⟩
  | some limit =>
    ⟨rows.take limit.toNat, if rows.length ≤ limit.toNat then raised else none⟩

/-- **The packets of a file**, one for each row up to the limit. -/
def iterPackets (csv : CsvFile) (limit : Option ℤ := none) : Generator PacketRecord :=
  match csv.rows.yields with
  | [] => ⟨[], csv.rows.raised⟩
  | header :: rows =>
    let fieldToIndex := buildFieldMap header
    let read := limitRows limit rows csv.rows.raised
    let records := mapUntil (fun row => packetRecord (rowFields fieldToIndex row)) read.yields
    ⟨records.1, records.2.or read.raised⟩

/-- The loop of the balanced sampler; `normal` and `attack` count what it has yielded. -/
def balancedLoop (perClass : ℕ) (raised : Option PyError) :
    List PacketRecord → ℕ → ℕ → Generator PacketRecord
  | [], _, _ => ⟨[], raised⟩
  | record :: records, normal, attack =>
    if record.isNormal = true ∧ normal < perClass then
      if perClass ≤ normal + 1 ∧ perClass ≤ attack then ⟨[record], none⟩
      else
        let rest := balancedLoop perClass raised records (normal + 1) attack
        ⟨record :: rest.yields, rest.raised⟩
    else if record.isAnomalous = true ∧ attack < perClass then
      if perClass ≤ normal ∧ perClass ≤ attack + 1 then ⟨[record], none⟩
      else
        let rest := balancedLoop perClass raised records normal (attack + 1)
        ⟨record :: rest.yields, rest.raised⟩
    else if perClass ≤ normal ∧ perClass ≤ attack then ⟨[], none⟩
    else balancedLoop perClass raised records normal attack

/-- **The packets of a file in equal shares**: about half the limit of each class. -/
def iterBalancedPackets (csv : CsvFile) (limit : Option ℤ := none) : Generator PacketRecord :=
  match limit with
  | none => iterPackets csv
  | some limit =>
    let packets := iterPackets csv
    balancedLoop (max 1 (limit / 2)).toNat packets.raised packets.yields 0 0

/-! ### Limits -/

omit [Interpreter] in
/-- One limit admits no more rows than another. -/
def LimitLe (limit limit' : Option ℤ) : Prop :=
  ∀ m, limit' = some m → ∃ k, limit = some k ∧ k ≤ m

omit [Interpreter] in
theorem limitRows_extends {limit limit' : Option ℤ} (h : LimitLe limit limit')
    (rows : List (List Text)) (raised : Option PyError) :
    (limitRows limit rows raised).yields <+: (limitRows limit' rows raised).yields := by
  cases limit' with
  | none =>
    cases limit with
    | none => exact List.prefix_rfl
    | some k => exact List.take_prefix k.toNat rows
  | some m =>
    obtain ⟨k, rfl, hkm⟩ := h m rfl
    exact List.take_prefix_take_left (Int.toNat_le_toNat hkm)

/-- **A larger limit extends the packets** that are read. -/
theorem iterPackets_extends (csv : CsvFile) {limit limit' : Option ℤ} (h : LimitLe limit limit') :
    (iterPackets csv limit).yields <+: (iterPackets csv limit').yields := by
  unfold iterPackets
  cases csv.rows.yields with
  | nil => exact List.prefix_rfl
  | cons header rows => exact mapUntil_extends _ (limitRows_extends h rows csv.rows.raised)

/-! ### What is in a cell -/

/-- The cells of a row are in Latin-1. -/
def Latin1Fields (fields : Dict Field Text) : Prop := ∀ key, Latin1Text (fields.getD key [])

omit [Interpreter] in
/-- The fields of a row, in the order of the map. -/
theorem entries_rowFields (fieldToIndex : Dict Field ℕ) (row : List Text) :
    (rowFields fieldToIndex row).entries =
      fieldToIndex.entries.map fun e => (e.1, row[e.2]?.getD []) := by
  refine Dict.entries_ofList ?_
  rw [List.map_map]
  exact fieldToIndex.nodup

omit [Interpreter] in
theorem exists_of_dropName {name t r : Text} (h : dropName name t = some r) :
    ∃ u, t = u ++ r := by
  induction name generalizing t with
  | nil =>
    rw [dropName] at h
    exact ⟨[], Option.some.inj h⟩
  | cons d name ih =>
    cases t with
    | nil =>
      rw [dropName] at h
      cases h
    | cons e t =>
      rw [dropName] at h
      split at h
      · obtain ⟨u, rfl⟩ := ih h
        exact ⟨e :: u, rfl⟩
      · cases h

/-- A cell that embeds its header: what follows the first colon, without the white space
around it. -/
theorem exists_of_embeddedValue {value headerName v : Text}
    (h : embeddedValue value headerName = some v) :
    ∃ u r, lstrip value = u ++ cp ':' :: r ∧ v = lstrip r := by
  unfold embeddedValue at h
  split at h
  · cases h
  · next rest hrest =>
    obtain ⟨u, hu⟩ := exists_of_dropName hrest
    split at h
    · next c r hr =>
      split at h
      · next hc =>
        obtain rfl := Option.some.inj h
        refine ⟨u ++ rest.takeWhile Interpreter.isSpace, r, ?_, rfl⟩
        rw [hu, List.append_assoc, ← hc, ← hr]
        exact congrArg (u ++ ·) (List.takeWhile_append_dropWhile).symm
      · cases h
    · cases h

/-- What is left of a cell is part of it. -/
theorem mem_of_mem_stripKnownPrefix {value headerName : Text} {c : CodePoint}
    (h : c ∈ stripKnownPrefix value headerName) : c ∈ value := by
  unfold stripKnownPrefix at h
  cases hv : embeddedValue value headerName with
  | none =>
    rw [hv] at h
    exact h
  | some v =>
    rw [hv] at h
    obtain ⟨u, r, hu, rfl⟩ := exists_of_embeddedValue hv
    refine mem_of_mem_lstrip ?_
    rw [hu]
    exact List.mem_append_right _ (List.mem_cons_of_mem _ (mem_of_mem_lstrip h))

theorem Latin1Fields.headerCell {fields : Dict Field Text} (h : Latin1Fields fields) (key : Field)
    (headerName : Text) : Latin1Text (strip (stripKnownPrefix (fields.getD key []) headerName)) :=
  fun c hc => h key c (mem_of_mem_stripKnownPrefix (mem_of_mem_strip hc))

/-! ### The content length -/

theorem contentLength_latin1 {fields : Dict Field Text} (h : Latin1Fields fields) {length : Text}
    (hl : contentLength fields = .ok length) : Latin1Text length := by
  unfold contentLength at hl
  dsimp only at hl
  split at hl
  · obtain ⟨bytes, -, rfl⟩ := exists_of_map_eq_ok hl
    exact (plainText_natText _).ascii.latin1
  · obtain rfl := Except.ok.inj hl
    exact h.headerCell _ _

/-- No content length is written where neither the cell nor the body asks for one. -/
theorem contentLength_eq_nil_iff {fields : Dict Field Text} {length : Text}
    (hl : contentLength fields = .ok length) :
    length = [] ↔
      strip (stripKnownPrefix (fields.getD .contentLength []) (text "Content-Length")) = [] ∧
        fields.getD .body [] = [] := by
  unfold contentLength at hl
  dsimp only at hl
  split at hl
  · next hc =>
    obtain ⟨bytes, -, rfl⟩ := exists_of_map_eq_ok hl
    exact iff_of_false (natText_ne_nil _) fun h => hc.2 h.2
  · next hc =>
    obtain rfl := Except.ok.inj hl
    rw [not_and, not_not] at hc
    exact ⟨fun h => ⟨h, hc h⟩, And.left⟩

/-- The length of a body in Latin-1 can be found. -/
theorem exists_contentLength {fields : Dict Field Text} (h : Latin1Fields fields) :
    ∃ length, contentLength fields = .ok length := by
  unfold contentLength
  dsimp only
  split
  · exact ⟨_, by rw [encodeLatin1Strict, if_pos (h .body)]; rfl⟩
  · exact ⟨_, rfl⟩

/-! ### The headers -/

/-- The cells of all headers are blank. -/
def BlankHeaders (fields : Dict Field Text) : Prop :=
  ∀ h ∈ headerOrder, strip (stripKnownPrefix (fields.getD h.1 []) h.2) = []

instance : DecidablePred BlankHeaders := fun fields =>
  List.decidableBAll
    (fun h : Field × Text => strip (stripKnownPrefix (fields.getD h.1 []) h.2) = []) headerOrder

theorem mem_emittedHeaders {fields : Dict Field Text} {length : Text} {h : Text × Text}
    (hh : h ∈ emittedHeaders fields length) :
    ∃ key, (key, h.1) ∈ headerOrder ∧ h.2 = headerValue fields length key h.1 ∧ h.2 ≠ [] := by
  obtain ⟨⟨key, headerName⟩, hmem, he⟩ := List.mem_filterMap.mp hh
  dsimp only at he
  split at he
  · cases he
  · next hne =>
    obtain rfl := Option.some.inj he
    exact ⟨key, hmem, rfl, hne⟩

/-- The values of the headers are in Latin-1. -/
theorem emittedHeaders_latin1 {fields : Dict Field Text} (hf : Latin1Fields fields) {length : Text}
    (hl : contentLength fields = .ok length) :
    ∀ h ∈ emittedHeaders fields length, Latin1Text h.2 := by
  intro h hh
  obtain ⟨key, -, hv, -⟩ := mem_emittedHeaders hh
  rw [hv, headerValue]
  split
  · exact contentLength_latin1 hf hl
  · exact hf.headerCell _ _

/-- **No header is written** exactly when the cells are blank and there is no body. -/
theorem emittedHeaders_eq_nil_iff {fields : Dict Field Text} {length : Text}
    (hl : contentLength fields = .ok length) :
    emittedHeaders fields length = [] ↔ BlankHeaders fields ∧ fields.getD .body [] = [] := by
  have hnil : emittedHeaders fields length = [] ↔
      ∀ h ∈ headerOrder, headerValue fields length h.1 h.2 = [] := by
    rw [emittedHeaders, List.filterMap_eq_nil_iff]
    refine forall₂_congr fun h _ => ?_
    dsimp only
    split
    · next hv => exact iff_of_true rfl hv
    · next hv => exact iff_of_false nofun hv
  have hlast : (Field.contentLength, text "Content-Length") ∈ headerOrder := by decide
  have hname : ∀ h ∈ headerOrder, h.1 = .contentLength → h.2 = text "Content-Length" := by decide
  rw [hnil]
  constructor
  · intro h
    have hlen : length = [] := h _ hlast
    obtain ⟨hcell, hbody⟩ := (contentLength_eq_nil_iff hl).mp hlen
    refine ⟨fun e he => ?_, hbody⟩
    by_cases hkey : e.1 = .contentLength
    · rw [hkey, hname e he hkey]
      exact hcell
    · have := h e he
      rwa [headerValue, if_neg hkey] at this
  · rintro ⟨hblank, hbody⟩ e he
    unfold headerValue
    split
    · exact (contentLength_eq_nil_iff hl).mpr ⟨hblank _ hlast, hbody⟩
    · exact hblank e he

/-! ### The request line -/

/-- Path and query of a target: `path?query`, or the path alone. -/
def joinTarget (path query : Text) : Text :=
  if query = [] then path else path ++ text "?" ++ query

theorem splitUrl_eq_ok {urlField target version : Text}
    (h : splitUrl urlField = .ok (target, version)) :
    ∃ path query, cp '?' ∉ path ∧ target = joinTarget path query := by
  obtain ⟨parts, hparts, h⟩ := exists_of_bind_eq_ok h
  obtain ⟨rfl, -⟩ := Prod.mk.inj (Except.ok.inj h)
  refine ⟨if parts.path = [] then text "/" else parts.path, parts.query, ?_, rfl⟩
  split
  · decide
  · exact urlsplit_path hparts

/-- A URL below `256` without brackets has a target. -/
theorem exists_splitUrl {urlField : Text} (h : Latin1Text urlField) (ho : cp '[' ∉ urlField)
    (hc : cp ']' ∉ urlField) : ∃ p, splitUrl urlField = .ok p := by
  have hurl : ∀ url, (∀ c ∈ url, c ∈ urlField) → ∃ parts, urlsplit url = .ok parts :=
    fun url hsub => exists_urlsplit (fun c hmem => h c (hsub c hmem)) (fun hmem => ho (hsub _ hmem))
      fun hmem => hc (hsub _ hmem)
  unfold splitUrl
  dsimp only
  split
  · obtain ⟨parts, hparts⟩ := hurl (rpartition (cp ' ') (strip urlField)).1 fun c hmem =>
      mem_of_mem_strip (mem_of_mem_rpartition (Or.inl hmem))
    rw [hparts]
    exact ⟨_, rfl⟩
  · obtain ⟨parts, hparts⟩ := hurl (strip urlField) fun c hmem => mem_of_mem_strip hmem
    rw [hparts]
    exact ⟨_, rfl⟩

omit [Interpreter] in
/-- A target is put together again from its parts before and after the first question
mark. -/
theorem joinTarget_partition {path query : Text} (h : cp '?' ∉ path) :
    joinTarget (partition (cp '?') (joinTarget path query)).1
      (partition (cp '?') (joinTarget path query)).2 = joinTarget path query := by
  have hparts : partition (cp '?') (joinTarget path query) = (path, query) := by
    unfold joinTarget
    split
    · next hq => rw [hq, partition_of_notMem h]
    · rw [List.append_assoc]
      exact partition_append_cons h query
  rw [hparts]

/-! ### The packet -/

/-- The text of a packet: request line, header lines, an empty line and the body. -/
def packetText (method target version : Text) (headers : List (Text × Text)) (body : Text) : Text :=
  method ++ text " " ++ target ++ text " " ++ version ++ text "\r\n" ++
    headers.flatMap (fun h => h.1 ++ text ": " ++ h.2 ++ text "\r\n") ++ text "\r\n" ++ body

omit [Interpreter] in
theorem join_append (sep line : Text) (lines : List Text) :
    join sep (line :: lines) ++ sep = line ++ sep ++ lines.flatMap fun l => l ++ sep := by
  induction lines generalizing line with
  | nil => simp [join]
  | cons l lines ih =>
    rw [join, List.append_assoc, ih, List.flatMap_cons]
    nofun

/-- **The parts of a reconstructed packet.** -/
theorem reconstruct_eq_ok {fields : Dict Field Text} {raw : Bytes}
    (h : reconstruct fields = .ok raw) :
    ∃ target version length, splitUrl (fields.getD .url []) = .ok (target, version) ∧
      contentLength fields = .ok length ∧
      raw = encodeLatin1 (packetText (requestMethod fields) target version
        (emittedHeaders fields length) (fields.getD .body [])) := by
  obtain ⟨⟨target, version⟩, hurl, h⟩ := exists_of_bind_eq_ok h
  obtain ⟨length, hlength, h⟩ := exists_of_bind_eq_ok h
  refine ⟨target, version, length, hurl, hlength, ?_⟩
  rw [← Except.ok.inj h]
  have hlines := join_append (text "\r\n")
    (requestMethod fields ++ text " " ++ target ++ text " " ++ version)
    ((emittedHeaders fields length).map fun h => h.1 ++ text ": " ++ h.2)
  rw [List.flatMap_map] at hlines
  have hend : text "\r\n\r\n" = text "\r\n" ++ text "\r\n" := by decide
  refine congrArg encodeLatin1 ?_
  rw [hend, ← List.append_assoc, hlines]
  rfl

/-- **A row whose URL is accepted** is reconstructed. -/
theorem reconstruct_of_splitUrl {fields : Dict Field Text} (h : Latin1Fields fields)
    {target version : Text} (hurl : splitUrl (fields.getD .url []) = .ok (target, version)) :
    ∃ length, contentLength fields = .ok length ∧
      reconstruct fields = .ok (encodeLatin1 (packetText (requestMethod fields) target version
        (emittedHeaders fields length) (fields.getD .body []))) := by
  obtain ⟨length, hlength⟩ := exists_contentLength h
  obtain ⟨raw, hraw⟩ : ∃ raw, reconstruct fields = .ok raw := by
    rw [reconstruct, hurl, hlength]
    exact ⟨_, rfl⟩
  obtain ⟨target', version', length', hurl', hlength', rfl⟩ := reconstruct_eq_ok hraw
  obtain ⟨rfl, rfl⟩ := Prod.mk.inj (Except.ok.inj (hurl.symm.trans hurl'))
  exact ⟨length', hlength', hraw⟩

/-- **A row whose URL holds no brackets** is reconstructed. -/
theorem exists_reconstruct {fields : Dict Field Text} (h : Latin1Fields fields)
    (ho : cp '[' ∉ fields.getD .url []) (hc : cp ']' ∉ fields.getD .url []) :
    ∃ raw, reconstruct fields = .ok raw := by
  obtain ⟨⟨target, version⟩, hurl⟩ := exists_splitUrl (h .url) ho hc
  obtain ⟨length, -, hraw⟩ := reconstruct_of_splitUrl h hurl
  exact ⟨_, hraw⟩

end LearningData
