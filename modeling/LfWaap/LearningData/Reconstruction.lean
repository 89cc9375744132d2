import LfWaap.LearningData.CsicToPackets
import LfWaap.Words.Split

/-!
# A reconstructed packet read again

`learning_data.csic_to_packets._reconstruct` writes a row as an HTTP message. Read as one, the
message gives back what was written (`LearningData.reconstruct_reads_back`): the first empty
line ends the head, whatever the body holds; the lines of the head are the request line and a
line for each header whose cell has a value, in the declared order; and the value is what
remains of the cell without the name of its own header and the white space around it.

No line end can come from a cell, if there is none in it: not from the method either, though
this one is upper-cased, and not from the escapes of what is not in Latin-1
(`LearningData.cr_notMem_encodeLatin1`).
-/

namespace LearningData

open Python

/-! ### Line ends as bytes -/

/-- The two bytes of a line end. -/
abbrev cr : Byte := byte 13

abbrev lf : Byte := byte 10

theorem encodeLatin1_crlf : encodeLatin1 (text "\r\n") = [cr, lf] := by decide

/-- An escape holds no line end. -/
theorem cr_notMem_backslashEscape (c : CodePoint) : cr ∉ asciiBytes (backslashEscape c) := by
  have hdigit : ∀ d < 16, byte (hexDigit d).val ≠ cr := by decide
  have hhex : ∀ n v, cr ∉ asciiBytes (hexText n v) := by
    intro n v
    induction n with
    | zero => exact List.not_mem_nil
    | succ n ih =>
      exact List.not_mem_cons_of_ne_of_not_mem (hdigit _ (Nat.mod_lt _ (by omega))).symm ih
  have hcode : ∀ (x : CodePoint) n v, byte x.val ≠ cr →
      cr ∉ asciiBytes (cp '\\' :: x :: hexText n v) := by
    intro x n v hx
    exact List.not_mem_cons_of_ne_of_not_mem (by decide)
      (List.not_mem_cons_of_ne_of_not_mem hx.symm (hhex n v))
  rw [backslashEscape]
  split_ifs
  · exact hcode _ _ _ (by decide)
  · exact hcode _ _ _ (by decide)
  · exact hcode _ _ _ (by decide)

/-- **No line end is written** for a text without one. -/
theorem cr_notMem_encodeLatin1 {t : Text} (h : cp '\r' ∉ t) : cr ∉ encodeLatin1 t := by
  intro hmem
  obtain ⟨c, hc, hb⟩ := List.mem_flatMap.mp hmem
  rw [latin1Char] at hb
  split_ifs at hb with hlt
  · have heq := List.mem_singleton.mp hb
    have hval : c.val = 13 := by
      have hbyte : (byte c.val : ℕ) = c.val := byte_val hlt
      rw [← hbyte, ← heq]
      rfl
    have hcr : c = cp '\r' := Fin.ext hval
    exact h (hcr ▸ hc)
  · exact cr_notMem_backslashEscape c hb

/-! ### The value of a cell -/

section

variable [Interpreter]

/-- The text is white space. -/
def AllSpace (t : Text) : Prop := ∀ c ∈ t, Interpreter.isSpace c = true

/-- The cell begins with the name of its header, in letters of any case, and a colon; white
space may stand around the name. -/
def EmbedsName (cell headerName rest : Text) : Prop :=
  ∃ ws name ws', cell = ws ++ name ++ ws' ++ cp ':' :: rest ∧ AllSpace ws ∧
    name.map foldCase = headerName.map foldCase ∧ AllSpace ws'

/-- **The value of a cell**: what remains without the name of its own header, if it begins
with this, and without the white space around it. -/
def IsCleaned (cell headerName value : Text) : Prop :=
  (∃ rest, EmbedsName cell headerName rest ∧ value = strip rest) ∨
    (¬∃ rest, EmbedsName cell headerName rest) ∧ value = strip cell

omit [Interpreter] in
theorem dropName_eq_some_iff {headerName t rest : Text} :
    dropName headerName t = some rest ↔
      ∃ name, t = name ++ rest ∧ name.map foldCase = headerName.map foldCase := by
  induction headerName generalizing t with
  | nil =>
    rw [dropName]
    constructor
    · intro h
      exact ⟨[], Option.some.inj h, rfl⟩
    · rintro ⟨name, rfl, hname⟩
      rw [List.map_eq_nil_iff.mp hname]
      rfl
  | cons c headerName ih =>
    rcases t with _ | ⟨d, t⟩
    · rw [dropName]
      refine iff_of_false (Option.some_ne_none rest).symm ?_
      rintro ⟨name, hname, hmap⟩
      rw [(List.append_eq_nil_iff.mp hname.symm).1] at hmap
      cases hmap
    · rw [dropName]
      split_ifs with hc
      · rw [ih]
        constructor
        · rintro ⟨name, rfl, hname⟩
          exact ⟨d :: name, rfl, by rw [List.map_cons, List.map_cons, hname, hc]⟩
        · rintro ⟨name, ht, hname⟩
          rcases name with _ | ⟨e, name⟩
          · cases hname
          · obtain ⟨rfl, rfl⟩ := List.cons.inj ht
            exact ⟨name, rfl, (List.cons.inj hname).2⟩
      · refine iff_of_false not_false ?_
        rintro ⟨name, ht, hname⟩
        rcases name with _ | ⟨e, name⟩
        · cases hname
        · obtain ⟨rfl, rfl⟩ := List.cons.inj ht
          exact hc (List.cons.inj hname).1.symm

theorem lstrip_append {ws t : Text} (h : AllSpace ws) : lstrip (ws ++ t) = lstrip t := by
  rw [lstrip, List.dropWhile_append_of_pos h]
  rfl

theorem lstrip_of_not_isSpace {c : CodePoint} {t : Text} (h : Interpreter.isSpace c = false) :
    lstrip (c :: t) = c :: t :=
  List.dropWhile_cons_of_neg (by simp [h])

theorem strip_lstrip (t : Text) : strip (lstrip t) = strip t := by
  rw [strip, strip, lstrip, lstrip, List.dropWhile_idempotent]

theorem exists_lstrip (t : Text) : ∃ ws, t = ws ++ lstrip t ∧ AllSpace ws :=
  ⟨t.takeWhile Interpreter.isSpace, List.takeWhile_append_dropWhile.symm,
    fun _ hc => List.mem_takeWhile_imp hc⟩

/-- A code point below `256` that stands for a letter is no white space. -/
theorem not_isSpace_of_foldCase {c d : CodePoint} (hc : c.val < 256)
    (hd : isAsciiLetter d = true) (h : foldCase c = foldCase d) :
    Interpreter.isSpace c = false := by
  rw [isAsciiLetter, decide_eq_true_iff] at hd
  have hval : (asciiLower c).val = (asciiLower d).val := by
    rw [← foldCase_of_lt hc, ← foldCase_of_lt (by omega), h]
  rw [asciiLower_val, asciiLower_val] at hval
  rw [Interpreter.isSpace_latin1 c hc]
  simp only [latin1Space, Bool.or_eq_false_iff, decide_eq_false_iff_not]
  split_ifs at hval <;> omega

/-- **What follows the name of its header in a cell** is found, if it is there. -/
theorem embeddedValue_of_embedsName {cell headerName rest : Text} (hcell : Latin1Text cell)
    {c : CodePoint} {r : Text} (hname : headerName = c :: r) (hc : isAsciiLetter c = true)
    (h : EmbedsName cell headerName rest) :
    embeddedValue cell headerName = some (lstrip rest) := by
  obtain ⟨ws, name, ws', rfl, hws, hmap, hws'⟩ := h
  rcases name with _ | ⟨d, name⟩
  · rw [hname] at hmap
    cases hmap
  · have hd : Interpreter.isSpace d = false := by
      rw [hname] at hmap
      refine not_isSpace_of_foldCase (hcell d ?_) hc (List.cons.inj hmap).1
      simp
    have hcolon : Interpreter.isSpace (cp ':') = false := by
      rw [Interpreter.isSpace_latin1 _ (by decide)]
      decide
    have hstrip : lstrip (ws ++ (d :: name) ++ ws' ++ cp ':' :: rest) =
        (d :: name) ++ (ws' ++ cp ':' :: rest) := by
      rw [List.append_assoc, List.append_assoc, lstrip_append hws]
      exact lstrip_of_not_isSpace hd
    rw [embeddedValue, hstrip, dropName_eq_some_iff.mpr ⟨d :: name, rfl, hmap⟩]
    dsimp only
    rw [lstrip_append hws', lstrip_of_not_isSpace hcolon]
    exact if_pos rfl

/-- What is found in a cell after the name of its header is there. -/
theorem embedsName_of_embeddedValue {cell headerName v : Text}
    (h : embeddedValue cell headerName = some v) :
    ∃ rest, EmbedsName cell headerName rest ∧ v = lstrip rest := by
  rw [embeddedValue] at h
  split at h
  · cases h
  · next t ht =>
    obtain ⟨name, hname, hmap⟩ := dropName_eq_some_iff.mp ht
    split at h
    · next c r hr =>
      split at h
      · next hc =>
        obtain ⟨ws, hcell, hws⟩ := exists_lstrip cell
        obtain ⟨ws', ht', hws'⟩ := exists_lstrip t
        refine ⟨r, ⟨ws, name, ws', ?_, hws, hmap, hws'⟩, (Option.some.inj h).symm⟩
        rw [hcell, hname, ht', hr, hc]
        simp
      · cases h
    · cases h

/-- **Cleaning a cell** leaves its value. -/
theorem isCleaned_stripKnownPrefix {cell headerName : Text} (hcell : Latin1Text cell)
    {c : CodePoint} {r : Text} (hname : headerName = c :: r) (hc : isAsciiLetter c = true) :
    IsCleaned cell headerName (strip (stripKnownPrefix cell headerName)) := by
  rw [stripKnownPrefix]
  cases hv : embeddedValue cell headerName with
  | some v =>
    obtain ⟨rest, hrest, rfl⟩ := embedsName_of_embeddedValue hv
    exact .inl ⟨rest, hrest, strip_lstrip rest⟩
  | none =>
    refine .inr ⟨?_, rfl⟩
    rintro ⟨rest, hrest⟩
    rw [embeddedValue_of_embedsName hcell hname hc hrest] at hv
    cases hv

/-- A cell has one value. -/
theorem IsCleaned.unique {cell headerName v v' : Text} (hcell : Latin1Text cell)
    {c : CodePoint} {r : Text} (hname : headerName = c :: r) (hc : isAsciiLetter c = true)
    (h : IsCleaned cell headerName v) (h' : IsCleaned cell headerName v') : v = v' := by
  rcases h with ⟨rest, hrest, rfl⟩ | ⟨hnone, rfl⟩
  · rcases h' with ⟨rest', hrest', rfl⟩ | ⟨hnone', -⟩
    · have heq := (embeddedValue_of_embedsName hcell hname hc hrest).symm.trans
        (embeddedValue_of_embedsName hcell hname hc hrest')
      rw [← strip_lstrip rest, Option.some.inj heq, strip_lstrip]
    · exact absurd ⟨rest, hrest⟩ hnone'
  · rcases h' with ⟨rest', hrest', rfl⟩ | ⟨-, rfl⟩
    · exact absurd ⟨rest', hrest'⟩ hnone
    · rfl

/-- **The value of a header**: that of its cell, or the length of the body in bytes where the
row has a body and no content length. -/
def IsHeaderValue (fields : Dict Field Text) (h : Field × Text) (value : Text) : Prop :=
  ∃ v, IsCleaned (fields.getD h.1 []) h.2 v ∧
    value = if h.1 = .contentLength ∧ v = [] ∧ fields.getD .body [] ≠ [] then
      natText (encodeLatin1 (fields.getD .body [])).length else v

omit [Interpreter] in
/-- The names of all headers begin with a letter. -/
theorem exists_letter_of_mem_headerOrder {h : Field × Text} (hh : h ∈ headerOrder) :
    ∃ c r, h.2 = c :: r ∧ isAsciiLetter c = true ∧ cp '\r' ∉ h.2 := by
  have hall : ∀ h ∈ headerOrder, h.2 ≠ [] ∧ isAsciiLetter (h.2.headD 0) = true ∧
      cp '\r' ∉ h.2 := by
    decide
  obtain ⟨hne, hletter, hcr⟩ := hall h hh
  obtain ⟨c, r, hcr'⟩ := List.exists_cons_of_ne_nil hne
  rw [hcr'] at hletter
  exact ⟨c, r, hcr', hletter, hcr⟩

/-- A header has one value. -/
theorem IsHeaderValue.unique {fields : Dict Field Text} (hf : Latin1Fields fields)
    {h : Field × Text} (hh : h ∈ headerOrder) {value value' : Text}
    (hv : IsHeaderValue fields h value) (hv' : IsHeaderValue fields h value') : value = value' := by
  obtain ⟨c, r, hname, hletter, -⟩ := exists_letter_of_mem_headerOrder hh
  obtain ⟨v, hcleaned, rfl⟩ := hv
  obtain ⟨v', hcleaned', rfl⟩ := hv'
  rw [hcleaned.unique (hf h.1) hname hletter hcleaned']

/-- The values that are written are those of the headers. -/
theorem isHeaderValue_headerValue {fields : Dict Field Text} (hf : Latin1Fields fields)
    {length : Text} (hl : contentLength fields = .ok length) {h : Field × Text}
    (hh : h ∈ headerOrder) : IsHeaderValue fields h (headerValue fields length h.1 h.2) := by
  obtain ⟨c, r, hname, hletter, -⟩ := exists_letter_of_mem_headerOrder hh
  refine ⟨_, isCleaned_stripKnownPrefix (hf h.1) hname hletter, ?_⟩
  obtain ⟨key, headerName⟩ := h
  rw [headerValue]
  by_cases hkey : key = .contentLength
  · have hall : ∀ h ∈ headerOrder, h.1 = .contentLength → h.2 = text "Content-Length" := by decide
    obtain rfl : headerName = text "Content-Length" := hall _ hh hkey
    obtain rfl := hkey
    rw [if_pos rfl]
    rw [contentLength] at hl
    dsimp only at hl ⊢
    split at hl
    · next hc =>
      rw [encodeLatin1Strict, if_pos (hf .body)] at hl
      rw [if_pos ⟨rfl, hc⟩, encodeLatin1_of_latin1 (hf .body)]
      exact (Except.ok.inj hl).symm
    · next hc =>
      rw [if_neg fun h => hc h.2]
      exact (Except.ok.inj hl).symm
  · rw [if_neg hkey, if_neg fun hc => hkey hc.1]

/-! ### The request line -/

/-- The URL of a cell, and the version that follows it after a space. -/
def urlAndVersion (urlField : Text) : Text × Text :=
  let parts := rpartition (cp ' ') (strip urlField)
  if parts.1 ≠ [] ∧ (text "HTTP/").isPrefixOf (upper parts.2) = true then parts
  else (strip urlField, text "HTTP/1.1")

/-- **Target and version of a request line.** -/
theorem splitUrl_eq (urlField : Text) :
    splitUrl urlField = (urlsplit (urlAndVersion urlField).1).map fun parts =>
      (joinTarget (if parts.path = [] then text "/" else parts.path) parts.query,
        (urlAndVersion urlField).2) := by
  rw [splitUrl, urlAndVersion]
  dsimp only
  split_ifs
  · show urlsplit _ >>= _ = _
    cases urlsplit (rpartition (cp ' ') (strip urlField)).1 <;> rfl
  · show urlsplit _ >>= _ = _
    cases urlsplit (strip urlField) <;> rfl

/-- Target and version are made of the code points of the cell and of a few others. -/
theorem mem_of_mem_splitUrl {urlField target version : Text}
    (h : splitUrl urlField = .ok (target, version)) {c : CodePoint}
    (hc : c ∈ target ∨ c ∈ version) : c ∈ urlField ∨ c ∈ text "/?HTTP1." := by
  rw [splitUrl_eq] at h
  obtain ⟨parts, hparts, heq⟩ := exists_of_map_eq_ok h
  obtain ⟨rfl, rfl⟩ := Prod.mk.inj heq
  have hsub : ∀ t : Text, t ⊆ text "/?HTTP1." → ∀ {c}, c ∈ t → c ∈ text "/?HTTP1." :=
    fun t ht c hc => ht hc
  have hurl : ∀ c ∈ (urlAndVersion urlField).1, c ∈ urlField := by
    intro c hc
    rw [urlAndVersion] at hc
    split at hc
    · exact mem_of_mem_strip (mem_of_mem_rpartition (.inl hc))
    · exact mem_of_mem_strip hc
  rcases hc with hc | hc
  · rw [joinTarget] at hc
    have hpart : ∀ c ∈ (if parts.path = [] then text "/" else parts.path),
        c ∈ urlField ∨ c ∈ text "/?HTTP1." := by
      intro c hc
      split at hc
      · exact .inr (hsub _ (by decide) hc)
      · exact .inl (hurl c (mem_of_mem_urlsplit hparts (.inl hc)))
    split at hc
    · exact hpart c hc
    · rcases List.mem_append.mp hc with hc | hc
      · rcases List.mem_append.mp hc with hc | hc
        · exact hpart c hc
        · exact .inr (hsub _ (by decide) hc)
      · exact .inl (hurl c (mem_of_mem_urlsplit hparts (.inr hc)))
  · rw [urlAndVersion] at hc
    split at hc
    · exact .inl (mem_of_mem_strip (mem_of_mem_rpartition (.inr hc)))
    · exact .inr (hsub (text "HTTP/1.1") (by decide) hc)

/-! ### The lines of a packet -/

/-- The request line. -/
def requestLine (fields : Dict Field Text) (target version : Text) : Text :=
  requestMethod fields ++ text " " ++ target ++ text " " ++ version

omit [Interpreter] in
/-- **The bytes of a packet**: every line is followed by a line end, and the last one by an
empty line and the body. -/
theorem encodeLatin1_packetText (method target version : Text) (headers : List (Text × Text))
    (body : Text) :
    encodeLatin1 (packetText method target version headers body) =
      (encodeLatin1 (method ++ text " " ++ target ++ text " " ++ version) ++ [cr, lf]) ++
        (headers.map fun h => encodeLatin1 (h.1 ++ text ": " ++ h.2)).flatMap
          (fun line => line ++ [cr, lf]) ++ [cr, lf] ++ encodeLatin1 body := by
  have hheaders : encodeLatin1 (headers.flatMap fun h => h.1 ++ text ": " ++ h.2 ++ text "\r\n") =
      (headers.map fun h => encodeLatin1 (h.1 ++ text ": " ++ h.2)).flatMap
        fun line => line ++ [cr, lf] := by
    induction headers with
    | nil => rfl
    | cons h headers ih =>
      rw [List.flatMap_cons, List.map_cons, List.flatMap_cons, encodeLatin1_append,
        encodeLatin1_append _ (text "\r\n"), encodeLatin1_crlf, ih]
  rw [packetText, encodeLatin1_append, encodeLatin1_append _ (text "\r\n"), encodeLatin1_append,
    encodeLatin1_append _ (text "\r\n"), encodeLatin1_crlf, hheaders]

/-- The headers that are written, with the values of a map. -/
theorem emittedHeaders_eq (fields : Dict Field Text) (length : Text) :
    emittedHeaders fields length =
      (headerOrder.filter fun h => decide (headerValue fields length h.1 h.2 ≠ [])).map fun h =>
        (h.2, headerValue fields length h.1 h.2) := by
  rw [emittedHeaders, ← List.filterMap_eq_map, List.filterMap_filter]
  congr 1
  funext h
  dsimp only
  split_ifs <;> simp_all

/-- No line end comes from a header cell. -/
theorem cr_notMem_headerValue {fields : Dict Field Text} {length : Text}
    (hl : contentLength fields = .ok length)
    (hheaders : ∀ h ∈ headerOrder, cp '\r' ∉ fields.getD h.1 []) {h : Field × Text}
    (hh : h ∈ headerOrder) : cp '\r' ∉ headerValue fields length h.1 h.2 := by
  have hcell : ∀ h ∈ headerOrder,
      cp '\r' ∉ strip (stripKnownPrefix (fields.getD h.1 []) h.2) := fun h hh hmem =>
    hheaders h hh (mem_of_mem_stripKnownPrefix (mem_of_mem_strip hmem))
  rw [headerValue]
  split
  · rw [contentLength] at hl
    split at hl
    · obtain ⟨bytes, -, rfl⟩ := exists_of_map_eq_ok hl
      intro hmem
      have hdigit := digit_of_mem_natText hmem
      have hval : (cp '\r').val = 13 := by decide
      omega
    · obtain rfl := Except.ok.inj hl
      exact hcell (.contentLength, text "Content-Length") (by decide)
  · exact hcell h hh

/-- No line end comes from the method or the URL. -/
theorem cr_notMem_requestLine {fields : Dict Field Text} {target version : Text}
    (hupper : ∀ t : Text, cp '\r' ∈ upper t → cp '\r' ∈ t)
    (hmethod : cp '\r' ∉ fields.getD .method []) (hurl : cp '\r' ∉ fields.getD .url [])
    (hsplit : splitUrl (fields.getD .url []) = .ok (target, version)) :
    cp '\r' ∉ requestLine fields target version := by
  have hpart : ∀ t : Text, (∀ c, c ∈ t → c ∈ target ∨ c ∈ version) → cp '\r' ∉ t := by
    intro t ht hmem
    rcases mem_of_mem_splitUrl hsplit (ht _ hmem) with h | h
    · exact hurl h
    · exact absurd h (by decide)
  have hm : cp '\r' ∉ requestMethod fields := by
    intro hmem
    have hstrip := mem_of_mem_strip (hupper _ hmem)
    split at hstrip
    · exact absurd hstrip (by decide)
    · exact hmethod hstrip
  have hspace : cp '\r' ∉ text " " := by decide
  simp only [requestLine, List.mem_append, not_or]
  exact ⟨⟨⟨⟨hm, hspace⟩, hpart _ fun c => Or.inl⟩, hspace⟩, hpart _ fun c => Or.inr⟩

omit [Interpreter] in
/-- A text that is written is not written as nothing. -/
theorem encodeLatin1_ne_nil {t : Text} (h : t ≠ []) : encodeLatin1 t ≠ [] := by
  obtain ⟨c, r, rfl⟩ := List.exists_cons_of_ne_nil h
  have hchar : latin1Char c ≠ [] := by
    rw [latin1Char, backslashEscape]
    split_ifs <;> exact List.cons_ne_nil _ _
  rw [encodeLatin1, List.flatMap_cons]
  exact List.append_ne_nil_of_left_ne_nil hchar _

/-- **The lines of a packet** before the first empty one: none of them is empty, and none holds
a line end. -/
theorem packet_lines {fields : Dict Field Text} {target version length : Text}
    (hupper : ∀ t : Text, cp '\r' ∈ upper t → cp '\r' ∈ t)
    (hmethod : cp '\r' ∉ fields.getD .method []) (hurl : cp '\r' ∉ fields.getD .url [])
    (hheaders : ∀ h ∈ headerOrder, cp '\r' ∉ fields.getD h.1 [])
    (hsplit : splitUrl (fields.getD .url []) = .ok (target, version))
    (hlength : contentLength fields = .ok length) :
    ∀ line ∈ encodeLatin1 (requestLine fields target version) ::
      (emittedHeaders fields length).map (fun h => encodeLatin1 (h.1 ++ text ": " ++ h.2)),
      line ≠ [] ∧ cr ∉ line := by
  rw [List.forall_mem_cons]
  constructor
  · refine ⟨encodeLatin1_ne_nil ?_,
      cr_notMem_encodeLatin1 (cr_notMem_requestLine hupper hmethod hurl hsplit)⟩
    rw [requestLine, List.append_assoc _ (text " ") version]
    exact List.append_ne_nil_of_right_ne_nil _ (List.cons_ne_nil _ _)
  · intro line hline
    obtain ⟨h, hh, rfl⟩ := List.mem_map.mp hline
    obtain ⟨key, hmem, hv, -⟩ := mem_emittedHeaders hh
    obtain ⟨c, r, hname, -, hcr⟩ := exists_letter_of_mem_headerOrder hmem
    have hvalue := cr_notMem_headerValue hlength hheaders hmem
    refine ⟨encodeLatin1_ne_nil ?_, cr_notMem_encodeLatin1 ?_⟩
    · rw [show h.1 = c :: r from hname]
      exact List.cons_ne_nil _ _
    · simp only [List.mem_append, not_or]
      exact ⟨⟨hcr, by decide⟩, hv ▸ hvalue⟩

/-- **A reconstructed packet parses back into its fields.** Where no cell of the request line
and of the headers holds a line end, and the URL is accepted: what follows the first empty
line is the body; and the lines before it are the request line and, in their order, the
headers that have a value. That upper-casing makes no line end is a fact about the tables
of the interpreter. -/
theorem reconstruct_reads_back {fields : Dict Field Text} (hf : Latin1Fields fields)
    (hupper : ∀ t : Text, cp '\r' ∈ upper t → cp '\r' ∈ t)
    (hmethod : cp '\r' ∉ fields.getD .method []) (hurl : cp '\r' ∉ fields.getD .url [])
    (hheaders : ∀ h ∈ headerOrder, cp '\r' ∉ fields.getD h.1 [])
    (haccepted : ∃ p, splitUrl (fields.getD .url []) = .ok p) :
    ∃ raw target version head, ∃ value : Field × Text → Text,
      reconstruct fields = .ok raw ∧ splitUrl (fields.getD .url []) = .ok (target, version) ∧
      (∀ h ∈ headerOrder, IsHeaderValue fields h (value h)) ∧
      Words.cut [cr, lf, cr, lf] raw = some (head, encodeLatin1 (fields.getD .body [])) ∧
      Words.pieces [cr, lf] head = encodeLatin1 (requestLine fields target version) ::
        (headerOrder.filter fun h => decide (value h ≠ [])).map fun h =>
          encodeLatin1 (h.2 ++ text ": " ++ value h) := by
  obtain ⟨⟨target, version⟩, hsplit⟩ := haccepted
  obtain ⟨length, hlength, hraw⟩ := reconstruct_of_splitUrl hf hsplit
  have hlines := packet_lines hupper hmethod hurl hheaders hsplit hlength
  have hcrlf : cr ≠ lf := by decide
  have hcut := Words.cut_lines hcrlf hlines (encodeLatin1 (fields.getD .body []))
  have hpieces : Words.pieces [cr, lf] ([cr, lf].intercalate _) = _ :=
    Words.pieces_intercalate (List.cons_ne_nil _ _) fun line hline => (hlines line hline).2
  refine ⟨_, target, version, _, fun h => headerValue fields length h.1 h.2, hraw, hsplit,
    fun h hh => isHeaderValue_headerValue hf hlength hh, ?_, hpieces.trans ?_⟩
  · rw [encodeLatin1_packetText]
    exact hcut
  · rw [emittedHeaders_eq, List.map_map]
    rfl

omit [Interpreter] in
/-- On ASCII, upper-casing makes no line end. -/
theorem cr_mem_of_mem_asciiUpper {t : Text} (h : cp '\r' ∈ t.map asciiUpper) : cp '\r' ∈ t := by
  obtain ⟨c, hc, heq⟩ := List.mem_map.mp h
  have hval := congrArg Fin.val heq
  have hcr : (cp '\r').val = 13 := by decide
  rw [asciiUpper_val, hcr] at hval
  have hc' : c = cp '\r' := by
    refine Fin.ext ?_
    rw [hcr]
    split_ifs at hval <;> omega
  exact hc' ▸ hc

omit [Interpreter] in
/-- A row with a host cell that embeds its name, and a body with an empty line in it: the host is
read back without the name, and the length of the body is. -/
theorem reconstruct_reads_back_host :
    let _ : Interpreter := .ascii
    let fields : Dict Field Text := Dict.ofList
      [(.method, text "get"), (.url, text "http://h/a?x=1"),
      (.host, text "host: localhost:8080"), (.body, text "b\r\n\r\nc")]
    ∃ raw head, reconstruct fields = .ok raw ∧
      Words.cut [cr, lf, cr, lf] raw = some (head, encodeLatin1 (text "b\r\n\r\nc")) ∧
      Words.pieces [cr, lf] head =
        [text "GET /a?x=1 HTTP/1.1", text "Host: localhost:8080", text "Content-Length: 6"].map
          encodeLatin1 := by
  intro _ fields
  have hf : ∀ key, Latin1Text (fields.getD key []) := by
    intro key
    rcases key <;> decide
  have hurl : splitUrl (fields.getD .url []) = .ok (text "/a?x=1", text "HTTP/1.1") := rfl
  have hlength : contentLength fields = .ok (text "6") := by decide +kernel
  obtain ⟨raw, target, version, head, value, hraw, hsplit, hvalue, hcut, hlines⟩ :=
    reconstruct_reads_back hf (fun _ => cr_mem_of_mem_asciiUpper) (by decide) (by decide)
      (by decide) ⟨_, hurl⟩
  obtain ⟨rfl, rfl⟩ := Prod.mk.inj (Except.ok.inj (hurl.symm.trans hsplit))
  -- a header has one value
  have hvalues : ∀ h ∈ headerOrder, value h = headerValue fields (text "6") h.1 h.2 :=
    fun h hh => (hvalue h hh).unique hf hh (isHeaderValue_headerValue hf hlength hh)
  refine ⟨raw, head, hraw, hcut, hlines.trans ?_⟩
  rw [List.filter_congr fun h hh => by rw [hvalues h hh],
    List.map_congr_left fun h hh => by rw [hvalues h (List.mem_of_mem_filter hh)]]
  decide +kernel

end

end LearningData
