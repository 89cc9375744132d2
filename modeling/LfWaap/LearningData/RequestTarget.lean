import LfWaap.LearningData.Reconstruction

/-!
# The target of a reconstructed request

The cell of a URL holds an absolute URL, `scheme://authority/…`, and often the version of the
protocol after a space (`LearningData.urlCell`). The request that
`learning_data.csic_to_packets._reconstruct` writes has a target of its own, put together from
the path and the query of the URL. What follows the authority in the cell is this target only
in part: the fragment is left out, and so is a question mark with nothing after it.

So all of it is written exactly if it holds no `#` and does not end with its first `?`
(`LearningData.carries_rest_iff`); everything else an attacker may put there, in the path or in
the query, is kept as it is.
-/

namespace LearningData

open Python

variable [Interpreter]

/-! ### Cells -/

/-- **The parts of an absolute URL**, up to white space. What follows the authority begins with
a slash. -/
structure AbsoluteUrl (scheme authority rest : Text) : Prop where
  letter : ∃ c r, scheme = c :: r ∧ isAsciiLetter c = true
  isSchemeChar : ∀ c ∈ scheme, isSchemeChar c = true
  netloc : ∀ c ∈ authority, endsNetloc c = false ∧ Interpreter.isSpace c = false
  slash : ∃ r, rest = cp '/' :: r
  noSpace : ∀ c ∈ rest, Interpreter.isSpace c = false

/-- A version token: a text without white space that begins with `HTTP/` in capitals. -/
def IsVersion (version : Text) : Prop :=
  (text "HTTP/").isPrefixOf (upper version) = true ∧
    ∀ c ∈ version, Interpreter.isSpace c = false

/-- The absolute URL. -/
def absoluteUrl (scheme authority rest : Text) : Text :=
  scheme ++ cp ':' :: cp '/' :: cp '/' :: (authority ++ rest)

/-- The cell of an absolute URL, with a version or without one. -/
def urlCell (url : Text) (version : Option Text) : Text :=
  version.elim url fun version => url ++ cp ' ' :: version

variable {scheme authority rest : Text}

theorem not_isSpace_of_isSchemeChar {c : CodePoint} (h : isSchemeChar c = true) :
    Interpreter.isSpace c = false ∧ c ≠ cp ':' ∧ 32 < c.val := by
  have hvals : (cp '+').val = 43 ∧ (cp '-').val = 45 ∧ (cp '.').val = 46 ∧ (cp ':').val = 58 := by
    decide
  simp only [isSchemeChar, Bool.or_eq_true, decide_eq_true_iff, Fin.ext_iff] at h
  have hlt : c.val < 256 := by omega
  rw [Interpreter.isSpace_latin1 c hlt]
  refine ⟨?_, fun hc => ?_, by omega⟩
  · simp only [latin1Space, Bool.or_eq_false_iff, decide_eq_false_iff_not]
    omega
  · rw [hc] at h
    omega

/-- There is no white space in an absolute URL. -/
theorem AbsoluteUrl.not_isSpace (h : AbsoluteUrl scheme authority rest) :
    ∀ c ∈ absoluteUrl scheme authority rest, Interpreter.isSpace c = false := by
  intro c hc
  rw [absoluteUrl, List.mem_append, List.mem_cons, List.mem_cons, List.mem_cons,
    List.mem_append] at hc
  rcases hc with hc | rfl | rfl | rfl | hc | hc
  · exact (not_isSpace_of_isSchemeChar (h.isSchemeChar c hc)).1
  · rw [Interpreter.isSpace_latin1 _ (by decide)]
    decide
  · rw [Interpreter.isSpace_latin1 _ (by decide)]
    decide
  · rw [Interpreter.isSpace_latin1 _ (by decide)]
    decide
  · exact (h.netloc c hc).2
  · exact h.noSpace c hc

theorem space_notMem {t : Text} (h : ∀ c ∈ t, Interpreter.isSpace c = false) : cp ' ' ∉ t := by
  intro hmem
  have hspace := h _ hmem
  rw [Interpreter.isSpace_latin1 _ (by decide)] at hspace
  exact absurd hspace (by decide)

/-- A text with no white space at its ends is not stripped. -/
theorem strip_eq_self {c d : CodePoint} {r s : Text} (hc : Interpreter.isSpace c = false)
    (hd : Interpreter.isSpace d = false) (h : c :: r = s ++ [d]) : strip (c :: r) = c :: r := by
  rw [strip, lstrip_of_not_isSpace hc, h]
  exact rstrip_append_cons hd (List.forall_mem_nil _)

omit [Interpreter] in
theorem rpartition_append_cons {sep : CodePoint} {t : Text} (h : sep ∉ t) (s : Text) :
    rpartition sep (s ++ sep :: t) = (s, t) := by
  have hrev : (s ++ sep :: t).reverse = t.reverse ++ sep :: s.reverse := by simp
  rw [rpartition, if_pos (by simp), hrev, partition_append_cons (by simpa using h),
    List.reverse_reverse, List.reverse_reverse]

/-- **URL and version of a cell** are those it was made of. -/
theorem urlAndVersion_urlCell (h : AbsoluteUrl scheme authority rest) {version : Option Text}
    (hv : ∀ v ∈ version, IsVersion v) :
    urlAndVersion (urlCell (absoluteUrl scheme authority rest) version) =
      (absoluteUrl scheme authority rest, version.getD (text "HTTP/1.1")) := by
  have hspace := h.not_isSpace
  obtain ⟨c, r, hcr⟩ : ∃ c r, absoluteUrl scheme authority rest = c :: r := by
    obtain ⟨c, r, rfl, -⟩ := h.letter
    exact ⟨c, _, rfl⟩
  rw [hcr] at hspace ⊢
  have hc := hspace c List.mem_cons_self
  rcases version with _ | version
  · have hlast := List.dropLast_append_getLast (List.cons_ne_nil c r)
    have hstrip : strip (c :: r) = c :: r :=
      strip_eq_self hc (hspace _ (List.getLast_mem _)) hlast.symm
    rw [urlCell, Option.elim_none, urlAndVersion, hstrip, rpartition,
      if_neg (space_notMem hspace)]
    rfl
  · obtain ⟨hbegins, hvs⟩ := hv version rfl
    have hne : version ≠ [] := by
      rintro rfl
      rw [Interpreter.upper_ascii [] asciiText_nil] at hbegins
      exact absurd hbegins (by decide)
    have hstrip : strip (c :: r ++ cp ' ' :: version) = c :: r ++ cp ' ' :: version := by
      rcases List.eq_nil_or_concat version with hnil | ⟨s, d, rfl⟩
      · exact absurd hnil hne
      · have hsnoc : c :: (r ++ cp ' ' :: s.concat d) = (c :: r ++ cp ' ' :: s) ++ [d] := by simp
        exact strip_eq_self hc (hvs d (by simp)) hsnoc
    rw [urlCell, Option.elim_some, urlAndVersion, hstrip,
      rpartition_append_cons (space_notMem hvs)]
    exact if_pos ⟨List.cons_ne_nil c r, hbegins⟩

/-! ### The URL -/

/-- There is nothing to be cleaned. -/
theorem cleanUrl_absoluteUrl (h : AbsoluteUrl scheme authority rest) :
    cleanUrl (absoluteUrl scheme authority rest) = absoluteUrl scheme authority rest := by
  obtain ⟨c, r, hcr, -⟩ := h.letter
  have hdrop : ¬c.val ≤ 32 := by
    have hc := not_isSpace_of_isSchemeChar (h.isSchemeChar c (hcr ▸ List.mem_cons_self))
    omega
  have hkeep : ∀ d ∈ absoluteUrl scheme authority rest,
      (!(decide (d = cp '\t') || decide (d = cp '\r') || decide (d = cp '\n'))) = true := by
    intro d hd
    have hspace := h.not_isSpace d hd
    by_contra hfalse
    simp only [Bool.not_eq_true, Bool.not_eq_false', Bool.or_eq_true,
      decide_eq_true_iff] at hfalse
    rcases hfalse with (rfl | rfl) | rfl <;>
      · rw [Interpreter.isSpace_latin1 _ (by decide)] at hspace
        exact absurd hspace (by decide)
  have hhead : (absoluteUrl scheme authority rest).dropWhile (fun d => decide (d.val ≤ 32)) =
      absoluteUrl scheme authority rest := by
    rw [absoluteUrl, hcr, List.cons_append]
    exact List.dropWhile_cons_of_neg (by simpa using hdrop)
  rw [cleanUrl, hhead]
  exact List.filter_eq_self.mpr hkeep

theorem splitScheme_absoluteUrl (h : AbsoluteUrl scheme authority rest) :
    splitScheme (absoluteUrl scheme authority rest) =
      (lower scheme, cp '/' :: cp '/' :: (authority ++ rest)) := by
  obtain ⟨c, r, hcr, hletter⟩ := h.letter
  have hcolon : cp ':' ∉ scheme := fun hmem =>
    (not_isSpace_of_isSchemeChar (h.isSchemeChar _ hmem)).2.1 rfl
  have hpart : partition (cp ':') (absoluteUrl scheme authority rest) =
      (scheme, cp '/' :: cp '/' :: (authority ++ rest)) := partition_append_cons hcolon _
  have hurl : absoluteUrl scheme authority rest =
      c :: (r ++ cp ':' :: cp '/' :: cp '/' :: (authority ++ rest)) := by
    rw [absoluteUrl, hcr]
    rfl
  rw [hurl]
  show (if _ ∧ _ ∧ _ then _ else _) = _
  rw [← hurl, hpart]
  exact if_pos ⟨by simp [absoluteUrl], hletter, List.all_eq_true.mpr h.isSchemeChar⟩

/-- The authority ends where the rest begins, with its slash. -/
theorem splitNetloc_absoluteUrl (h : AbsoluteUrl scheme authority rest) :
    splitNetloc (cp '/' :: cp '/' :: (authority ++ rest)) = (authority, rest) := by
  obtain ⟨t, rfl⟩ := h.slash
  have hall : ∀ d ∈ authority, (!endsNetloc d) = true := by
    intro d hd
    rw [(h.netloc d hd).1]
    rfl
  rw [splitNetloc, if_pos ⟨rfl, rfl⟩, List.takeWhile_append_of_pos hall,
    List.dropWhile_append_of_pos hall,
    List.takeWhile_cons_of_neg (p := fun d => !endsNetloc d) (by decide),
    List.dropWhile_cons_of_neg (p := fun d => !endsNetloc d) (by decide), List.append_nil]

/-- **The parts of an absolute URL** as they are split. -/
theorem urlsplit_absoluteUrl (h : AbsoluteUrl scheme authority rest) :
    urlsplit (absoluteUrl scheme authority rest) =
      (checkNetloc authority).elim
        (.ok ⟨lower scheme, authority, (partition (cp '?') (partition (cp '#') rest).1).1,
          (partition (cp '?') (partition (cp '#') rest).1).2, (partition (cp '#') rest).2⟩)
        .error := by
  rw [urlsplit, cleanUrl_absoluteUrl h, splitScheme_absoluteUrl h]
  dsimp only
  rw [splitNetloc_absoluteUrl h]
  cases checkNetloc authority with
  | none => rfl
  | some e => rfl

/-! ### The target -/

omit [Interpreter] in
/-- Path and query are put together from a text, and from a question mark. -/
theorem mem_of_mem_joinTarget {t : Text} {c : CodePoint}
    (h : c ∈ joinTarget (partition (cp '?') t).1 (partition (cp '?') t).2) :
    c ∈ t ∨ c = cp '?' := by
  rw [joinTarget] at h
  split at h
  · exact .inl (mem_of_mem_partition (.inl h))
  · rcases List.mem_append.mp h with h | h
    · rcases List.mem_append.mp h with h | h
      · exact .inl (mem_of_mem_partition (.inl h))
      · exact .inr (List.mem_singleton.mp h)
    · exact .inl (mem_of_mem_partition (.inr h))

omit [Interpreter] in
/-- What is written as the target is part of the rest, apart from a question mark. -/
theorem mem_of_mem_target {c : CodePoint}
    (h : c ∈ joinTarget (partition (cp '?') (partition (cp '#') rest).1).1
      (partition (cp '?') (partition (cp '#') rest).1).2) : c ∈ rest ∨ c = cp '?' :=
  (mem_of_mem_joinTarget h).imp_left fun hc => mem_of_mem_partition (.inl hc)

omit [Interpreter] in
/-- **What is left of a rest** when the fragment is left out and path and query are put
together again: all of it, exactly if there is no fragment and no empty query. -/
theorem joinTarget_eq_iff :
    joinTarget (partition (cp '?') (partition (cp '#') rest).1).1
        (partition (cp '?') (partition (cp '#') rest).1).2 = rest ↔
      cp '#' ∉ rest ∧ ¬∃ path, cp '?' ∉ path ∧ rest = path ++ [cp '?'] := by
  by_cases hhash : cp '#' ∈ rest
  · refine iff_of_false (fun heq => ?_) fun h => h.1 hhash
    -- the target is made of what is before the fragment
    have hno : cp '#' ∉ (partition (cp '#') rest).1 := notMem_partition _ _
    rcases mem_of_mem_joinTarget (heq.symm ▸ hhash) with h | h
    · exact hno h
    · exact absurd h (by decide)
  · rw [and_iff_right hhash, partition_of_notMem hhash]
    by_cases hquery : cp '?' ∈ rest
    · obtain ⟨path, query, rfl, hpath⟩ := List.eq_append_cons_of_mem hquery
      rw [partition_append_cons hpath, joinTarget]
      dsimp only
      split_ifs with hq
      · refine iff_of_false (fun heq => ?_) (not_not.mpr ⟨path, hpath, by rw [hq]⟩)
        have hlen := congrArg List.length heq
        rw [List.length_append, List.length_cons] at hlen
        omega
      · refine iff_of_true (by simp [text]) ?_
        rintro ⟨path', hpath', heq⟩
        have hparts := partition_append_cons hpath' []
        rw [← heq, partition_append_cons hpath] at hparts
        exact hq (Prod.mk.inj hparts).2
    · rw [partition_of_notMem hquery, joinTarget, if_pos rfl]
      refine iff_of_true rfl ?_
      rintro ⟨path, -, rfl⟩
      exact hquery (by simp)

/-- **The target of an absolute URL.** -/
theorem splitUrl_urlCell (h : AbsoluteUrl scheme authority rest) {version : Option Text}
    (hv : ∀ v ∈ version, IsVersion v) :
    splitUrl (urlCell (absoluteUrl scheme authority rest) version) =
      (checkNetloc authority).elim
        (.ok (joinTarget (partition (cp '?') (partition (cp '#') rest).1).1
          (partition (cp '?') (partition (cp '#') rest).1).2, version.getD (text "HTTP/1.1")))
        .error := by
  rw [splitUrl_eq, urlAndVersion_urlCell h hv, urlsplit_absoluteUrl h]
  cases checkNetloc authority with
  | some e => rfl
  | none =>
    -- the path begins with a slash, so it is not empty
    obtain ⟨t, rfl⟩ := h.slash
    have hpath : (partition (cp '?') (partition (cp '#') (cp '/' :: t)).1).1 ≠ [] := by
      rw [partition, if_neg (by decide), partition, if_neg (by decide)]
      exact List.cons_ne_nil _ _
    show Except.ok (joinTarget (if _ = [] then _ else _) _, _) = _
    rw [if_neg hpath, Option.elim_none]

omit [Interpreter] in
theorem asciiBytes_injOn {s t : Text} (hs : Latin1Text s) (ht : Latin1Text t)
    (h : asciiBytes s = asciiBytes t) : s = t := by
  have hval : ∀ {t : Text}, Latin1Text t → (asciiBytes t).map Fin.val = t.map Fin.val := by
    intro t ht
    rw [asciiBytes, List.map_map]
    exact List.map_congr_left fun c hc => byte_val (ht c hc)
  refine List.map_injective_iff.mpr Fin.val_injective ?_
  rw [← hval hs, ← hval ht, h]

omit [Interpreter] in
/-- A packet begins with its request line. -/
theorem requestLine_prefix_packetText (method target version : Text)
    (headers : List (Text × Text)) (body : Text) :
    encodeLatin1 (method ++ text " " ++ target ++ text " " ++ version) ++ [cr, lf] <+:
      encodeLatin1 (packetText method target version headers body) := by
  rw [encodeLatin1_packetText, List.append_assoc (encodeLatin1 _ ++ [cr, lf]),
    List.append_assoc (encodeLatin1 _ ++ [cr, lf])]
  exact List.prefix_append _ _

omit [Interpreter] in
/-- A request line tells its target, if there is no space in it. -/
theorem target_of_begins {method target target' version rest' : Text} {tail : Bytes}
    (ht : Latin1Text target) (ht' : Latin1Text target') (hs : cp ' ' ∉ target)
    (hs' : cp ' ' ∉ target')
    (h : encodeLatin1 (method ++ text " " ++ target ++ text " " ++ version) <+:
      encodeLatin1 (method ++ text " " ++ target' ++ text " " ++ rest') ++ tail) :
    target = target' := by
  have hbyte : ∀ {t : Text}, Latin1Text t → cp ' ' ∉ t → byte 32 ∉ asciiBytes t := by
    intro t ht hs hmem
    obtain ⟨c, hc, heq⟩ := List.mem_map.mp hmem
    have hval : c.val = 32 := by
      rw [← byte_val (ht c hc), heq]
      rfl
    have hspace : c = cp ' ' := Fin.ext hval
    exact hs (hspace ▸ hc)
  have hspace : encodeLatin1 (text " ") = [byte 32] := by decide
  obtain ⟨w, hw⟩ := h
  simp only [encodeLatin1_append, List.append_assoc] at hw
  rw [List.append_cancel_left_eq, List.append_cancel_left_eq, encodeLatin1_of_latin1 ht,
    encodeLatin1_of_latin1 ht', hspace] at hw
  -- both sides are cut at the first space
  have hcut : Words.cut [byte 32] (asciiBytes target ++ [byte 32] ++ (encodeLatin1 version ++ w)) =
      some (asciiBytes target, encodeLatin1 version ++ w) := Words.cut_append_sep (hbyte ht hs) _
  rw [List.append_assoc, hw, ← List.append_assoc, Words.cut_append_sep (hbyte ht' hs')] at hcut
  exact (asciiBytes_injOn ht' ht (Prod.mk.inj (Option.some.inj hcut)).1).symm

/-- **When a reconstructed request carries all that follows the authority.** Of a row with an
absolute URL, a packet is written whose request line has this as its target, exactly if the
authority is accepted, there is no `#` in it, and it does not end with its first `?`. -/
theorem carries_rest_iff {fields : Dict Field Text} (hf : Latin1Fields fields)
    (h : AbsoluteUrl scheme authority rest) {version : Option Text}
    (hv : ∀ v ∈ version, IsVersion v)
    (hcell : fields.getD .url [] = urlCell (absoluteUrl scheme authority rest) version) :
    (∃ raw, reconstruct fields = .ok raw ∧
        encodeLatin1 (requestLine fields rest (version.getD (text "HTTP/1.1"))) ++ [cr, lf] <+:
          raw) ↔
      checkNetloc authority = none ∧ cp '#' ∉ rest ∧
        ¬∃ path, cp '?' ∉ path ∧ rest = path ++ [cp '?'] := by
  have hsplit := splitUrl_urlCell h hv
  rw [← hcell] at hsplit
  rw [← joinTarget_eq_iff]
  constructor
  · rintro ⟨raw, hraw, hbegins⟩
    obtain ⟨target, version', length, hurl, -, rfl⟩ := reconstruct_eq_ok hraw
    rw [hurl] at hsplit
    cases hcheck : checkNetloc authority with
    | some e =>
      rw [hcheck, Option.elim_some] at hsplit
      cases hsplit
    | none =>
      rw [hcheck, Option.elim_none] at hsplit
      obtain ⟨rfl, rfl⟩ := Prod.mk.inj (Except.ok.inj hsplit)
      refine ⟨rfl, ?_⟩
      have hrest : Latin1Text rest := by
        refine fun c hc => hf .url c ?_
        rw [hcell, urlCell, absoluteUrl]
        cases version <;> simp [hc]
      obtain ⟨tail, htail⟩ := requestLine_prefix_packetText (requestMethod fields)
        (joinTarget (partition (cp '?') (partition (cp '#') rest).1).1
          (partition (cp '?') (partition (cp '#') rest).1).2) (version.getD (text "HTTP/1.1"))
        (emittedHeaders fields length) (fields.getD .body [])
      rw [← htail, List.append_assoc (encodeLatin1 _)] at hbegins
      refine (target_of_begins hrest (fun c hc => ?_) (space_notMem h.noSpace) (fun hc => ?_)
        ((List.prefix_append _ _).trans hbegins)).symm
      · rcases mem_of_mem_target hc with hc | rfl
        · exact hrest c hc
        · decide
      · rcases mem_of_mem_target hc with hc | hc
        · exact space_notMem h.noSpace hc
        · exact absurd hc (by decide)
  · rintro ⟨hcheck, htarget⟩
    rw [hcheck, htarget, Option.elim_none] at hsplit
    obtain ⟨length, -, hraw⟩ := reconstruct_of_splitUrl hf hsplit
    refine ⟨_, hraw, ?_⟩
    exact requestLine_prefix_packetText _ _ _ _ _

omit [Interpreter] in
theorem forall_of_all {t : Text} {p : CodePoint → Prop} [DecidablePred p]
    (h : t.all (fun c => decide (p c)) = true) : ∀ c ∈ t, p c :=
  fun c hc => of_decide_eq_true (List.all_eq_true.mp h c hc)

omit [Interpreter] in
/-- A row of the dataset, with a version in the cell. -/
theorem carries_rest_query :
    let _ : Interpreter := .ascii
    let fields : Dict Field Text := Dict.ofList [(.method, text "GET"),
      (.url, text "http://localhost:8080/a/b.jsp?id=1;%20--//x HTTP/1.0")]
    ∃ raw, reconstruct fields = .ok raw ∧
      encodeLatin1 (requestLine fields (text "/a/b.jsp?id=1;%20--//x") (text "HTTP/1.0")) ++
        [cr, lf] <+: raw := by
  intro _ fields
  have hf : ∀ key, Latin1Text (fields.getD key []) := by
    intro key
    rcases key <;> decide
  have hurl : AbsoluteUrl (text "http") (text "localhost:8080") (text "/a/b.jsp?id=1;%20--//x") :=
    ⟨⟨_, _, rfl, by decide⟩, forall_of_all (by decide), forall_of_all (by decide), ⟨_, rfl⟩,
      forall_of_all (by decide)⟩
  have hversion : ∀ v ∈ some (text "HTTP/1.0"), IsVersion v := by
    rintro v ⟨⟩
    exact ⟨by decide, forall_of_all (by decide)⟩
  refine (carries_rest_iff hf hurl hversion (by decide +kernel)).mpr
    ⟨by decide, by decide +kernel, ?_⟩
  rintro ⟨path, -, heq⟩
  have hlast := congrArg List.getLast? heq
  rw [List.getLast?_concat] at hlast
  exact absurd hlast (by decide)

omit [Interpreter] in
/-- A trailing `#`, as an injection writes it, is lost. -/
theorem not_carries_rest_hash :
    let _ : Interpreter := .ascii
    let fields : Dict Field Text := Dict.ofList [(.method, text "GET"),
      (.url, text "http://localhost:8080/a?id=1'#")]
    reconstruct fields = .ok (encodeLatin1 (text "GET /a?id=1' HTTP/1.1\r\n\r\n")) ∧
      ¬∃ raw, reconstruct fields = .ok raw ∧
        encodeLatin1 (requestLine fields (text "/a?id=1'#") (text "HTTP/1.1")) ++ [cr, lf] <+:
          raw := by
  intro _ fields
  have hraw : reconstruct fields = .ok (encodeLatin1 (text "GET /a?id=1' HTTP/1.1\r\n\r\n")) := by
    decide +kernel
  refine ⟨hraw, ?_⟩
  rintro ⟨raw, hraw', hbegins⟩
  obtain rfl := Except.ok.inj (hraw.symm.trans hraw')
  revert hbegins
  decide +kernel

end LearningData
