import LfWaap.LearningData.CsicToPackets

/-!
# Columns in another order

`learning_data.csic_to_packets` finds the columns of a file by their names. So a file may
have its columns in any order, and unknown ones between them: what `iter_packets` yields is
the same (`LearningData.iterPackets_of_rearranged`).

A table is compared with a second one in which every column of the first has a place of its
own, and all other columns have unknown names (`LearningData.Rearranged`). Permuting the
columns is of this kind (`LearningData.rearranged_permuteColumns`), and so is inserting one
that is unknown (`LearningData.rearranged_insertIdx`); and rearranging twice is rearranging
once (`LearningData.Rearranged.trans`).
-/

namespace LearningData

open Python

/-! ### The field map -/

section

variable [Interpreter]

/-- The field a column name stands for. -/
def semanticOf (name : Text) : Option Field := assocGet (normalize name) columnAliases

/-- One column is entered into the map. -/
def addColumn (fieldToIndex : Dict Field ℕ) (column : Text × ℕ) : Dict Field ℕ :=
  match semanticOf column.1 with
  | some semantic =>
    if semantic ∈ fieldToIndex.keys then fieldToIndex else fieldToIndex.set semantic column.2
  | none => fieldToIndex

theorem buildFieldMap_eq (header : List Text) :
    buildFieldMap header = header.zipIdx.foldl addColumn .empty := rfl

/-- A field that has a column keeps it. -/
theorem get?_addColumn (fieldToIndex : Dict Field ℕ) (column : Text × ℕ) (key : Field) :
    (addColumn fieldToIndex column).get? key =
      (fieldToIndex.get? key).or
        (if semanticOf column.1 = some key then some column.2 else none) := by
  rw [addColumn]
  cases semanticOf column.1 with
  | none => exact (Option.or_none).symm
  | some semantic =>
    dsimp only
    by_cases hkey : semantic = key
    · obtain rfl := hkey
      rw [if_pos (rfl : some semantic = some semantic)]
      split_ifs with hmem
      · obtain ⟨i, hi⟩ := Dict.mem_keys_iff.mp hmem
        rw [hi, Option.some_or]
      · have hnone : fieldToIndex.get? semantic = none := by
          rw [Option.eq_none_iff_forall_not_mem]
          exact fun i hi => hmem (Dict.mem_keys_iff.mpr ⟨i, hi⟩)
        rw [Dict.get?_set, if_pos rfl, hnone, Option.none_or]
    · rw [if_neg fun h => hkey (Option.some.inj h), Option.or_none]
      split_ifs
      · rfl
      · rw [Dict.get?_set, if_neg hkey]

/-- The loop over the columns keeps what was there, and adds the first column of a field. -/
theorem get?_foldl_addColumn (header : List Text) (n : ℕ) (m : Dict Field ℕ) (key : Field) :
    ((header.zipIdx n).foldl addColumn m).get? key =
      (m.get? key).or ((header.findIdx? fun name => decide (semanticOf name = some key)).map
        (· + n)) := by
  induction header generalizing n m with
  | nil => exact (Option.or_none).symm
  | cons name header ih =>
    rw [List.zipIdx_cons, List.foldl_cons, ih, get?_addColumn, List.findIdx?_cons, Option.or_assoc]
    congr 1
    by_cases hkey : semanticOf name = some key
    · rw [if_pos hkey, decide_eq_true hkey, if_pos rfl, Option.some_or, Option.map_some,
        Nat.zero_add]
    · rw [if_neg hkey, decide_eq_false hkey, Option.none_or, if_neg Bool.false_ne_true,
        Option.map_map]
      congr 1
      funext i
      show i + (n + 1) = i + 1 + n
      omega

/-- **The column of a field** is the first one that is named after it. -/
theorem get?_buildFieldMap (header : List Text) (key : Field) :
    (buildFieldMap header).get? key =
      header.findIdx? fun name => decide (semanticOf name = some key) := by
  rw [buildFieldMap_eq, get?_foldl_addColumn, Dict.get?_empty, Option.none_or]
  exact congrFun Option.map_id _

end

/-- The cell of a field: the one in its column. -/
theorem getD_rowFields (fieldToIndex : Dict Field ℕ) (row : List Text) (key : Field) :
    (rowFields fieldToIndex row).getD key [] =
      (fieldToIndex.get? key).elim [] fun i => row[i]?.getD [] := by
  have hget : ∀ es : List (Field × ℕ), assocGet key (es.map fun e => (e.1, row[e.2]?.getD [])) =
      (assocGet key es).map fun i => row[i]?.getD [] := by
    intro es
    induction es with
    | nil => rfl
    | cons e es ih =>
      rw [List.map_cons, assocGet, assocGet, ih]
      split <;> rfl
  rw [Dict.getD, Dict.get?, entries_rowFields, hget]
  show _ = ((assocGet key fieldToIndex.entries)).elim _ _
  cases assocGet key fieldToIndex.entries <;> rfl

/-! ### Rows with the same cells -/

section

variable [Interpreter]

/-- **A record is read from the cells of its fields** and from nothing else. -/
theorem packetRecord_congr {fields fields' : Dict Field Text}
    (h : ∀ key, fields.getD key [] = fields'.getD key []) :
    packetRecord fields = packetRecord fields' := by
  have hmethod : requestMethod fields = requestMethod fields' := by
    rw [requestMethod, requestMethod, h]
  have hlength : contentLength fields = contentLength fields' := by
    rw [contentLength, contentLength, h, h]
  have hvalue : ∀ length, headerValue fields length = headerValue fields' length := by
    intro length
    funext key headerName
    rw [headerValue, headerValue, h]
  have hheaders : emittedHeaders fields = emittedHeaders fields' := by
    funext length
    rw [emittedHeaders, emittedHeaders, hvalue]
  have hraw : reconstruct fields = reconstruct fields' := by
    rw [reconstruct, reconstruct, hmethod, hlength, hheaders, h, h]
  rw [packetRecord, packetRecord, hraw, h, h, h]

end

/-! ### Rearranged tables -/

variable {header header' header'' : List Text} {rows rows' rows'' : List (List Text)}

/-- **A rearranged table**: the column `i` of the first table is the column `place i` of the
second, which has unknown columns besides. -/
structure Rearranged [Interpreter] (place : ℕ → ℕ) (header : List Text) (rows : List (List Text))
    (header' : List Text) (rows' : List (List Text)) : Prop where
  /-- No two columns have the same place. -/
  injective : ∀ i < header.length, ∀ j < header.length, place i = place j → i = j
  /-- The names of the columns. -/
  names : ∀ i < header.length, header'[place i]? = header[i]?
  /-- The cells of the columns. -/
  cells : List.Forall₂ (fun row row' : List Text =>
    ∀ i < header.length, row'[place i]? = row[i]?) rows rows'
  /-- All other columns are unknown. -/
  unknown : ∀ j name, header'[j]? = some name → (∀ i < header.length, place i ≠ j) →
    semanticOf name = none

/-- No two columns are named after the same field. -/
def NoFieldTwice [Interpreter] (header : List Text) : Prop := (header.filterMap semanticOf).Nodup

variable [Interpreter] {place place' : ℕ → ℕ}

/-- Columns of one field are the same column. -/
theorem NoFieldTwice.index_unique (hn : NoFieldTwice header) {i j : ℕ} {name name' : Text}
    {key : Field} (hi : header[i]? = some name) (hj : header[j]? = some name')
    (hkey : semanticOf name = some key) (hkey' : semanticOf name' = some key) : i = j := by
  have hpair : header.Pairwise fun a b => ∀ k, semanticOf a = some k → semanticOf b ≠ some k := by
    have h := List.pairwise_filterMap.mp hn
    refine h.imp fun hab k ha hb => ?_
    exact hab k ha k hb rfl
  obtain ⟨hi', rfl⟩ := List.getElem?_eq_some_iff.mp hi
  obtain ⟨hj', rfl⟩ := List.getElem?_eq_some_iff.mp hj
  rcases Nat.lt_trichotomy i j with hlt | heq | hgt
  · exact absurd hkey' (List.pairwise_iff_getElem.mp hpair i j hi' hj' hlt key hkey)
  · exact heq
  · exact absurd hkey (List.pairwise_iff_getElem.mp hpair j i hj' hi' hgt key hkey')

/-- **A field has its column in the place** of the one it had. -/
theorem Rearranged.get?_buildFieldMap (h : Rearranged place header rows header' rows')
    (hn : NoFieldTwice header) (key : Field) :
    (buildFieldMap header').get? key = ((buildFieldMap header).get? key).map place := by
  rw [LearningData.get?_buildFieldMap, LearningData.get?_buildFieldMap]
  -- a column of the field in the second table is that of one in the first
  have hback : ∀ j name, header'[j]? = some name → semanticOf name = some key →
      ∃ i < header.length, place i = j ∧ header[i]? = some name := by
    intro j name hj hkey
    by_contra hnone
    have hall : ∀ i < header.length, place i ≠ j := by
      rintro i hi rfl
      exact hnone ⟨i, hi, rfl, (h.names i hi).symm.trans hj⟩
    rw [h.unknown j name hj hall] at hkey
    cases hkey
  cases hfind : header.findIdx? fun name => decide (semanticOf name = some key) with
  | none =>
    rw [Option.map_none, List.findIdx?_eq_none_iff]
    intro name hmem
    obtain ⟨j, hj⟩ := List.getElem?_of_mem hmem
    refine decide_eq_false fun hkey => ?_
    obtain ⟨i, -, -, hi⟩ := hback j name hj hkey
    have hfalse := List.findIdx?_eq_none_iff.mp hfind name (List.mem_of_getElem? hi)
    exact of_decide_eq_false hfalse hkey
  | some i =>
    rw [Option.map_some]
    obtain ⟨hi, hkey, -⟩ := List.findIdx?_eq_some_iff_getElem.mp hfind
    have hname : header[i]? = some header[i] := List.getElem?_eq_getElem hi
    have hplace : header'[place i]? = some header[i] := (h.names i hi).trans hname
    obtain ⟨hlt, hget⟩ := List.getElem?_eq_some_iff.mp hplace
    refine List.findIdx?_eq_some_iff_getElem.mpr
      ⟨hlt, by rw [hget]; exact hkey, fun j hj hkey' => ?_⟩
    -- another column of the field would be the same one in the first table
    obtain ⟨i', -, hpi, hi'⟩ := hback j _ (List.getElem?_eq_getElem (hj.trans hlt))
      (of_decide_eq_true hkey')
    obtain rfl := hn.index_unique hi' hname (of_decide_eq_true hkey') (of_decide_eq_true hkey)
    exact hj.ne' hpi

/-- The rows of both tables have the same cells in their fields. -/
theorem Rearranged.getD_rowFields (h : Rearranged place header rows header' rows')
    (hn : NoFieldTwice header) {row row' : List Text}
    (hrow : ∀ i < header.length, row'[place i]? = row[i]?) (key : Field) :
    (rowFields (buildFieldMap header') row').getD key [] =
      (rowFields (buildFieldMap header) row).getD key [] := by
  rw [LearningData.getD_rowFields, LearningData.getD_rowFields, h.get?_buildFieldMap hn]
  cases hfind : (buildFieldMap header).get? key with
  | none => rfl
  | some i =>
    rw [LearningData.get?_buildFieldMap] at hfind
    obtain ⟨hi, -⟩ := List.findIdx?_eq_some_iff_getElem.mp hfind
    show row'[place i]?.getD [] = row[i]?.getD []
    rw [hrow i hi]

omit [Interpreter] in
/-- Rows up to a limit, in both tables. -/
theorem forall₂_limitRows {R : List Text → List Text → Prop} (h : List.Forall₂ R rows rows')
    (limit : Option ℤ) (raised : Option PyError) :
    List.Forall₂ R (limitRows limit rows raised).yields (limitRows limit rows' raised).yields ∧
      (limitRows limit rows' raised).raised = (limitRows limit rows raised).raised := by
  rcases limit with _ | limit
  · exact ⟨h, rfl⟩
  · refine ⟨List.forall₂_take _ h, ?_⟩
    rw [limitRows, limitRows, h.length_eq]

omit [Interpreter] in
theorem forall₂_trans {α β γ : Type} {R : α → β → Prop} {S : β → γ → Prop} {T : α → γ → Prop}
    (hT : ∀ {a b c}, R a b → S b c → T a c) {as : List α} {bs : List β} {cs : List γ}
    (h : List.Forall₂ R as bs) (h' : List.Forall₂ S bs cs) : List.Forall₂ T as cs := by
  induction h generalizing cs with
  | nil =>
    cases h'
    exact .nil
  | cons hab _ ih =>
    rcases h' with _ | ⟨hbc, h'⟩
    exact .cons (hT hab hbc) (ih h')

omit [Interpreter] in
/-- Loops whose calls do the same collect the same. -/
theorem mapUntil_congr {α β γ : Type} {f : α → Except PyError γ} {g : β → Except PyError γ}
    {xs : List α} {ys : List β} (h : List.Forall₂ (fun x y => f x = g y) xs ys) :
    mapUntil f xs = mapUntil g ys := by
  induction h with
  | nil => rfl
  | cons hxy _ ih => rw [mapUntil, mapUntil, hxy, ih]

/-- **The packets of a file do not depend on where its columns are**: a table with the
columns at other places, and with unknown ones besides, has the same packets up to every
limit. -/
theorem iterPackets_of_rearranged {csv csv' : CsvFile} (hcsv : csv.rows.yields = header :: rows)
    (hcsv' : csv'.rows.yields = header' :: rows') (hraised : csv'.rows.raised = csv.rows.raised)
    (h : Rearranged place header rows header' rows') (hn : NoFieldTwice header)
    (limit : Option ℤ) : iterPackets csv' limit = iterPackets csv limit := by
  obtain ⟨hrows, hread⟩ := forall₂_limitRows h.cells limit csv.rows.raised
  have hrecords : mapUntil (fun row => packetRecord (rowFields (buildFieldMap header) row))
      (limitRows limit rows csv.rows.raised).yields =
      mapUntil (fun row => packetRecord (rowFields (buildFieldMap header') row))
        (limitRows limit rows' csv.rows.raised).yields := by
    refine mapUntil_congr (hrows.imp fun row row' hrow => ?_)
    exact packetRecord_congr fun key => (h.getD_rowFields hn hrow key).symm
  rw [iterPackets, iterPackets, hcsv, hcsv', hraised]
  dsimp only
  rw [hrecords, hread]

omit [Interpreter] in
/-- Two columns exchanged, and a third one between them. -/
theorem iterPackets_of_rearranged_three :
    let _ : Interpreter := .ascii
    let csv : CsvFile :=
      { rows := ⟨[[text "URL", text "class"], [text "/a", text "normal"]], none⟩
        latin1 := by decide }
    let csv' : CsvFile :=
      { rows := ⟨[[text "class", text "note", text "URL"],
          [text "normal", text "-", text "/a"]], none⟩
        latin1 := by decide }
    iterPackets csv' (some 1) = iterPackets csv (some 1) := by
  intro _ csv csv'
  have hplace : Rearranged (fun i => if i = 0 then 2 else 0) [text "URL", text "class"]
      [[text "/a", text "normal"]] [text "class", text "note", text "URL"]
      [[text "normal", text "-", text "/a"]] := by
    refine ⟨by decide, by decide, .cons (by decide) .nil, fun j name hj hother => ?_⟩
    rcases j with _ | _ | _ | j
    · exact absurd rfl (hother 1 (by decide))
    · rw [← Option.some.inj hj]
      decide
    · exact absurd rfl (hother 0 (by decide))
    · cases hj
  have hn : NoFieldTwice [text "URL", text "class"] := by
    rw [NoFieldTwice]
    decide
  have hcsv : csv.rows.yields = [text "URL", text "class"] :: [[text "/a", text "normal"]] := rfl
  have hcsv' : csv'.rows.yields = [text "class", text "note", text "URL"] ::
    [[text "normal", text "-", text "/a"]] := rfl
  exact iterPackets_of_rearranged hcsv hcsv' rfl hplace hn (some 1)

/-! ### Permutations and insertions -/

/-- The columns of a row in another order. Cells beyond them stay where they are. -/
def permuteColumns {n : ℕ} (σ : Equiv.Perm (Fin n)) (row : List Text) : List Text :=
  ((List.finRange n).map fun k => row.getD (σ k) []) ++ row.drop n

/-- The place of a column after a permutation. -/
def placeOfPerm {n : ℕ} (σ : Equiv.Perm (Fin n)) (i : ℕ) : ℕ :=
  if h : i < n then σ.symm ⟨i, h⟩ else i

omit [Interpreter] in
theorem getElem?_permuteColumns {n : ℕ} (σ : Equiv.Perm (Fin n)) {row : List Text}
    (h : n ≤ row.length) {i : ℕ} (hi : i < n) :
    (permuteColumns σ row)[placeOfPerm σ i]? = row[i]? := by
  have hlt : i < row.length := hi.trans_le h
  rw [placeOfPerm, dif_pos hi, permuteColumns, List.getElem?_append_left (by simp)]
  simp [List.getElem?_eq_getElem hlt]

/-- **Permuting the columns** rearranges a table whose rows are at least as long as its
header. -/
theorem rearranged_permuteColumns (σ : Equiv.Perm (Fin header.length))
    (hrows : ∀ row ∈ rows, header.length ≤ row.length) :
    Rearranged (placeOfPerm σ) header rows (permuteColumns σ header)
      (rows.map (permuteColumns σ)) where
  injective i hi j hj heq := by
    rw [placeOfPerm, placeOfPerm, dif_pos hi, dif_pos hj] at heq
    have hfin := σ.symm.injective (Fin.val_injective heq)
    exact congrArg Fin.val hfin
  names i hi := getElem?_permuteColumns σ le_rfl hi
  cells := by
    rw [List.forall₂_map_right_iff, List.forall₂_same]
    exact fun row hmem i hi => getElem?_permuteColumns σ (hrows row hmem) hi
  unknown j name hj hother := by
    -- every column of the permuted header is one of the header
    have hlen : (permuteColumns σ header).length = header.length := by simp [permuteColumns]
    have hj' : j < header.length := hlen ▸ (List.getElem?_eq_some_iff.mp hj).1
    refine absurd ?_ (hother (σ ⟨j, hj'⟩) (σ ⟨j, hj'⟩).isLt)
    rw [placeOfPerm, dif_pos (σ ⟨j, hj'⟩).isLt]
    simp

/-- **Inserting an unknown column** rearranges a table; its cells may be anything. -/
theorem rearranged_insertIdx {k : ℕ} {name : Text}
    (hname : semanticOf name = none) {cells : List Text} (hlen : cells.length = rows.length)
    (hrows : ∀ row ∈ rows, header.length ≤ row.length) :
    Rearranged (fun i => if i < k then i else i + 1) header rows (header.insertIdx k name)
      (List.zipWith (fun row cell => row.insertIdx k cell) rows cells) where
  injective i _ j _ heq := by
    split_ifs at heq <;> omega
  names i hi := by
    rw [List.getElem?_insertIdx]
    split_ifs <;> first | rfl | omega
  cells := by
    induction rows generalizing cells with
    | nil =>
      rw [List.zipWith_nil_left]
      exact .nil
    | cons row rows ih =>
      rcases cells with _ | ⟨cell, cells⟩
      · cases hlen
      · rw [List.zipWith_cons_cons]
        refine .cons (fun i hi => ?_) (ih (Nat.succ.inj hlen) fun r hr =>
          hrows r (List.mem_cons_of_mem _ hr))
        have hle := hrows row List.mem_cons_self
        rw [List.getElem?_insertIdx]
        split_ifs <;> first | rfl | omega
  unknown j name' hj hother := by
    rw [List.getElem?_insertIdx] at hj
    split_ifs at hj with hlt heq
    · have hj' := (List.getElem?_eq_some_iff.mp hj).1
      exact absurd (if_pos hlt) (hother j hj')
    · rw [← Option.some.inj hj]
      exact hname
    · have hj' := (List.getElem?_eq_some_iff.mp hj).1
      refine absurd ?_ (hother (j - 1) hj')
      rw [if_neg (by omega)]
      omega

/-- Rearranging twice is rearranging once. -/
theorem Rearranged.trans (h : Rearranged place header rows header' rows')
    (h' : Rearranged place' header' rows' header'' rows'') :
    Rearranged (fun i => place' (place i)) header rows header'' rows'' := by
  have hlt : ∀ i < header.length, place i < header'.length := fun i hi =>
    (List.getElem?_eq_some_iff.mp ((h.names i hi).trans (List.getElem?_eq_getElem hi))).1
  refine ⟨fun i hi j hj heq => ?_, fun i hi => ?_, ?_, fun j name hj hother => ?_⟩
  · exact h.injective i hi j hj (h'.injective _ (hlt i hi) _ (hlt j hj) heq)
  · exact (h'.names _ (hlt i hi)).trans (h.names i hi)
  · exact forall₂_trans (fun hrow hrow' i hi => (hrow' _ (hlt i hi)).trans (hrow i hi)) h.cells
      h'.cells
  · by_cases hplace : ∃ i' < header'.length, place' i' = j
    · -- the column was in the second table, and it was not one of the first
      obtain ⟨i', hi', rfl⟩ := hplace
      refine h.unknown i' name ((h'.names i' hi').symm.trans hj) ?_
      rintro i hi rfl
      exact hother i hi rfl
    · exact h'.unknown j name hj fun i' hi' heq => hplace ⟨i', hi', heq⟩

end LearningData
