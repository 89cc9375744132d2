import LfWaap.Hmm.HttpFlow
import LfWaap.LearningData.CsicToPackets
import LfWaap.Python.Floats
import LfWaap.Words.Positions

/-!
# Flows of the CSIC dataset

`learning_data.csic_traffic_source`: a reconstructed packet as the flow a model is
trained and evaluated on. Its port is read from the host cell of the row, not from the
packet.

The flows of the benign packets are split into those a detector is fitted on and those it
is calibrated with: every `s`-th one is held out, where the stride `s` is the reciprocal of
the ratio asked for, rounded. Each of the two sides reads the file and counts for itself;
they are the letters of one word at complementary positions
(`LearningData.CsicTrafficSource.splits_of_new`). Rounding has two consequences for the
ratios that are admitted. A reciprocal beyond the range of floats is not rounded at all, so
that there is no source for the ratio (`LearningData.CsicTrafficSource.splits_iff`); and
every ratio greater than `2 / 3` has the stride `1`, which holds out everything
(`LearningData.CsicTrafficSource.normal_ne_nil_iff`).
-/

namespace LearningData

open Python Waf

variable [Interpreter]

/-- The port a host names; the same search as for a request. -/
def portFromHost (host : Text) : ℤ := Waf.portFromHost host

/-- **The flow of a record.** -/
def recordToFlow (record : PacketRecord) : Flow :=
  Flow.new (text "http") (portFromHost record.host) .inbound record.raw

/-! ### The source -/

/-- How many records there are to each one that is held out; `0` holds out none. -/
def strideOf (validationRatio : ℚ) : Except PyError ℤ :=
  if 0 < validationRatio then pyRound (nearestFloat (1 / validationRatio)) else .ok 0

omit [Interpreter] in
/-- The records of a file as traffic. -/
structure CsicTrafficSource where
  csv : CsvFile
  limit : Option ℤ
  stride : ℤ

namespace CsicTrafficSource

/-- **A source** for a ratio of held-out records. The default is the float near `0.2`. -/
def new (csv : CsvFile) (validationRatio : PyFloat := .finite (3602879701896397 / 2 ^ 54))
    (limit : Option ℤ := none) : Except PyError CsicTrafficSource :=
  match validationRatio with
  | .finite ratio =>
    if 0 ≤ ratio ∧ ratio < 1 then
      (strideOf ratio).map fun stride => { csv := csv, limit := limit, stride := stride }
    else .error (.valueError "validation_ratio must be in [0, 1)")
  | _ => .error (.valueError "validation_ratio must be in [0, 1)")

/-- The benign record with this number is held out. -/
def isValidation (source : CsicTrafficSource) (benignIndex : ℕ) : Bool :=
  if source.stride = 0 then false
  else decide ((benignIndex : ℤ) % source.stride = source.stride - 1)

/-- The loop over the records, which counts the benign ones. -/
def benignLoop : ℕ → List PacketRecord → List (ℕ × Flow)
  | _, [] => []
  | benignIndex, record :: records =>
    if record.isNormal then
      (benignIndex, recordToFlow record) :: benignLoop (benignIndex + 1) records
    else benignLoop benignIndex records

/-- The flows of the benign records, numbered. -/
def benignFlows (source : CsicTrafficSource) : Generator (ℕ × Flow) :=
  let records := iterPackets source.csv source.limit
  ⟨benignLoop 0 records.yields, records.raised⟩

/-- The flows to fit on. -/
def normal (source : CsicTrafficSource) : Generator Flow :=
  (source.benignFlows.filter fun e => !source.isValidation e.1).map Prod.snd

/-- The flows to calibrate with. -/
def validation (source : CsicTrafficSource) : Generator Flow :=
  (source.benignFlows.filter fun e => source.isValidation e.1).map Prod.snd

end CsicTrafficSource

/-! ### The port of a record -/

/-- A host cell without a value, with or without the name of the header in it, names no
port. -/
theorem portFromHost_of_blank {cell : Text}
    (h : strip (stripKnownPrefix cell (text "Host")) = []) :
    portFromHost (strip cell) = defaultHttpPort := by
  rw [stripKnownPrefix] at h
  cases hv : embeddedValue cell (text "Host") with
  | none =>
    rw [hv] at h
    rw [show strip cell = [] from h]
    rfl
  | some v =>
    rw [hv] at h
    obtain ⟨u, r, hu, rfl⟩ := exists_of_embeddedValue hv
    -- nothing but white space follows the colon, so the cell ends with it
    have hspace : ∀ c ∈ r, Interpreter.isSpace c = true :=
      isSpace_of_lstrip (isSpace_of_strip_eq_nil h)
    have hcolon : Interpreter.isSpace (cp ':') = false := by
      rw [Interpreter.isSpace_latin1 _ (by decide)]
      decide
    have hcell : strip cell = u ++ [cp ':'] := by
      rw [strip, hu]
      exact rstrip_append_cons hcolon hspace
    rw [portFromHost, Waf.portFromHost, hcell, afterLast_append_singleton]
    rfl

/-! ### The two sides of the split -/

/-- The flows of the benign records that are read, in the order of the file. -/
def benign (csv : CsvFile) (limit : Option ℤ) : List Flow :=
  ((iterPackets csv limit).yields.filter PacketRecord.isNormal).map recordToFlow

namespace CsicTrafficSource

/-- The loop numbers the benign records without a gap, whatever lies between them. -/
theorem benignLoop_eq (benignIndex : ℕ) (records : List PacketRecord) :
    benignLoop benignIndex records =
      (((records.filter PacketRecord.isNormal).map recordToFlow).zipIdx benignIndex).map
        Prod.swap := by
  induction records generalizing benignIndex with
  | nil => rfl
  | cons record records ih =>
    rw [benignLoop, List.filter_cons]
    cases record.isNormal with
    | true =>
      rw [if_pos rfl, if_pos rfl, ih, List.map_cons, List.zipIdx_cons, List.map_cons]
      rfl
    | false => exact ih benignIndex

/-- One side of the split: the flows of the benign records at the positions it takes. -/
theorem filter_benignFlows (source : CsicTrafficSource) (p : ℕ → Bool) :
    ((source.benignFlows.filter fun e => p e.1).map Prod.snd).yields =
      Words.atPositions p (benign source.csv source.limit) := by
  change ((benignLoop 0 _).filter _).map Prod.snd = _
  rw [benignLoop_eq, List.filter_map, List.map_map]
  rfl

/-- The flows to fit on are those at the positions that are not held out. -/
theorem normal_yields (source : CsicTrafficSource) :
    source.normal.yields =
      Words.atPositions (fun i => !source.isValidation i) (benign source.csv source.limit) :=
  source.filter_benignFlows fun i => !source.isValidation i

/-- The flows to calibrate with are those at the positions that are held out. -/
theorem validation_yields (source : CsicTrafficSource) :
    source.validation.yields =
      Words.atPositions source.isValidation (benign source.csv source.limit) :=
  source.filter_benignFlows source.isValidation

omit [Interpreter] in
/-- Which positions are held out depends on the stride alone. -/
theorem isValidation_of_stride {csv : CsvFile} {limit : Option ℤ} {s : ℕ} (hs : 0 < s) :
    (CsicTrafficSource.mk csv limit s).isValidation = fun i => decide (i % s = s - 1) := by
  have hne : (s : ℤ) ≠ 0 := by exact_mod_cast hs.ne'
  funext i
  rw [isValidation]
  rw [if_neg hne]
  refine decide_eq_decide.mpr ?_
  dsimp only
  omega

/-! ### Rounding the reciprocal -/

omit [Interpreter] in
/-- **There is a stride** for the ratio `0`, and for the ratios whose reciprocal is in the
range of floats; for no others. -/
theorem exists_strideOf_iff {ratio : ℚ} (h0 : 0 ≤ ratio) :
    (∃ s, strideOf ratio = .ok s) ↔ ratio = 0 ∨ 1 / ratio < 2 ^ 1024 - 2 ^ 970 := by
  rw [strideOf]
  rcases h0.eq_or_lt with rfl | hpos
  · exact iff_of_true ⟨0, if_neg (lt_irrefl 0)⟩ (.inl rfl)
  · rw [if_pos hpos, or_iff_right hpos.ne']
    constructor
    · intro h
      by_contra hlarge
      have hinf := (nearestFloat_eq_inf_iff (one_div_pos.mpr hpos)).mpr (not_lt.mp hlarge)
      rw [hinf] at h
      exact not_exists_error_eq_ok h
    · intro h
      rw [nearestFloat_of_lt (one_div_pos.mpr hpos) h]
      exact ⟨_, rfl⟩

omit [Interpreter] in
/-- The stride of a positive ratio. -/
theorem strideOf_eq_ok {ratio : ℚ} {s : ℤ} (hpos : 0 < ratio) (h : strideOf ratio = .ok s) :
    s = roundHalfEven (roundToUlp (1 / ratio)) := by
  have hlt := ((exists_strideOf_iff hpos.le).mp ⟨s, h⟩).resolve_left hpos.ne'
  rw [strideOf, if_pos hpos, nearestFloat_of_lt (one_div_pos.mpr hpos) hlt] at h
  exact (Except.ok.inj h).symm

omit [Interpreter] in
/-- The stride of a positive ratio below `1` is positive. -/
theorem exists_strideOf_eq_natCast {ratio : ℚ} {s : ℤ} (hpos : 0 < ratio) (h1 : ratio < 1)
    (h : strideOf ratio = .ok s) : ∃ n : ℕ, 0 < n ∧ s = n := by
  have hone : 1 ≤ 1 / ratio := by
    rw [le_div_iff₀ hpos, one_mul]
    exact h1.le
  have hs := one_le_round hone
  rw [← strideOf_eq_ok hpos h] at hs
  exact ⟨s.toNat, by omega, by omega⟩

omit [Interpreter] in
/-- A source is built exactly from a ratio with a stride. -/
theorem new_eq_ok_iff {csv : CsvFile} {ratio : ℚ} {limit : Option ℤ}
    {source : CsicTrafficSource} :
    new csv (.finite ratio) limit = .ok source ↔
      (0 ≤ ratio ∧ ratio < 1) ∧ ∃ s, strideOf ratio = .ok s ∧ source = ⟨csv, limit, s⟩ := by
  rw [new]
  split
  · next h =>
    rw [and_iff_right h]
    constructor
    · exact exists_of_map_eq_ok
    · rintro ⟨s, hs, rfl⟩
      rw [hs]
      rfl
  · next h => exact iff_of_false nofun fun hnew => h hnew.1

/-! ### The split -/

/-- **A source splits the benign records** of a file, as it is asked to. -/
structure Splits (csv : CsvFile) (ratio : ℚ) (limit : Option ℤ) (source : CsicTrafficSource) :
    Prop where
  /-- The two sides are the flows of the benign records at complementary positions. -/
  complementary : ∃ held : ℕ → Bool,
    source.validation.yields = Words.atPositions held (benign csv limit) ∧
      source.normal.yields = Words.atPositions (fun i => !held i) (benign csv limit)
  /-- Both sides keep the order of the file. -/
  ordered : source.validation.yields.Sublist (benign csv limit) ∧
    source.normal.yields.Sublist (benign csv limit)
  /-- Every benign record goes to one of the two sides, and nothing else goes to any. -/
  complete : (source.validation.yields ++ source.normal.yields).Perm (benign csv limit)
  /-- Nothing is held out for the ratio `0`. -/
  nothing : ratio = 0 → source.validation.yields = []
  /-- One in so many as the reciprocal of the ratio, rounded, is held out. -/
  share : 0 < ratio → ∃ s : ℕ, 0 < s ∧ pyRound (nearestFloat (1 / ratio)) = .ok s ∧
    source.validation.yields.length = (benign csv limit).length / s
  /-- With a larger limit both sides are extended. -/
  stable : ∀ limit', LimitLe limit limit' → ∃ source',
    new csv (.finite ratio) limit' = .ok source' ∧
      source.normal.yields <+: source'.normal.yields ∧
      source.validation.yields <+: source'.validation.yields

/-- **Every source splits the benign records of its file.** -/
theorem splits_of_new {csv : CsvFile} {ratio : ℚ} {limit : Option ℤ} {source : CsicTrafficSource}
    (hnew : new csv (.finite ratio) limit = .ok source) : Splits csv ratio limit source := by
  obtain ⟨⟨h0, h1⟩, s, hs, rfl⟩ := new_eq_ok_iff.mp hnew
  refine ⟨⟨_, validation_yields _, normal_yields _⟩, ?_, ?_, ?_, ?_, ?_⟩
  · rw [validation_yields, normal_yields]
    exact ⟨Words.atPositions_sublist _ _, Words.atPositions_sublist _ _⟩
  · rw [validation_yields, normal_yields]
    exact Words.atPositions_append_perm _ _
  · rintro rfl
    obtain rfl : 0 = s := Except.ok.inj hs
    rw [validation_yields]
    exact Words.atPositions_eq_nil (fun _ => rfl) _
  · intro hpos
    obtain ⟨n, hn, rfl⟩ := exists_strideOf_eq_natCast hpos h1 hs
    refine ⟨n, hn, ?_, ?_⟩
    · rwa [strideOf, if_pos hpos] at hs
    · rw [validation_yields, isValidation_of_stride hn, Words.length_atPositions,
        Words.countP_every hn]
  · intro limit' hle
    have hbenign : benign csv limit <+: benign csv limit' :=
      ((iterPackets_extends csv hle).filter _).map _
    refine ⟨_, new_eq_ok_iff.mpr ⟨⟨h0, h1⟩, s, hs, rfl⟩, ?_, ?_⟩
    -- the two sources hold out the same positions
    · rw [normal_yields, normal_yields]
      exact Words.atPositions_extends _ hbenign
    · rw [validation_yields, validation_yields]
      exact Words.atPositions_extends _ hbenign

/-- **The benign records of a file are split**, for a ratio from `0` on and below `1`, exactly
when it is `0` or its reciprocal is in the range of floats: for a smaller positive ratio the
reciprocal is rounded to infinity, and there is no source. -/
theorem splits_iff (csv : CsvFile) {ratio : ℚ} (h0 : 0 ≤ ratio) (h1 : ratio < 1)
    (limit : Option ℤ) :
    (∃ source, new csv (.finite ratio) limit = .ok source ∧ Splits csv ratio limit source) ↔
      ratio = 0 ∨ 1 / ratio < 2 ^ 1024 - 2 ^ 970 := by
  rw [← exists_strideOf_iff h0]
  constructor
  · rintro ⟨source, hnew, -⟩
    obtain ⟨-, s, hs, -⟩ := new_eq_ok_iff.mp hnew
    exact ⟨s, hs⟩
  · rintro ⟨s, hs⟩
    have hnew : new csv (.finite ratio) limit = .ok ⟨csv, limit, s⟩ :=
      new_eq_ok_iff.mpr ⟨⟨h0, h1⟩, s, hs, rfl⟩
    exact ⟨_, hnew, splits_of_new hnew⟩

omit [Interpreter] in
/-- The smallest ratio that is not `0` is admitted by its check and refused by rounding, so
that a file is not split at all. -/
theorem not_splits_smallest :
    let _ : Interpreter := .ascii
    let csv : CsvFile :=
      { rows := ⟨[[text "URL", text "class"], [text "/", text "normal"]], none⟩
        latin1 := by decide }
    let ratio : ℚ := 1 / 2 ^ 1074
    IsFloat ratio ∧ 0 ≤ ratio ∧ ratio < 1 ∧
      new csv (.finite ratio) none =
        .error (.overflowError "cannot convert float infinity to integer") ∧
      ¬∃ source, new csv (.finite ratio) none = .ok source ∧ Splits csv ratio none source := by
  intro _ csv ratio
  have hpos : 0 < ratio := by positivity
  have h1 : ratio < 1 := by
    refine (div_lt_one (by positivity)).mpr ?_
    exact one_lt_pow₀ one_lt_two (by decide)
  have hfloat : IsFloat ratio := by
    refine ⟨1, -1074, by decide, le_rfl, by decide, ?_⟩
    rw [Int.cast_one, one_mul, zpow_neg, zpow_ofNat, ← one_div]
  have hlarge : (2 : ℚ) ^ 1024 - 2 ^ 970 ≤ 1 / ratio := by
    rw [one_div_one_div]
    exact (sub_le_self _ (by positivity)).trans (pow_le_pow_right₀ one_le_two (by decide))
  have hstride : strideOf ratio =
      .error (.overflowError "cannot convert float infinity to integer") := by
    rw [strideOf, if_pos hpos, (nearestFloat_eq_inf_iff (one_div_pos.mpr hpos)).mpr hlarge]
    rfl
  have hnew : new csv (.finite ratio) none =
      .error (.overflowError "cannot convert float infinity to integer") := by
    rw [new, if_pos ⟨hpos.le, h1⟩, hstride]
    rfl
  refine ⟨hfloat, hpos.le, h1, hnew, ?_⟩
  rintro ⟨source, hsource, -⟩
  rw [hnew] at hsource
  cases hsource

omit [Interpreter] in
/-- One record in two. -/
theorem splits_half :
    let _ : Interpreter := .ascii
    let csv : CsvFile :=
      { rows := ⟨[[text "URL", text "class"], [text "/", text "normal"],
          [text "/", text "anomalous"], [text "/", text "normal"]], none⟩
        latin1 := by decide }
    ∃ source, new csv (.finite (1 / 2)) none = .ok source ∧ Splits csv (1 / 2) none source := by
  intro _ csv
  refine (splits_iff csv (by norm_num) (by norm_num) none).mpr (.inr ?_)
  rw [one_div_one_div]
  decide +kernel

/-! ### What is left to fit on -/

/-- With the stride `1` every record is held out. -/
theorem normal_eq_nil_of_stride {csv : CsvFile} {limit : Option ℤ} :
    (CsicTrafficSource.mk csv limit 1).normal.yields = [] := by
  rw [normal_yields]
  refine Words.atPositions_eq_nil (fun i => ?_) _
  have hheld : (CsicTrafficSource.mk csv limit ((1 : ℕ) : ℤ)).isValidation i =
      decide (i % 1 = 1 - 1) := congrFun (isValidation_of_stride Nat.one_pos) i
  rw [Nat.cast_one] at hheld
  rw [hheld, Nat.mod_one]
  rfl

/-- With any other stride the first benign record is kept. -/
theorem normal_ne_nil_of_stride {source : CsicTrafficSource} (hs : source.stride ≠ 1)
    (hne : benign source.csv source.limit ≠ []) : source.normal.yields ≠ [] := by
  have hfirst : source.isValidation 0 = false := by
    rw [isValidation]
    split
    · rfl
    · refine decide_eq_false ?_
      rw [Nat.cast_zero, Int.zero_emod]
      omega
  rw [normal_yields]
  exact Words.atPositions_ne_nil (by rw [hfirst]; rfl) hne

/-- **What is left to fit on**: of at least two benign records one is left exactly when the
ratio is at most `2 / 3`. The reciprocal of a greater ratio is rounded to `1`, and every
record is held out. -/
theorem normal_ne_nil_iff {csv : CsvFile} {ratio : ℚ} {limit : Option ℤ}
    {source : CsicTrafficSource} (hfloat : IsFloat ratio)
    (hnew : new csv (.finite ratio) limit = .ok source) (htwo : 2 ≤ (benign csv limit).length) :
    source.normal.yields ≠ [] ↔ ratio ≤ 2 / 3 := by
  obtain ⟨⟨h0, h1⟩, s, hs, rfl⟩ := new_eq_ok_iff.mp hnew
  have hne : benign csv limit ≠ [] := List.ne_nil_of_length_pos (by omega)
  rcases h0.eq_or_lt with rfl | hpos
  · obtain rfl : 0 = s := Except.ok.inj hs
    exact iff_of_true (normal_ne_nil_of_stride nofun hne) (by norm_num)
  · rw [← two_le_round_one_div_iff hfloat hpos h1, ← strideOf_eq_ok hpos hs]
    obtain ⟨n, hn, rfl⟩ := exists_strideOf_eq_natCast hpos h1 hs
    constructor
    · intro h
      by_contra hone
      obtain rfl : n = 1 := by omega
      exact h normal_eq_nil_of_stride
    · intro h
      exact normal_ne_nil_of_stride (by dsimp only; omega) hne

omit [Interpreter] in
/-- Three records in four are asked for, and both benign records of a file are held out. -/
theorem normal_eq_nil_three_quarters :
    let _ : Interpreter := .ascii
    let csv : CsvFile :=
      { rows := ⟨[[text "URL", text "class"], [text "/", text "normal"],
          [text "/", text "normal"]], none⟩
        latin1 := by decide }
    IsFloat (3 / 4) ∧ 2 ≤ (benign csv none).length ∧
      ∃ source, new csv (.finite (3 / 4)) none = .ok source ∧ source.normal.yields = [] := by
  intro _ csv
  have hstride : strideOf (3 / 4) = .ok 1 := by decide +kernel
  refine ⟨⟨3, -2, by decide, by decide, by decide, by norm_num⟩, by decide +kernel,
    ⟨csv, none, 1⟩, ?_, normal_eq_nil_of_stride⟩
  exact new_eq_ok_iff.mpr ⟨by norm_num, 1, hstride, rfl⟩

omit [Interpreter] in
/-- One record in two is asked for, and the first one is left. -/
theorem normal_ne_nil_half :
    let _ : Interpreter := .ascii
    let csv : CsvFile :=
      { rows := ⟨[[text "URL", text "class"], [text "/", text "normal"],
          [text "/", text "normal"]], none⟩
        latin1 := by decide }
    (CsicTrafficSource.mk csv none 2).normal.yields ≠ [] := by
  intro _ csv
  have hstride : strideOf (1 / 2) = .ok 2 := by decide +kernel
  have hfloat : IsFloat (1 / 2) := ⟨1, -1, by decide, by decide, by decide, by norm_num⟩
  have hnew : new csv (.finite (1 / 2)) none = .ok ⟨csv, none, 2⟩ :=
    new_eq_ok_iff.mpr ⟨by norm_num, 2, hstride, rfl⟩
  exact (normal_ne_nil_iff hfloat hnew (by decide +kernel)).mpr (by norm_num)

end CsicTrafficSource

end LearningData
