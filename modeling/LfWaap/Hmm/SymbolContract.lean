import LfWaap.Hmm.Features

/-!
# The symbol contract

What the emission matrix relies on: an extractor returns a sequence that is not empty, of
symbols below its `n_symbols`. The extractors of bytes keep the contract on every flow,
with one symbol a byte or one a window, and one symbol for the empty payload. The
extractor of packets keeps it on the flows whose packet lengths `float` converts, and on
no others, since it raises there (`Waf.ExtractorChoice.keeps_iff`).
-/

namespace Waf

open Python

variable [Interpreter]

/-! ### The extractors there are -/

/-- **The extractors of the source**, with the arguments their constructors accept. -/
inductive ExtractorChoice where
  | rawByte
  | byteClass
  | windowToken (window : ℤ) (h : 1 ≤ window)
  | flowFeature

namespace ExtractorChoice

/-- The extractor. -/
def extractor : ExtractorChoice → FeatureExtractor
  | rawByte => rawByteExtractor
  | byteClass => byteClassExtractor
  | windowToken window _ => windowTokenExtractor window.toNat
  | flowFeature => flowFeatureExtractor

/-- The number of symbols a flow is given. -/
def expectedLength (f : Flow) : ExtractorChoice → ℤ
  | rawByte => max 1 f.payload.length
  | byteClass => max 1 f.payload.length
  | windowToken window _ => max 1 (f.payload.length - window + 1)
  | flowFeature => max 1 f.packets.length

/-- An extractor keeps the contract on a flow: it returns, its sequence is not empty and
has the expected length, and all symbols are in the alphabet. -/
def Keeps (x : ExtractorChoice) (f : Flow) : Prop :=
  ∃ s, x.extractor.extract f = .ok s ∧ s ≠ [] ∧ (∀ y ∈ s, y < x.extractor.nSymbols) ∧
    (s.length : ℤ) = x.expectedLength f

/-- The constructor of the window extractor accepts the windows from 1 on. -/
theorem windowTokenExtractor?_eq_ok_iff {window : ℤ} {x : FeatureExtractor} :
    windowTokenExtractor? window = .ok x ↔
      ∃ h : 1 ≤ window, x = (windowToken window h).extractor := by
  rw [windowTokenExtractor?]
  constructor
  · intro h
    split at h
    · exact absurd h nofun
    · exact ⟨by omega, (Except.ok.inj h).symm⟩
  · rintro ⟨h, rfl⟩
    exact if_neg (by omega)

/-! ### Lengths -/

omit [Interpreter] in
/-- A payload is padded to one window at least. -/
theorem length_paddedClasses (window : ℕ) (payload : Bytes) :
    (paddedClasses window payload).length = max window payload.length := by
  unfold paddedClasses
  dsimp only
  split
  · next h =>
    rw [List.length_append, List.length_replicate]
    rw [List.length_map] at h ⊢
    omega
  · next h =>
    rw [List.length_map] at h ⊢
    omega

omit [Interpreter] in
theorem length_windowTokens (window : ℕ) (classes : List ℕ) :
    (windowTokens window classes).length = classes.length - window + 1 := by
  rw [windowTokens, List.length_map, List.length_range]

/-- An extractor that returns keeps the first two parts by its construction. -/
theorem keeps_of_length {x : ExtractorChoice} {f : Flow} {s : List ℕ}
    (h : x.extractor.extract f = .ok s) (hlen : (s.length : ℤ) = x.expectedLength f) :
    x.Keeps f :=
  ⟨s, h, x.extractor.extract_ne_nil h, x.extractor.extract_lt h, hlen⟩

/-- **The extractor of packets** returns exactly on the flows it can measure. -/
theorem extracts_flowFeature_iff {f : Flow} :
    flowFeatureExtractor.Extracts f ↔ f.Measurable := by
  refine ⟨?_, flowFeatureExtractor.extract_isOk f⟩
  rintro ⟨s, hs⟩ p hp
  obtain ⟨symbols, hsymbols, -⟩ := exists_of_map_eq_ok hs
  obtain ⟨y, hy⟩ := exists_of_mem_of_mapM hsymbols hp
  by_contra hrange
  rw [packetSymbol, if_neg hrange] at hy
  cases hy

/-- **Where an extractor returns**: everywhere, but for the extractor of packets. -/
theorem extracts_iff (x : ExtractorChoice) (f : Flow) :
    x.extractor.Extracts f ↔ (x = .flowFeature → f.Measurable) := by
  cases x with
  | rawByte => exact iff_of_true ⟨_, rfl⟩ (by rintro ⟨⟩)
  | byteClass => exact iff_of_true ⟨_, rfl⟩ (by rintro ⟨⟩)
  | windowToken window h => exact iff_of_true ⟨_, rfl⟩ (by rintro ⟨⟩)
  | flowFeature => exact extracts_flowFeature_iff.trans ⟨fun hm _ => hm, fun hm => hm rfl⟩

/-! ### The contract -/

/-- **The symbol contract.** Every extractor of bytes keeps it on every flow; the
extractor of packets keeps it exactly on the flows whose packet lengths `float`
converts. -/
theorem keeps_iff (x : ExtractorChoice) (f : Flow) :
    x.Keeps f ↔ (x = .flowFeature → f.Measurable) := by
  cases x with
  | rawByte =>
    refine iff_of_true (keeps_of_length (x := .rawByte) rfl ?_) (by rintro ⟨⟩)
    rw [length_nonempty, List.length_map]
    change ((max 1 f.payload.length : ℕ) : ℤ) = max 1 (f.payload.length : ℤ)
    omega
  | byteClass =>
    refine iff_of_true (keeps_of_length (x := .byteClass) rfl ?_) (by rintro ⟨⟩)
    rw [length_nonempty, List.length_map]
    change ((max 1 f.payload.length : ℕ) : ℤ) = max 1 (f.payload.length : ℤ)
    omega
  | windowToken window h =>
    refine iff_of_true (keeps_of_length (x := .windowToken window h) rfl ?_) (by rintro ⟨⟩)
    -- a payload shorter than a window is padded to one, which gives one symbol
    rw [length_nonempty, length_windowTokens, length_paddedClasses]
    change _ = max 1 ((f.payload.length : ℤ) - window + 1)
    omega
  | flowFeature =>
    refine ⟨fun hk _ => ?_, fun hm => ?_⟩
    · obtain ⟨s, hs, -⟩ := hk
      exact extracts_flowFeature_iff.mp ⟨s, hs⟩
    · obtain ⟨s, hs⟩ := extracts_flowFeature_iff.mpr (hm rfl)
      refine keeps_of_length (x := .flowFeature) hs ?_
      obtain ⟨symbols, hsymbols, rfl⟩ := exists_of_map_eq_ok hs
      rw [length_nonempty, length_of_mapM hsymbols]
      change ((max 1 f.packets.length : ℕ) : ℤ) = max 1 (f.packets.length : ℤ)
      omega

omit [Interpreter] in
/-- A packet length beyond the range of floats. -/
theorem not_keeps_flowFeature :
    let _ : Interpreter := .ascii
    ¬flowFeature.Keeps
      (Flow.new (text "tls") 443 .inbound [] [⟨.inbound, 2 ^ 1024, .finite 0, []⟩]) := by
  intro _
  rintro ⟨s, hs, -⟩
  have hm := extracts_flowFeature_iff.mp ⟨s, hs⟩
  have hlen := hm ⟨.inbound, 2 ^ 1024, .finite 0, []⟩ List.mem_cons_self
  dsimp only at hlen
  exact not_floatRange_two_pow hlen

end ExtractorChoice

end Waf
