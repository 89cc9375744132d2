import LfWaap.Hmm.SymbolContract
import LfWaap.Words.Windows

/-!
# Window tokens lose nothing

The tokens of `WindowTokenExtractor` are the codes of the windows of a payload, in base 8: the
classes of the bytes are the digits. A payload that is as long as a window is told from its
tokens up to the classes of its bytes, which can be read back; and with a window of one byte,
the extractor is that of the classes, on the empty payload as well
(`Waf.windowTokens_lossless`).

Shorter payloads are padded with class 0, which is the class of the byte zero: what is told then
is the padded sequence (`Waf.extract_windowToken_eq_iff`). And not every list of tokens comes
from a payload: after a token there can be only eight others (`Waf.exists_payload_iff`).
-/

namespace Waf

open Python Words

/-! ### Tokens as codes -/

section

variable {w : ℕ} {classes : List ℕ} {payload : Bytes}

theorem windowToken_eq_number (cs : List ℕ) : windowToken cs = number 8 cs :=
  (number_eq_foldl 8 cs).symm

/-- **The tokens of a sequence** that is as long as a window are the codes of its windows. -/
theorem windowTokens_eq_codes (h : w ≤ classes.length) :
    windowTokens w classes = codes 8 w classes := by
  have hlen : classes.length - w + 1 = classes.length + 1 - w := by omega
  rw [windowTokens, codes, windows, List.map_map, hlen]
  exact List.map_congr_left fun i _ => windowToken_eq_number _

theorem paddedClasses_of_le (h : w ≤ payload.length) :
    paddedClasses w payload = payload.map byteClass := by
  refine if_neg ?_
  rw [List.length_map]
  exact Nat.not_lt_of_le h

theorem le_length_paddedClasses (w : ℕ) (payload : Bytes) :
    w ≤ (paddedClasses w payload).length := by
  rw [ExtractorChoice.length_paddedClasses]
  exact le_max_left _ _

/-- A byte of a class. -/
def byteOfClass (c : ℕ) : Byte :=
  if c = 0 then 0
  else if c = 1 then 32
  else if c = 2 then 127
  else if c = 3 then 48
  else if c = 4 then 65
  else if c = 5 then 97
  else if c = 6 then 33
  else 128

theorem byteClass_byteOfClass {c : ℕ} (h : c < 8) : byteClass (byteOfClass c) = c := by
  interval_cases c <;> decide

end

section

variable [Interpreter] {w : ℕ}

/-- **What the extractor returns**: the codes of the padded sequence. -/
theorem extract_windowToken (w : ℕ) (f : Flow) :
    (windowTokenExtractor w).extract f = .ok (codes 8 w (paddedClasses w f.payload)) := by
  have hlen := le_length_paddedClasses w f.payload
  have hne : codes 8 w (paddedClasses w f.payload) ≠ [] := by
    refine List.ne_nil_of_length_pos ?_
    rw [codes, List.length_map, length_windows]
    omega
  show Except.ok (nonempty (windowTokens w (paddedClasses w f.payload))) = _
  rw [windowTokens_eq_codes hlen, nonempty, if_neg hne]

/-- **Two payloads have the same tokens** exactly if their padded sequences are the same. -/
theorem extract_windowToken_eq_iff (hw : 0 < w) (f g : Flow) :
    (windowTokenExtractor w).extract f = (windowTokenExtractor w).extract g ↔
      paddedClasses w f.payload = paddedClasses w g.payload := by
  rw [extract_windowToken, extract_windowToken]
  constructor
  · intro h
    exact codes_injective (by decide) hw lt_of_mem_paddedClasses lt_of_mem_paddedClasses
      (le_length_paddedClasses w _) (le_length_paddedClasses w _) (Except.ok.inj h)
  · intro h
    rw [h]

/-- **Windows of one byte**: the tokens are the classes. -/
theorem extract_windowToken_one (f : Flow) :
    (windowTokenExtractor 1).extract f = byteClassExtractor.extract f := by
  have hpadded : paddedClasses 1 f.payload = nonempty (f.payload.map byteClass) := by
    rcases f.payload with _ | ⟨b, payload⟩
    · rfl
    · exact paddedClasses_of_le (Nat.succ_le_succ (Nat.zero_le _))
  rw [extract_windowToken, codes_one, hpadded]
  rfl

/-! ### The encoding -/

omit [Interpreter] in
/-- **An encoding of a sequence of classes** by the tokens of its windows, from which the
sequence can be read back. -/
structure Encodes (w : ℕ) (classes tokens : List ℕ) : Prop where
  /-- One token for each window. -/
  length : tokens.length = classes.length - w + 1
  /-- The digits of a token in base 8 are the classes from its position on. -/
  digits : ∀ i t, tokens[i]? = some t →
    t < 8 ^ w ∧ ∀ j < w, classes[i + j]? = some (t / 8 ^ (w - 1 - j) % 8)
  /-- Tokens that follow each other share all digits but one. -/
  overlap : ∀ i t t', tokens[i]? = some t → tokens[i + 1]? = some t' →
    t' / 8 = t % 8 ^ (w - 1)
  /-- The sequence is read from the tokens. -/
  read : decode 8 w tokens = classes

omit [Interpreter] in
theorem encodes_codes {classes : List ℕ} (hw : 0 < w) (h : ∀ c ∈ classes, c < 8)
    (hlen : w ≤ classes.length) : Encodes w classes (codes 8 w classes) where
  length := by
    rw [codes, List.length_map, length_windows]
    omega
  digits i t ht := ⟨codes_lt (by decide) h (List.mem_of_getElem? ht),
    fun j hj => digitAt_codes (by decide) h ht hj⟩
  overlap i t t' ht ht' := codes_overlap (by decide) h hw ht ht'
  read := decode_codes (by decide) h hw hlen

/-- **Which lists of tokens are extracted** from payloads as long as a window: those of tokens
each of which overlaps with the next one. -/
theorem exists_payload_iff (hw : 0 < w) {tokens : List ℕ} :
    (∃ f : Flow, w ≤ f.payload.length ∧ (windowTokenExtractor w).extract f = .ok tokens) ↔
      tokens ≠ [] ∧ (∀ t ∈ tokens, t < 8 ^ w) ∧
        tokens.IsChain fun t t' => t' / 8 = t % 8 ^ (w - 1) := by
  rw [← exists_codes_eq_iff (by decide) hw]
  constructor
  · rintro ⟨f, hlen, hf⟩
    rw [extract_windowToken] at hf
    exact ⟨paddedClasses w f.payload, lt_of_mem_paddedClasses, le_length_paddedClasses w _,
      Except.ok.inj hf⟩
  · rintro ⟨classes, h, hlen, rfl⟩
    have hclasses : (classes.map byteOfClass).map byteClass = classes := by
      rw [List.map_map]
      exact (List.map_congr_left fun c hc => byteClass_byteOfClass (h c hc)).trans
        (List.map_id classes)
    have hlen' : w ≤ (classes.map byteOfClass).length := by rwa [List.length_map]
    refine ⟨Flow.new [] 0 .inbound (classes.map byteOfClass), hlen', ?_⟩
    rw [extract_windowToken]
    show Except.ok (codes 8 w (paddedClasses w (classes.map byteOfClass))) = _
    rw [paddedClasses_of_le hlen', hclasses]

/-- **Window tokens lose nothing.** For every window from 1 on, which the constructor accepts:
payloads as long as a window have the same tokens exactly if their bytes have the same classes;
the tokens encode these classes; and with a window of one byte, the extractor is that of the
classes. -/
theorem windowTokens_lossless (hw : 1 ≤ w) :
    (∃ x, windowTokenExtractor? w = .ok x ∧
      (∀ f g : Flow, w ≤ f.payload.length → w ≤ g.payload.length →
        (x.extract f = x.extract g ↔ f.payload.map byteClass = g.payload.map byteClass)) ∧
      ∀ f : Flow, w ≤ f.payload.length →
        ∃ tokens, x.extract f = .ok tokens ∧ Encodes w (f.payload.map byteClass) tokens) ∧
    ∃ x, windowTokenExtractor? 1 = .ok x ∧ ∀ f, x.extract f = byteClassExtractor.extract f := by
  have hconstructor : windowTokenExtractor? w = .ok (windowTokenExtractor w) := by
    rw [windowTokenExtractor?, if_neg (by omega), Int.toNat_natCast]
  refine ⟨⟨_, hconstructor, fun f g hf hg => ?_, fun f hf => ?_⟩, _, rfl, extract_windowToken_one⟩
  · rw [extract_windowToken_eq_iff hw, paddedClasses_of_le hf, paddedClasses_of_le hg]
  · refine ⟨_, extract_windowToken w f, ?_⟩
    have hlt : ∀ c ∈ paddedClasses w f.payload, c < 8 := lt_of_mem_paddedClasses
    have hlen := le_length_paddedClasses w f.payload
    rw [paddedClasses_of_le hf] at hlt hlen ⊢
    exact encodes_codes hw hlt hlen

omit [Interpreter] in
/-- Two payloads that differ in the class of their last byte. -/
theorem windowTokens_lossless_two :
    let _ : Interpreter := .ascii
    let f := Flow.new (text "http") 80 .inbound [65, 49, 32]
    let g := Flow.new (text "http") 80 .inbound [65, 49, 33]
    ∃ x, windowTokenExtractor? 2 = .ok x ∧ x.extract f = .ok [35, 25] ∧
      x.extract f ≠ x.extract g := by
  intro _ f g
  obtain ⟨⟨x, hx, hsame, -⟩, -⟩ := windowTokens_lossless (w := 2) (by decide)
  refine ⟨x, hx, ?_, fun h => ?_⟩
  · rw [← Except.ok.inj hx]
    rfl
  · have hclasses := (hsame f g (by decide) (by decide)).mp h
    exact absurd hclasses (by decide)

end

end Waf
