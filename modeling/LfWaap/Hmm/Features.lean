import LfWaap.Domain.Flow
import LfWaap.Python.Builtins
import LfWaap.Python.Loops

/-!
# Feature extractors

How a flow becomes a sequence of symbols (`waf.infrastructure.hmm.features`). The
protocol the model relies on (a *non-empty* sequence of symbols *below* a fixed
`n_symbols`) is the structure `Waf.FeatureExtractor`: an extractor is built
together with the proofs that it keeps it, and the emission matrix of a model is
indexed by the symbols of its extractor.

Extraction may fail in one place only: the flow-feature extractor converts the
length of a packet to a float, which overflows for integers beyond the range of
floats. `Waf.Flow.Measurable` are the flows without such a packet, among them every
flow without packets.
-/

namespace Waf

open Python

/-! ### Byte classes -/

/-- The bytes counted as white space. -/
def whitespace : List ℕ := [9, 10, 13, 32]

/-- The reduced class of a byte. -/
def byteClass (b : Byte) : ℕ :=
  if b.val = 0 then 0
  else if b.val ∈ whitespace then 1
  else if (1 ≤ b.val ∧ b.val ≤ 31) ∨ b.val = 127 then 2
  else if 48 ≤ b.val ∧ b.val ≤ 57 then 3
  else if 65 ≤ b.val ∧ b.val ≤ 90 then 4
  else if 97 ≤ b.val ∧ b.val ≤ 122 then 5
  else if 128 ≤ b.val then 7
  else 6

theorem byteClass_lt (b : Byte) : byteClass b < 8 := by
  unfold byteClass
  split_ifs <;> omega

/-- The sequence itself, or one zero for the empty one. -/
def nonempty (seq : List ℕ) : List ℕ := if seq = [] then [0] else seq

theorem nonempty_ne_nil (seq : List ℕ) : nonempty seq ≠ [] := by
  unfold nonempty
  split
  · simp
  · assumption

/-- Only the empty sequence grows. -/
theorem length_nonempty (seq : List ℕ) : (nonempty seq).length = max 1 seq.length := by
  rw [nonempty]
  split
  · next h => rw [h]; rfl
  · next h =>
    have := List.length_pos_iff.mpr h
    omega

theorem lt_of_mem_nonempty {seq : List ℕ} {n : ℕ} (hn : 0 < n) (h : ∀ x ∈ seq, x < n) :
    ∀ x ∈ nonempty seq, x < n := by
  intro x hx
  unfold nonempty at hx
  split at hx
  · simp at hx
    omega
  · exact h x hx

/-! ### Packets of opaque flows -/

/-- The edges of the length bins. -/
def lengthBins : List ℚ := [64, 256, 512, 1024, 1460, 4096, 16384]

/-- The edges of the inter-arrival bins, in milliseconds. -/
def iatBins : List ℚ := [1, 10, 100, 1000]

/-- The number of length bins. -/
def nLen : ℕ := lengthBins.length + 1

/-- The number of inter-arrival bins. -/
def nIat : ℕ := iatBins.length + 1

/-- The number of flag indices. -/
def nFlags : ℕ := 8

/-- The index of a combination of TCP flags. -/
def flagIndex (flags : Text) : ℕ :=
  if flags = text "S" then 0
  else if flags = text "SA" then 1
  else if flags = text "A" then 2
  else if flags = text "PA" then 3
  else if flags = text "FA" then 4
  else if flags = text "F" then 5
  else if flags = text "R" then 6
  else 7

theorem flagIndex_lt (flags : Text) : flagIndex flags < 8 := by
  unfold flagIndex
  split_ifs <;> omega

/-- `value <= edge`: false for a value that is no number. -/
def PyFloat.le (value : PyFloat) (edge : ℚ) : Bool :=
  match value with
  | .nan => false
  | .inf negative => negative
  | .finite q => decide (q ≤ edge)

/-- The first bin whose edge is not below the value. -/
def bin (value : PyFloat) (edges : List ℚ) : ℕ := edges.findIdx fun edge => PyFloat.le value edge

theorem bin_le (value : PyFloat) (edges : List ℚ) : bin value edges ≤ edges.length :=
  List.findIdx_le_length

section

variable [Interpreter]

/-- The symbol of one packet. -/
def packetSymbol (p : PacketMeta) : Except PyError ℕ :=
  if FloatRange p.length then
    -- the edges are floats, so rounding the length would not move it to another bin
    let d := if p.direction = .inbound then 0 else 1
    let lb := bin (.finite p.length) lengthBins
    let ib := bin p.interArrivalMs iatBins
    .ok (((d * nLen + lb) * nIat + ib) * nFlags + flagIndex (Interpreter.upper p.tcpFlags))
  else .error (.overflowError "int too large to convert to float")

theorem packetSymbol_lt {p : PacketMeta} {s : ℕ} (h : packetSymbol p = .ok s) :
    s < 2 * nLen * nIat * nFlags := by
  unfold packetSymbol at h
  split at h
  · have hlb : bin (.finite p.length) lengthBins ≤ 7 := bin_le _ _
    have hib : bin p.interArrivalMs iatBins ≤ 4 := bin_le _ _
    have hfb := flagIndex_lt (Interpreter.upper p.tcpFlags)
    have hlen : nLen = 8 := rfl
    have hiat : nIat = 5 := rfl
    have hflags : nFlags = 8 := rfl
    have hs := Except.ok.inj h
    rw [hlen, hiat, hflags] at hs ⊢
    split at hs <;> omega
  · exact absurd h (by simp)

/-- All packets of a flow have a length that `float` converts. -/
def Flow.Measurable (f : Flow) : Prop := ∀ p ∈ f.packets, FloatRange p.length

theorem Flow.measurable_of_packets_eq_nil {f : Flow} (h : f.packets = []) : f.Measurable := by
  rw [Flow.Measurable, h]
  exact nofun

/-! ### Extractors -/

/-- **An extractor**: its name, its alphabet, and a function from flows to
non-empty sequences over this alphabet. -/
structure FeatureExtractor where
  name : Text
  nSymbols : ℕ
  extract : Flow → Except PyError (List ℕ)
  /-- The sequence is never empty. -/
  extract_ne_nil : ∀ {f s}, extract f = .ok s → s ≠ []
  /-- The symbols are in the alphabet. -/
  extract_lt : ∀ {f s}, extract f = .ok s → ∀ x ∈ s, x < nSymbols
  /-- Extraction fails on packet lengths beyond the range of floats only. -/
  extract_isOk : ∀ f : Flow, f.Measurable → ∃ s, extract f = .ok s

/-- The sequence of a flow, as symbols of the alphabet. -/
def FeatureExtractor.symbols (x : FeatureExtractor) (f : Flow) :
    Except PyError (List (Fin x.nSymbols)) :=
  match h : x.extract f with
  | .error e => .error e
  | .ok s => .ok (s.pmap Fin.mk (x.extract_lt h))

theorem FeatureExtractor.extract_of_symbols {x : FeatureExtractor} {f : Flow}
    {s : List (Fin x.nSymbols)} (h : x.symbols f = .ok s) : x.extract f = .ok (s.map Fin.val) := by
  unfold symbols at h
  split at h
  · exact absurd h (by simp)
  · next s' hs' =>
    obtain rfl := Except.ok.inj h
    refine hs'.trans (congrArg Except.ok ?_)
    rw [List.map_pmap, List.pmap_eq_map, List.map_id']

/-- The sequence of a flow is not empty. -/
theorem FeatureExtractor.symbols_ne_nil {x : FeatureExtractor} {f : Flow}
    {s : List (Fin x.nSymbols)} (h : x.symbols f = .ok s) : s ≠ [] := by
  rintro rfl
  exact x.extract_ne_nil (extract_of_symbols h) rfl

/-- Flows with one sequence have the same symbols. -/
theorem FeatureExtractor.symbols_congr {x : FeatureExtractor} {f g : Flow}
    (h : x.extract f = x.extract g) : x.symbols f = x.symbols g := by
  unfold symbols
  split
  · next e he =>
    split
    · next e' he' => rw [he, he'] at h; exact congrArg Except.error (Except.error.inj h)
    · next s' hs' => rw [he, hs'] at h; cases h
  · next s hs =>
    split
    · next e' he' => rw [hs, he'] at h; cases h
    · next s' hs' =>
      obtain rfl : s = s' := Except.ok.inj (hs.symm.trans (h.trans hs'))
      rfl

/-- The sequence of a flow can be extracted. -/
def FeatureExtractor.Extracts (x : FeatureExtractor) (f : Flow) : Prop := ∃ s, x.extract f = .ok s

theorem FeatureExtractor.symbols_of_extracts {x : FeatureExtractor} {f : Flow}
    (h : x.Extracts f) : ∃ s, x.symbols f = .ok s := by
  obtain ⟨s, hs⟩ := h
  unfold symbols
  split
  · next e he => rw [hs] at he; exact absurd he (by simp)
  · exact ⟨_, rfl⟩

/-- Each payload byte is its own observation. -/
def rawByteExtractor : FeatureExtractor where
  name := text "raw_byte"
  nSymbols := 256
  extract := fun f => .ok (nonempty (f.payload.map Fin.val))
  extract_ne_nil := fun h => Except.ok.inj h ▸ nonempty_ne_nil _
  extract_lt := fun {f s} h => Except.ok.inj h ▸ lt_of_mem_nonempty (by omega) fun x hx => by
    obtain ⟨b, -, rfl⟩ := List.mem_map.mp hx
    exact b.isLt
  extract_isOk := fun _ _ => ⟨_, rfl⟩

/-- Each byte is mapped to one of 8 classes. -/
def byteClassExtractor : FeatureExtractor where
  name := text "byte_class"
  nSymbols := 8
  extract := fun f => .ok (nonempty (f.payload.map byteClass))
  extract_ne_nil := fun h => Except.ok.inj h ▸ nonempty_ne_nil _
  extract_lt := fun {f s} h => Except.ok.inj h ▸ lt_of_mem_nonempty (by omega) fun x hx => by
    obtain ⟨b, -, rfl⟩ := List.mem_map.mp hx
    exact byteClass_lt b
  extract_isOk := fun _ _ => ⟨_, rfl⟩

/-- A window of classes as one number in base 8. -/
def windowToken (cs : List ℕ) : ℕ := cs.foldl (fun token c => token * 8 + c) 0

omit [Interpreter] in
theorem foldl_token_lt {cs : List ℕ} (h : ∀ c ∈ cs, c < 8) {t k : ℕ} (ht : t < 8 ^ k) :
    cs.foldl (fun token c => token * 8 + c) t < 8 ^ (k + cs.length) := by
  induction cs generalizing t k with
  | nil => exact ht
  | cons c cs ih =>
    have hc := h c List.mem_cons_self
    have hstep : t * 8 + c < 8 ^ (k + 1) := by
      rw [Nat.pow_succ]
      omega
    have := ih (fun d hd => h d (List.mem_cons_of_mem _ hd)) hstep
    rw [List.foldl_cons, List.length_cons]
    rwa [show k + (cs.length + 1) = k + 1 + cs.length by omega]

/-- The classes of a payload, padded with class 0 to at least one window. -/
def paddedClasses (window : ℕ) (payload : Bytes) : List ℕ :=
  let classes := payload.map byteClass
  if classes.length < window then classes ++ List.replicate (window - classes.length) 0
  else classes

omit [Interpreter] in
theorem lt_of_mem_paddedClasses {window : ℕ} {payload : Bytes} :
    ∀ c ∈ paddedClasses window payload, c < 8 := by
  have hcls : ∀ c ∈ payload.map byteClass, c < 8 := fun c hc => by
    obtain ⟨b, -, rfl⟩ := List.mem_map.mp hc
    exact byteClass_lt b
  intro c hc
  unfold paddedClasses at hc
  dsimp only at hc
  split at hc
  · rcases List.mem_append.mp hc with hc | hc
    · exact hcls c hc
    · rw [(List.mem_replicate.mp hc).2]
      omega
  · exact hcls c hc

/-- The tokens of all windows of a sequence of classes. -/
def windowTokens (window : ℕ) (classes : List ℕ) : List ℕ :=
  (List.range (classes.length - window + 1)).map fun i =>
    windowToken ((classes.drop i).take window)

/-- A sliding n-gram over byte classes. -/
def windowTokenExtractor (window : ℕ) : FeatureExtractor where
  name := text "window_token(w=" ++ natText window ++ text ")"
  nSymbols := 8 ^ window
  extract := fun f => .ok (nonempty (windowTokens window (paddedClasses window f.payload)))
  extract_ne_nil := fun h => Except.ok.inj h ▸ nonempty_ne_nil _
  extract_lt := fun {f s} h => Except.ok.inj h ▸ lt_of_mem_nonempty (by positivity) fun x hx => by
    obtain ⟨i, -, rfl⟩ := List.mem_map.mp hx
    have hlt : ∀ c ∈ ((paddedClasses window f.payload).drop i).take window, c < 8 := fun c hc =>
      lt_of_mem_paddedClasses c (List.mem_of_mem_drop (List.mem_of_mem_take hc))
    have hle : (((paddedClasses window f.payload).drop i).take window).length ≤ window := by
      rw [List.length_take]
      omega
    calc windowToken (((paddedClasses window f.payload).drop i).take window)
        < 8 ^ (0 + (((paddedClasses window f.payload).drop i).take window).length) :=
          foldl_token_lt hlt (by simp)
      _ ≤ 8 ^ window := Nat.pow_le_pow_right (by omega) (by omega)
  extract_isOk := fun _ _ => ⟨_, rfl⟩

/-- The constructor of the source. -/
def windowTokenExtractor? (window : ℤ) : Except PyError FeatureExtractor :=
  if window < 1 then .error (.valueError "window must be >= 1")
  else .ok (windowTokenExtractor window.toNat)

/-- One symbol a packet, for encrypted traffic. -/
def flowFeatureExtractor : FeatureExtractor where
  name := text "flow_feature"
  nSymbols := 2 * nLen * nIat * nFlags
  extract := fun f => (f.packets.mapM packetSymbol).map nonempty
  extract_ne_nil := fun {f s} h => by
    obtain ⟨ps, -, rfl⟩ := exists_of_map_eq_ok h
    exact nonempty_ne_nil ps
  extract_lt := fun {f s} h => by
    obtain ⟨ps, hps, rfl⟩ := exists_of_map_eq_ok h
    refine lt_of_mem_nonempty (by decide) fun x hx => ?_
    obtain ⟨p, -, hp⟩ := exists_of_mem_values hps hx
    exact packetSymbol_lt hp
  extract_isOk := fun f hf => by
    obtain ⟨ps, hps⟩ := exists_mapM_eq_ok packetSymbol f.packets fun p hp =>
      ⟨_, if_pos (hf p hp)⟩
    exact ⟨nonempty ps, by rw [hps]; rfl⟩

/-- An extractor by its name in a configuration. -/
def extractorByName (name : Text) : Except PyError FeatureExtractor :=
  let key := Interpreter.lower (strip name)
  if key = text "raw_byte" then .ok rawByteExtractor
  else if key = text "byte_class" then .ok byteClassExtractor
  else if key = text "window_token" then windowTokenExtractor? 2
  else .error (.valueError "unknown extractor (choose: raw_byte, byte_class, window_token)")

end

end Waf
