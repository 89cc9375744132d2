import LfWaap.Hmm.HmmDetector
import LfWaap.Hmm.SymbolContract

/-!
# Versions of the model

`waf.infrastructure.hmm.model_variant`: a version of the model is a name and a bundle of
hyperparameters, from which a new detector is built whenever one is needed. Building one
fails over the name of the extractor only, and the extractors that can be named are those
of bytes, which give every flow a sequence (`Waf.extracts_of_extractorByName`).
-/

namespace Waf

open Python

/-- **A version of the model.** -/
structure ModelVariant where
  name : Text
  extractor : Text := text "byte_class"
  nStates : ℕ := 8
  window : ℤ := 0
  ensembleSize : ℤ := 1
  targetFpr : ℝ := 5 / 100
  nIter : ℤ := 100
  maxFitWindows : Option ℤ := none
  minTrainSequences : ℤ := 10

namespace ModelVariant

/-- One of the two ideas is switched on: sliding windows, or an ensemble. -/
def usesHmmpayl (v : ModelVariant) : Bool := decide (0 < v.window) || decide (1 < v.ensembleSize)

variable [Interpreter]

/-- The hyperparameters of the detectors of a version, with an extractor. -/
def settings (v : ModelVariant) (extractor : FeatureExtractor) : HmmSettings where
  extractor := extractor
  nStates := v.nStates
  window := v.window
  ensembleSize := v.ensembleSize
  maxFitWindows := v.maxFitWindows
  targetFpr := v.targetFpr
  minTrain := v.minTrainSequences
  nIter := v.nIter

/-- **A new detector** of this version. -/
def buildDetector (v : ModelVariant) : Except PyError HmmDetector := do
  let extractor ← extractorByName v.extractor
  return ⟨v.settings extractor, { }⟩

/-- What is built: a detector without models, with the hyperparameters of the version. -/
theorem buildDetector_eq_ok_iff {v : ModelVariant} {d : HmmDetector} :
    v.buildDetector = .ok d ↔
      ∃ x, extractorByName v.extractor = .ok x ∧ d = ⟨v.settings x, { }⟩ := by
  rw [buildDetector]
  cases extractorByName v.extractor with
  | error e => exact iff_of_false nofun fun ⟨_, h, _⟩ => absurd h nofun
  | ok x =>
    constructor
    · intro h
      exact ⟨x, rfl, (Except.ok.inj h).symm⟩
    · rintro ⟨x', hx, rfl⟩
      rw [Except.ok.inj hx]
      rfl

end ModelVariant

/-! ### The presets -/

/-- The width of the sliding windows of the presets. -/
def ablationWindow : ℤ := 6

/-- The number of models in an ensemble of the presets. -/
def ablationEnsemble : ℤ := 3

/-- The number of windows the presets are fitted on at most. -/
def ablationCap : ℤ := 5000

/-- The number of iterations of the presets. -/
def ablationIter : ℤ := 30

/-- **The presets that are compared**: both ideas switched on and off over byte classes,
and the two extremes over raw bytes. -/
noncomputable def ablationMatrix : List ModelVariant :=
  [{ name := text "bc_baseline", extractor := text "byte_class", nIter := ablationIter },
    { name := text "bc_window", extractor := text "byte_class", window := ablationWindow,
      maxFitWindows := some ablationCap, nIter := ablationIter },
    { name := text "bc_ensemble", extractor := text "byte_class",
      ensembleSize := ablationEnsemble, nIter := ablationIter },
    { name := text "bc_hmmpayl", extractor := text "byte_class", window := ablationWindow,
      ensembleSize := ablationEnsemble, maxFitWindows := some ablationCap, nIter := ablationIter },
    { name := text "raw_baseline", extractor := text "raw_byte", nIter := ablationIter },
    { name := text "raw_hmmpayl", extractor := text "raw_byte", window := ablationWindow,
      ensembleSize := ablationEnsemble, maxFitWindows := some ablationCap, nIter := ablationIter }]

example : ablationMatrix.map ModelVariant.usesHmmpayl = [false, true, true, true, false, true] :=
  rfl

/-! ### Extractors that can be named -/

section

variable [Interpreter]

/-- The extractors that can be named are extractors of bytes. -/
theorem exists_choice_of_extractorByName {name : Text} {x : FeatureExtractor}
    (h : extractorByName name = .ok x) :
    ∃ choice : ExtractorChoice, x = choice.extractor ∧ choice ≠ .flowFeature := by
  unfold extractorByName at h
  dsimp only at h
  split_ifs at h
  · exact ⟨.rawByte, (Except.ok.inj h).symm, nofun⟩
  · exact ⟨.byteClass, (Except.ok.inj h).symm, nofun⟩
  · obtain ⟨hw, hx⟩ := ExtractorChoice.windowTokenExtractor?_eq_ok_iff.mp h
    exact ⟨.windowToken 2 hw, hx, nofun⟩

/-- **Every flow has a sequence** under an extractor that can be named. -/
theorem extracts_of_extractorByName {name : Text} {x : FeatureExtractor}
    (h : extractorByName name = .ok x) (f : Flow) : x.Extracts f := by
  obtain ⟨choice, rfl, hne⟩ := exists_choice_of_extractorByName h
  exact (choice.extracts_iff f).mpr fun heq => absurd heq hne

/-- The detectors of a version extract a sequence from every flow. -/
theorem extracts_of_buildDetector {v : ModelVariant} {d : HmmDetector}
    (h : v.buildDetector = .ok d) (f : Flow) : d.settings.extractor.Extracts f := by
  obtain ⟨x, hx, rfl⟩ := ModelVariant.buildDetector_eq_ok_iff.mp h
  exact extracts_of_extractorByName hx f

omit [Interpreter] in
/-- A text of ASCII in lower case, without white space. -/
def IsKey (name : Text) : Prop :=
  ∀ c ∈ name, c.val < 128 ∧ latin1Space c = false ∧ asciiLower c = c

omit [Interpreter] in
instance : DecidablePred IsKey := fun name => List.decidableBAll _ name

/-- Such a name is its own key. -/
theorem lower_strip_of_isKey {name : Text} (h : IsKey name) : lower (strip name) = name := by
  have hspace : ∀ c ∈ name, Interpreter.isSpace c = false := by
    intro c hc
    obtain ⟨hlt, hc', -⟩ := h c hc
    rw [Interpreter.isSpace_latin1 c (by omega), hc']
  rw [strip_of_not_isSpace hspace, Interpreter.lower_ascii name fun c hc => (h c hc).1]
  exact (List.map_congr_left fun c hc => (h c hc).2.2).trans (List.map_id name)

/-- The extractors of the presets, under their names. -/
theorem extractorByName_byteClass :
    extractorByName (text "byte_class") = .ok byteClassExtractor := by
  have hkey : lower (strip (text "byte_class")) = text "byte_class" :=
    lower_strip_of_isKey (by decide)
  unfold extractorByName
  dsimp only
  rw [hkey, if_neg (by decide), if_pos rfl]

theorem extractorByName_rawByte : extractorByName (text "raw_byte") = .ok rawByteExtractor := by
  have hkey : lower (strip (text "raw_byte")) = text "raw_byte" := lower_strip_of_isKey (by decide)
  unfold extractorByName
  dsimp only
  rw [hkey, if_pos rfl]

/-- The presets name extractors that exist. -/
theorem exists_extractor_of_mem_ablationMatrix {v : ModelVariant} (hv : v ∈ ablationMatrix) :
    ∃ x, extractorByName v.extractor = .ok x := by
  simp only [ablationMatrix, List.mem_cons, List.not_mem_nil, or_false] at hv
  rcases hv with rfl | rfl | rfl | rfl | rfl | rfl
  · exact ⟨_, extractorByName_byteClass⟩
  · exact ⟨_, extractorByName_byteClass⟩
  · exact ⟨_, extractorByName_byteClass⟩
  · exact ⟨_, extractorByName_byteClass⟩
  · exact ⟨_, extractorByName_rawByte⟩
  · exact ⟨_, extractorByName_rawByte⟩

end

end Waf
