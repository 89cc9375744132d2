import LfWaap.Hmm.Coverage
import LfWaap.Hmm.HmmDetector
import LfWaap.Streaming.Inference

/-!
# Requests that stop the inspector

The decoder of requests accepts every text that JSON can carry, a lone surrogate
included, and a host header that is no text at all. Three calls later such a request is
to become a flow, and cannot: the detector raises, and the exception ends the loop.

`Waf.HmmDetector.inspect_decoded_isOk_iff` draws the line for a trained detector, on one
request and on a run: what can be inspected are the requests whose texts hold no
surrogates but those that stand for an octet, whose port can be read, and whose sequence
hmmlearn's `score` does not raise on. The closed examples are a path with a lone surrogate
(`Waf.HmmDetector.inspect_lone_surrogate`), and a plain request to a model that has been
fitted on one symbol and calibrated on windows alone (`Waf.HmmDetector.inspect_short`).
-/

namespace Waf

open Python

variable [Interpreter] [Libraries]

/-! ### Services -/

omit [Libraries] in
/-- Signals are collected when every detector gives one. -/
theorem signalsOf_isOk_iff {ds : List Detector} {r : HttpRequest} :
    (∃ ss, signalsOf ds r = .ok ss) ↔ ∀ d ∈ ds, ∃ s, d.inspect r = .ok s := by
  constructor
  · rintro ⟨ss, hss⟩ d hd
    exact exists_of_mem_of_mapM hss hd
  · intro h
    exact exists_mapM_eq_ok (fun d => Detector.inspect d r) ds h

omit [Libraries] in
/-- A service decides when every detector gives a signal. -/
theorem BlockDecisionService.decide_isOk_iff {service : BlockDecisionService} {r : HttpRequest} :
    (∃ v, service.decide r = .ok v) ↔ ∀ d ∈ service.detectors, ∃ s, d.inspect r = .ok s := by
  rw [← signalsOf_isOk_iff, decide]
  cases signalsOf service.detectors r with
  | error e => exact iff_of_false not_exists_error_eq_ok not_exists_error_eq_ok
  | ok ss => exact iff_of_true ⟨_, rfl⟩ ⟨ss, rfl⟩

/-- The other detectors of a service always give a signal. -/
def BlockDecisionService.OthersTotal (service : BlockDecisionService) (d : HmmDetector) : Prop :=
  d.toDetector ∈ service.detectors ∧
    ∀ d' ∈ service.detectors, d' = d.toDetector ∨ ∀ r, ∃ s, d'.inspect r = .ok s

theorem BlockDecisionService.decide_isOk_iff_of_othersTotal {service : BlockDecisionService}
    {d : HmmDetector} (h : service.OthersTotal d) {r : HttpRequest} :
    (∃ v, service.decide r = .ok v) ↔ ∃ s, d.inspect r = .ok s := by
  rw [decide_isOk_iff]
  constructor
  · intro hall
    exact hall d.toDetector h.1
  · rintro hd d' hd'
    -- the detector itself, or one that never raises
    rcases h.2 d' hd' with rfl | htotal
    · exact hd
    · exact htotal r

/-! ### What a detector survives -/

omit [Interpreter] [Libraries] in
/-- A plain request can be serialised. -/
theorem serialisable_plain :
    let _ : Interpreter := .ascii
    (HttpRequest.new (text "GET") (text "/")).Serialisable :=
  ⟨fun _ h => absurd h nofun, by decide, by decide, by decide, by decide, nofun⟩

omit [Interpreter] [Libraries] in
/-- It is read back from its message. -/
theorem decode_plain :
    let _ : Interpreter := .ascii
    let r := HttpRequest.new (text "GET") (text "/")
    decodeRequest (encodeRequest r) = .ok r := by
  intro _ r
  refine decodeRequest_encodeRequest ⟨noSurrogatePair_of_ascii ?_, noSurrogatePair_of_ascii ?_,
    List.IsChain.nil, List.IsChain.nil, List.IsChain.nil, nofun⟩
  · decide
  · decide

/-- **What a trained detector survives.** A request becomes a flow exactly when it can be
serialised; a decoded request is inspected exactly when it also is one that hmmlearn's
`score` does not raise on, under the models of its partition; and a run of a service in which
no other detector raises returns exactly when every message is such a request. -/
theorem HmmDetector.inspect_decoded_isOk_iff {d : HmmDetector} (ht : d.isTrained = true) :
    (∀ r, (∃ f, httpRequestToFlow r = .ok f) ↔ r.Serialisable) ∧
      (∀ message r, decodeRequest message = .ok r →
        ((∃ s, d.inspect r = .ok s) ↔ r.Serialisable ∧ d.Accepts r)) ∧
      ∀ (s : StreamingInspector) (channel : InMemoryChannel), s.decider.OthersTotal d →
        ((∃ n, (s.run channel).2 = .ok n) ↔ ∀ message ∈ channel.poll s.requestsTopic,
          ∃ r, decodeRequest message = .ok r ∧ r.Serialisable ∧ d.Accepts r) := by
  refine ⟨fun _ => httpRequestToFlow_isOk_iff, fun _ _ _ => inspect_isOk_iff ht, ?_⟩
  intro s channel hs
  rw [StreamingInspector.run_isOk_iff]
  -- a run returns if every message is decided, so one message is left to look at
  refine forall₂_congr fun message _ => ?_
  constructor
  · rintro ⟨v, hv⟩
    obtain ⟨r, hr, hv⟩ := exists_of_bind_eq_ok hv
    refine ⟨r, hr, (inspect_isOk_iff ht).mp ?_⟩
    exact (BlockDecisionService.decide_isOk_iff_of_othersTotal hs).mp ⟨v, hv⟩
  · rintro ⟨r, hr, hser⟩
    obtain ⟨v, hv⟩ := (BlockDecisionService.decide_isOk_iff_of_othersTotal hs).mpr
      ((inspect_isOk_iff ht).mpr hser)
    exact ⟨v, by rw [StreamingInspector.decideMessage, hr, ok_bind, hv]⟩

omit [Interpreter] [Libraries] in
/-- A plain request is inspected. -/
theorem HmmDetector.inspect_decoded_isOk_plain :
    let _ : Interpreter := .ascii
    let _ : Libraries := .memoryless
    let c : HmmSettings :=
      { extractor := byteClassExtractor, nStates := 1, minTrain := 1, targetFpr := 1 / 2 }
    let flow := Flow.new (text "http") 80 .inbound [71, 69, 84]
    let d := (HmmDetector.train ⟨c, { }⟩ [flow] [flow]).1
    let r := HttpRequest.new (text "GET") (text "/")
    decodeRequest (encodeRequest r) = .ok r ∧ ∃ signal, d.inspect r = .ok signal := by
  intro _ _ c flow d r
  have hacc : d.Accepts r := fun f _ => accepts_one f
  exact ⟨decode_plain, ((inspect_decoded_isOk_iff isTrained_one).2.1 _ _ decode_plain).mpr
    ⟨serialisable_plain, hacc⟩⟩

omit [Interpreter] [Libraries] in
/-- **A path with a lone surrogate** is decoded, cannot be inspected, and ends the
run. -/
theorem HmmDetector.inspect_lone_surrogate :
    let _ : Interpreter := .ascii
    let _ : Libraries := .memoryless
    let c : HmmSettings :=
      { extractor := byteClassExtractor, nStates := 1, minTrain := 1, targetFpr := 1 / 2 }
    let flow := Flow.new (text "http") 80 .inbound [71, 69, 84]
    let d := (HmmDetector.train ⟨c, { }⟩ [flow] [flow]).1
    let r := HttpRequest.new (text "GET") [cp '/', 0xD800]
    let s : StreamingInspector := { decider := ⟨[d.toDetector], .any, by simp⟩ }
    let channel := InMemoryChannel.publish { } s.requestsTopic (encodeRequest r)
    d.isTrained = true ∧ decodeRequest (encodeRequest r) = .ok r ∧
      (¬∃ f, httpRequestToFlow r = .ok f) ∧ (¬∃ signal, d.inspect r = .ok signal) ∧
      ¬∃ n, (s.run channel).2 = .ok n := by
  intro _ _ c flow d r s channel
  have ht : d.isTrained = true := isTrained_one
  have hnot : ¬r.Serialisable := by
    rintro ⟨-, -, hpath, -⟩
    exact absurd hpath (by decide)
  have hdecode : decodeRequest (encodeRequest r) = .ok r := by
    refine decodeRequest_encodeRequest ?_
    refine ⟨noSurrogatePair_of_ascii (by decide), ?_, List.IsChain.nil, List.IsChain.nil,
      List.IsChain.nil, nofun⟩
    exact List.isChain_cons_cons.mpr ⟨by decide, List.IsChain.singleton _⟩
  have hinspect : ¬∃ signal, d.inspect r = .ok signal := fun h =>
    hnot ((inspect_isOk_iff ht).mp h).1
  refine ⟨ht, hdecode, fun h => hnot (httpRequestToFlow_isOk_iff.mp h), hinspect, fun hrun => ?_⟩
  obtain ⟨v, hv⟩ := StreamingInspector.run_isOk_iff.mp hrun (encodeRequest r)
    (List.mem_singleton_self _)
  rw [StreamingInspector.decideMessage, hdecode, ok_bind] at hv
  exact hinspect (BlockDecisionService.decide_isOk_iff.mp ⟨v, hv⟩ d.toDetector
    (List.mem_singleton_self _))

omit [Interpreter] [Libraries] in
/-- **A plain request that is not inspected.** A model of windows of length 20 is fitted on a flow
of one symbol, has no transitions, and is calibrated on a flow that is longer than a window, which
hmmlearn is not asked about. It is asked about a shorter request, and raises. -/
theorem HmmDetector.inspect_short :
    let _ : Interpreter := .ascii
    let _ : Libraries := .observing
    let c : HmmSettings := {
      extractor := byteClassExtractor
      nStates := 1
      window := 20
      minTrain := 1
      targetFpr := 1 / 2 }
    let byte := Flow.new (text "http") 80 .inbound [71]
    let long := Flow.new (text "http") 80 .inbound (List.replicate 25 71)
    let d := (HmmDetector.train ⟨c, { }⟩ [byte] [long]).1
    let r := HttpRequest.new (text "GET") (text "/")
    (HmmDetector.train ⟨c, { }⟩ [byte] [long]).2 = .ok () ∧ d.isTrained = true ∧
      decodeRequest (encodeRequest r) = .ok r ∧ r.Serialisable ∧
      d.inspect r = .error (.valueError "transmat_ rows must sum to 1 (got row sums of [0.])") := by
  intro _ _ c byte long d r
  obtain ⟨hok, htrained, hshort, -⟩ := assess_still
  obtain ⟨f, hf, hfkey, hlen⟩ : ∃ f, httpRequestToFlow r = .ok f ∧
      partitionKey f = partitionKey byte ∧ f.payload.length ≤ 20 :=
    ⟨_, rfl, by decide, by decide⟩
  have hraise := hshort f hfkey hlen
  refine ⟨hok, htrained, decode_plain, serialisable_plain, ?_⟩
  rw [HmmDetector.inspect, if_pos htrained, hf]
  show (d.partitioned.assess f >>= _) = _
  rw [show d.partitioned.assess f = _ from hraise]
  rfl

end Waf
