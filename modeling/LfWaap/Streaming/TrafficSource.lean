import LfWaap.Application.CalibrateModel
import LfWaap.Streaming.Channel
import LfWaap.Streaming.Codecs

/-!
# Training from topics

`waf.infrastructure.streaming.traffic_source`: the flows to fit on and the flows to
calibrate with are read from two topics of a channel.

Between what producers publish and what is trained lie the channel, which keeps the
messages of each topic apart, and the codec. Neither is seen: whatever the order in which
normal flows, validation flows and messages for other topics are published, a detector is
trained with the normal flows and the validation flows, each in their order
(`Waf.calibrateModel_streaming`).
-/

namespace Waf

open Python

variable [Interpreter]

/-! ### The source -/

omit [Interpreter] in
/-- The topic of normal flows. -/
def defaultNormalTopic : Text := text "waf.train.normal"

omit [Interpreter] in
/-- The topic of validation flows. -/
def defaultValidationTopic : Text := text "waf.train.validation"

/-- Where traffic comes from. -/
structure StreamingTrafficSource where
  channel : InMemoryChannel
  normalTopic : Text := defaultNormalTopic
  validationTopic : Text := defaultValidationTopic

namespace StreamingTrafficSource

/-- The flows of a topic, up to the first message that cannot be decoded. -/
def flows (source : StreamingTrafficSource) (topic : Text) : Generator Flow :=
  let decoded := mapUntil decodeFlow (source.channel.poll topic)
  ⟨decoded.1, decoded.2⟩

/-- The flows to fit on. -/
def normal (source : StreamingTrafficSource) : Generator Flow := source.flows source.normalTopic

/-- The flows to calibrate with. -/
def validation (source : StreamingTrafficSource) : Generator Flow :=
  source.flows source.validationTopic

/-- The source behind the port. -/
def toTrafficSource (source : StreamingTrafficSource) : TrafficSource where
  normal := source.normal
  validation := source.validation

end StreamingTrafficSource

/-! ### What is published -/

omit [Interpreter] in
/-- What a flow is published for. -/
inductive Purpose where
  | fitting
  | calibrating
  deriving DecidableEq

/-- The topic of the flows for a purpose. -/
def StreamingTrafficSource.topic (source : StreamingTrafficSource) : Purpose → Text
  | .fitting => source.normalTopic
  | .calibrating => source.validationTopic

/-- **Something a producer publishes**: a flow for one of the purposes, or any message for
any topic. -/
inductive Publication where
  | flow (purpose : Purpose) (flow : Flow)
  | other (topic : Text) (message : Bytes)

namespace Publication

/-- The flows that are published for a purpose. -/
def flowsFor (purpose : Purpose) : List Publication → List Flow
  | [] => []
  | flow purpose' f :: publications =>
    if purpose' = purpose then f :: flowsFor purpose publications
    else flowsFor purpose publications
  | other _ _ :: publications => flowsFor purpose publications

/-- A publication is made on a channel: the flows go to the topics of a source. -/
def publish (source : StreamingTrafficSource) (channel : InMemoryChannel) :
    Publication → InMemoryChannel
  | flow purpose f => channel.publish (source.topic purpose) (encodeFlow f)
  | other topic message => channel.publish topic message

/-- A publication leaves the topics of the flows to the flows. -/
def Apart (source : StreamingTrafficSource) : Publication → Prop
  | flow _ _ => True
  | other topic _ => topic ≠ source.normalTopic ∧ topic ≠ source.validationTopic

/-- A flow that is published is read back from its document as it was. -/
def Readable : Publication → Prop
  | flow _ f => loads (encodeDocument (flowToDict f)) = .ok (.obj (flowToDict f))
  | other _ _ => True

end Publication

namespace StreamingTrafficSource

variable {source : StreamingTrafficSource}

omit [Interpreter] in
/-- Two topics for two purposes. -/
theorem topic_eq_iff (hne : source.normalTopic ≠ source.validationTopic)
    {purpose purpose' : Purpose} :
    source.topic purpose = source.topic purpose' ↔ purpose = purpose' := by
  cases purpose with
  | fitting =>
    cases purpose' with
    | fitting => exact iff_of_true rfl rfl
    | calibrating => exact iff_of_false hne nofun
  | calibrating =>
    cases purpose' with
    | fitting => exact iff_of_false hne.symm nofun
    | calibrating => exact iff_of_true rfl rfl

/-- **One topic among publications**: it receives the flows for its purpose, in their
order, and nothing else. -/
theorem poll_foldl_publish (hne : source.normalTopic ≠ source.validationTopic)
    {publications : List Publication} (hapart : ∀ p ∈ publications, p.Apart source)
    (channel : InMemoryChannel) (purpose : Purpose) :
    (publications.foldl (Publication.publish source) channel).poll (source.topic purpose) =
      channel.poll (source.topic purpose) ++
        (Publication.flowsFor purpose publications).map encodeFlow := by
  induction publications generalizing channel with
  | nil => rw [List.foldl_nil, Publication.flowsFor, List.map_nil, List.append_nil]
  | cons p publications ih =>
    obtain ⟨hp, hrest⟩ := List.forall_mem_cons.mp hapart
    rw [List.foldl_cons, ih hrest]
    cases p with
    | flow purpose' f =>
      rw [Publication.publish, InMemoryChannel.poll_publish, Publication.flowsFor]
      -- the topics of the two purposes differ, so the flow arrives exactly if it is meant to
      by_cases h : purpose' = purpose
      · rw [if_pos ((topic_eq_iff hne).mpr h), if_pos h, List.append_assoc, List.map_cons,
          List.singleton_append]
      · rw [if_neg fun ht => h ((topic_eq_iff hne).mp ht), if_neg h]
    | other topic message =>
      have htopic : topic ≠ source.topic purpose := by
        cases purpose with
        | fitting => exact hp.1
        | calibrating => exact hp.2
      rw [Publication.publish, InMemoryChannel.poll_publish, if_neg htopic, Publication.flowsFor]

/-- Every flow for a purpose is decoded as it was. -/
theorem decodeFlow_of_mem_flowsFor {publications : List Publication}
    (hread : ∀ p ∈ publications, p.Readable) {purpose : Purpose} :
    ∀ f ∈ Publication.flowsFor purpose publications, decodeFlow (encodeFlow f) = .ok f := by
  induction publications with
  | nil => exact nofun
  | cons p publications ih =>
    obtain ⟨hp, hrest⟩ := List.forall_mem_cons.mp hread
    cases p with
    | flow purpose' g =>
      rw [Publication.flowsFor]
      split
      · exact List.forall_mem_cons.mpr ⟨decodeFlow_of_loads hp, ih hrest⟩
      · exact ih hrest
    | other topic message => exact ih hrest

/-- The source of a channel that only these publications were made on. -/
def after (source : StreamingTrafficSource) (publications : List Publication) :
    StreamingTrafficSource :=
  { source with channel := publications.foldl (Publication.publish source) { } }

/-- **The flows of a topic** are those published for its purpose. -/
theorem flows_after (hne : source.normalTopic ≠ source.validationTopic)
    {publications : List Publication} (hapart : ∀ p ∈ publications, p.Apart source)
    (hread : ∀ p ∈ publications, p.Readable) (purpose : Purpose) :
    (source.after publications).flows (source.topic purpose) =
      ⟨Publication.flowsFor purpose publications, none⟩ := by
  have hpoll : (source.after publications).channel.poll (source.topic purpose) =
      (Publication.flowsFor purpose publications).map encodeFlow :=
    poll_foldl_publish hne hapart { } purpose
  have hdecode : mapUntil decodeFlow ((Publication.flowsFor purpose publications).map encodeFlow) =
      ((Publication.flowsFor purpose publications).map id, none) :=
    mapUntil_map_of_ok (decodeFlow_of_mem_flowsFor hread)
  rw [flows, hpoll, hdecode, List.map_id]

end StreamingTrafficSource

/-! ### Training is not changed by the pipe -/

/-- **The training pipe is transparent.** Flows for fitting, flows for calibrating and
messages for other topics are published in any order; then a detector is calibrated. The
lists it is trained with are those of the flows published for each purpose, in their
order; so the calibration does what it does with a source that yields these lists, and
when training returns, it reports their lengths. -/
theorem calibrateModel_streaming [Libraries] {source : StreamingTrafficSource}
    (hne : source.normalTopic ≠ source.validationTopic) {publications : List Publication}
    (hapart : ∀ p ∈ publications, p.Apart source) (hread : ∀ p ∈ publications, p.Readable)
    (repository : PickleModelRepository) (detector : HmmDetector) :
    let normal := Publication.flowsFor .fitting publications
    let validation := Publication.flowsFor .calibrating publications
    let piped := (source.after publications).toTrafficSource
    piped.normal.toList = .ok normal ∧ piped.validation.toList = .ok validation ∧
      calibrateModel piped repository detector =
        calibrateModel ⟨⟨normal, none⟩, ⟨validation, none⟩⟩ repository detector ∧
      ∀ trained, detector.train normal validation = (trained, .ok ()) →
        calibrateModel piped repository detector =
          (repository.save trained, .ok ⟨normal.length, validation.length⟩) := by
  intro normal validation piped
  have hpiped : piped = ⟨⟨normal, none⟩, ⟨validation, none⟩⟩ :=
    congrArg₂ TrafficSource.mk (StreamingTrafficSource.flows_after hne hapart hread .fitting)
      (StreamingTrafficSource.flows_after hne hapart hread .calibrating)
  rw [hpiped]
  refine ⟨rfl, rfl, rfl, fun trained htrain => ?_⟩
  simp only [calibrateModel, Generator.toList, htrain]

omit [Interpreter] in
/-- One flow for each purpose, and a message for another topic in between. -/
theorem calibrateModel_streaming_two :
    let _ : Interpreter := .ascii
    let _ : Libraries := .memoryless
    let source : StreamingTrafficSource := { channel := { } }
    let f := Flow.new (text "HTTP") 80 .inbound [71, 69, 84]
    let g := Flow.new (text "http") 8080 .outbound [0, 255]
    let publications : List Publication :=
      [.flow .calibrating g, .other (text "waf.eval.labeled") [0], .flow .fitting f]
    (source.after publications).toTrafficSource.normal.toList = .ok [f] ∧
      (source.after publications).toTrafficSource.validation.toList = .ok [g] := by
  intro _ _ source f g publications
  have hf : f.Transmissible := ⟨noSurrogatePair_of_ascii (by decide), nofun⟩
  have hg : g.Transmissible := ⟨noSurrogatePair_of_ascii (by decide), nofun⟩
  have hapart : ∀ p ∈ publications, p.Apart source := by
    simp only [publications, List.forall_mem_cons, List.not_mem_nil]
    exact ⟨trivial, ⟨by decide, by decide⟩, trivial, nofun⟩
  have hread : ∀ p ∈ publications, p.Readable := by
    simp only [publications, List.forall_mem_cons, List.not_mem_nil]
    exact ⟨loads_flowToDict hg, trivial, loads_flowToDict hf, nofun⟩
  have h := calibrateModel_streaming (by decide) hapart hread { }
    ⟨{ extractor := byteClassExtractor }, { }⟩
  exact ⟨h.1, h.2.1⟩

end Waf
