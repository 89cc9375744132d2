import LfWaap.Hmm.Benchmark
import LfWaap.Streaming.Channel
import LfWaap.Streaming.Codecs

/-!
# Evaluation from a topic

`waf.infrastructure.streaming.evaluation`: labelled flows are read from a topic and
scored. The topic is read to its end before the first flow is scored, so that a message
that cannot be decoded leaves nothing scored.
-/

namespace Waf

open Python

variable [Interpreter]

/-- Where labelled flows come from. -/
structure StreamingLabeledSource where
  channel : InMemoryChannel
  topic : Text := text "waf.eval.labeled"

/-- The labelled flows of a topic. -/
def StreamingLabeledSource.labeled (source : StreamingLabeledSource) : Generator (Flow × Bool) :=
  let decoded := mapUntil decodeLabeledFlow (source.channel.poll source.topic)
  ⟨decoded.1, decoded.2⟩

/-- **Scoring a topic.** -/
noncomputable def evaluateStream [Libraries] [ScikitLearn] (detector : HmmDetector)
    (source : StreamingLabeledSource) (targetFpr : ℝ := 5 / 100) :
    Except PyError ScoredMetrics := do
  let labeled ← source.labeled.toList
  scoreLabeledFlows detector labeled targetFpr

/-- A topic of encoded flows is read as these flows. -/
theorem StreamingLabeledSource.labeled_of_encoded {source : StreamingLabeledSource}
    {labeled : List (Flow × Bool)} (hf : ∀ x ∈ labeled, x.1.Transmissible)
    (h : source.channel.poll source.topic = labeled.map fun x => encodeLabeledFlow x.1 x.2) :
    source.labeled.toList = .ok labeled := by
  have hdecode : mapUntil decodeLabeledFlow (labeled.map fun x => encodeLabeledFlow x.1 x.2) =
      (labeled.map id, none) :=
    mapUntil_map_of_ok fun x hx => decodeLabeledFlow_encodeLabeledFlow (hf x hx) x.2
  rw [StreamingLabeledSource.labeled, h, hdecode, List.map_id]
  rfl

end Waf
