import LfWaap.Domain.Flow

/-!
# Model partitioning

One model is trained for each protocol, port, direction and length bucket
(`waf.infrastructure.hmm.partition`).
-/

namespace Waf

open Python

/-- The upper edges of the length buckets. -/
def lengthEdges : List ℕ := [64, 256, 1024, 4096, 16384]

/-- The bucket of a length among the edges from `lo` on. -/
def lengthBucketFrom (n : ℤ) (lo : ℕ) : List ℕ → Text
  | [] => natText lo ++ text "+"
  | edge :: edges =>
    if n ≤ edge then natText lo ++ text "-" ++ natText edge
    else lengthBucketFrom n (edge + 1) edges

/-- The bucket of a length. -/
def lengthBucket (n : ℤ) : Text := lengthBucketFrom n 0 lengthEdges

/-- What selects a model. -/
structure PartitionKey where
  protocol : Text
  port : ℤ
  direction : Direction
  lengthBucket : Text
  deriving DecidableEq

/-- `str(key)`. -/
def PartitionKey.str (k : PartitionKey) : Text :=
  k.protocol ++ text ":" ++ intText k.port ++ text ":" ++ k.direction.value ++ text ":" ++
    k.lengthBucket

/-- The partition of a flow. -/
def partitionKey [Interpreter] (flow : Flow) : PartitionKey where
  protocol := flow.protocol
  port := flow.port
  direction := flow.direction
  lengthBucket := lengthBucket flow.length

example : lengthBucket 65 = text "65-256" := by decide

end Waf
