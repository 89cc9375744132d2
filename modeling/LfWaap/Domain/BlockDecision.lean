import LfWaap.Domain.HttpRequest
import LfWaap.Python.Loops

/-!
# Signals, verdicts and the decision service

What a detector says about a request (`Waf.DetectionSignal`), and how the service
combines what its detectors say (`Waf.BlockDecisionService.decide`): under the policy
`any` one blocking signal is enough, under `all` every signal must block.

A detector may raise, and the service asks its detectors in order, so a longer service has
the signals of its first detectors with one more put at the end: `Waf.signalsOf_append` is
the equation every comparison of two services goes through.
-/

namespace Waf

open Python

/-! ### Signals and verdicts -/

/-- One detector's opinion about a request. -/
structure DetectionSignal where
  detector : Text
  blocked : Bool
  reason : Text
  score : EReal := 0

/-- The final decision. -/
inductive Decision where
  | allow
  | block
  deriving DecidableEq, Repr

/-- The value of the enumeration member. -/
def Decision.value : Decision → Text
  | .allow => text "ALLOW"
  | .block => text "BLOCK"

/-- The final decision with the signals it rests on. -/
structure Verdict where
  decision : Decision
  signals : List DetectionSignal

/-- The decision is to block. -/
def Verdict.isBlocked (v : Verdict) : Bool := v.decision = .block

/-- The signals that block. -/
def Verdict.blockingSignals (v : Verdict) : List DetectionSignal :=
  v.signals.filter DetectionSignal.blocked

/-- The explanation of a verdict: the reasons of the blocking signals. -/
def Verdict.reason (v : Verdict) : Text :=
  if v.isBlocked then
    join (text "; ")
      (v.blockingSignals.map fun s => text "[" ++ s.detector ++ text "] " ++ s.reason)
  else text "allowed"

/-- The decision string says `BLOCK` exactly when the verdict blocks. -/
theorem Verdict.isBlocked_iff_value (v : Verdict) :
    v.isBlocked = true ↔ v.decision.value = text "BLOCK" := by
  have hne : Decision.allow.value ≠ text "BLOCK" := by decide
  obtain ⟨d, ss⟩ := v
  cases d
  · exact ⟨fun h => absurd h (by simp [isBlocked]), fun h => absurd h hne⟩
  · exact ⟨fun _ => rfl, fun _ => rfl⟩

/-! ### The decision service -/

/-- How signals combine. -/
inductive BlockPolicy where
  /-- Block if any detector blocks. -/
  | any
  /-- Block only if every detector blocks. -/
  | all
  deriving DecidableEq, Repr

section

variable [Interpreter]

/-- The port every detector implements. -/
structure Detector where
  name : Text
  inspect : HttpRequest → Except PyError DetectionSignal

/-- **The decision service**: detectors, at least one, and a policy. -/
structure BlockDecisionService where
  detectors : List Detector
  policy : BlockPolicy
  /-- The constructor refuses an empty list. -/
  nonempty : detectors ≠ []

/-- The constructor of the source. -/
def BlockDecisionService.new (detectors : List Detector) (policy : BlockPolicy := .any) :
    Except PyError BlockDecisionService :=
  if h : detectors ≠ [] then .ok ⟨detectors, policy, h⟩
  else .error (.valueError "BlockDecisionService requires at least one detector")

end

/-- Whether signals make the service block. -/
def shouldBlock (policy : BlockPolicy) (signals : List DetectionSignal) : Bool :=
  match policy with
  | .any => decide (0 < (signals.filter DetectionSignal.blocked).length)
  | .all => decide ((signals.filter DetectionSignal.blocked).length = signals.length)

/-- The verdict on signals. -/
def verdictOf (policy : BlockPolicy) (signals : List DetectionSignal) : Verdict :=
  ⟨if shouldBlock policy signals then .block else .allow, signals⟩

section

variable [Interpreter]

/-- The signals of detectors, asked in order. -/
def signalsOf (detectors : List Detector) (request : HttpRequest) :
    Except PyError (List DetectionSignal) :=
  detectors.mapM fun d => d.inspect request

/-- **The decision** on a request. -/
def BlockDecisionService.decide (service : BlockDecisionService) (request : HttpRequest) :
    Except PyError Verdict :=
  (signalsOf service.detectors request).map (verdictOf service.policy)

/-- One more detector is asked last. -/
theorem signalsOf_append (ds : List Detector) (d : Detector) (request : HttpRequest) :
    signalsOf (ds ++ [d]) request =
      (signalsOf ds request).bind fun ss => (d.inspect request).map fun s => ss ++ [s] := by
  rw [signalsOf, signalsOf, List.mapM_append]
  cases ds.mapM fun d => d.inspect request with
  | error e => rfl
  | ok ss =>
    rw [List.mapM_cons, List.mapM_nil]
    cases d.inspect request with
    | error e => rfl
    | ok s => rfl

end

end Waf
