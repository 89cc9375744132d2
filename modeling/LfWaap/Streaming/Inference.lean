import LfWaap.Streaming.Channel
import LfWaap.Streaming.Codecs

/-!
# The inference loop

`waf.infrastructure.streaming.inference`: requests in, decisions, verdicts out. The loop
reads a topic and writes a topic of the same channel, possibly the same one, and any
message may make it raise.

Its specification is `Waf.StreamingInspector.run_eq`: it publishes the verdicts of the
messages before the first that cannot be decoded or decided, and ends there. What a
consumer of the verdicts gets to see is `Waf.StreamingInspector.run_publishes_prefix`.
-/

namespace Waf

open Python

variable [Interpreter]

/-! ### The loop -/

/-- **The inspector**, without its channel. -/
structure StreamingInspector where
  decider : BlockDecisionService
  requestsTopic : Text := text "waf.inspect.requests"
  verdictsTopic : Text := text "waf.inspect.verdicts"

namespace StreamingInspector

/-- The verdict on a message. -/
def decideMessage (s : StreamingInspector) (message : Bytes) : Except PyError Verdict := do
  s.decider.decide (← decodeRequest message)

/-- The body of the loop: what it does to the channel and to the number of processed
messages, and what it raises. -/
def step (s : StreamingInspector) (state : InMemoryChannel × ℕ) (message : Bytes) :
    (InMemoryChannel × ℕ) × Option PyError :=
  match s.decideMessage message with
  | .error e => (state, some e)
  | .ok verdict => ((state.1.publish s.verdictsTopic (encodeVerdict verdict), state.2 + 1), none)

/-- **The loop**: the channel it leaves behind, and the number of messages it has
processed. -/
def run (s : StreamingInspector) (channel : InMemoryChannel) :
    InMemoryChannel × Except PyError ℕ :=
  match (channel.stream s.requestsTopic).forEach s.step (channel, 0) with
  | ((channel, processed), none) => (channel, .ok processed)
  | ((channel, _), some e) => (channel, .error e)

/-! ### What a run does -/

/-- The message a run publishes for a message. -/
def answer (s : StreamingInspector) (message : Bytes) : Except PyError Bytes :=
  (s.decideMessage message).map encodeVerdict

/-- The loop from any point on: the answers to the messages that are left are published,
until there is none. -/
theorem loop_step (s : StreamingInspector) (messages : List Bytes) (channel : InMemoryChannel)
    (processed : ℕ) :
    Generator.loop s.step none messages (channel, processed) =
      ((channel.publishAll s.verdictsTopic (mapUntil s.answer messages).1,
        processed + (mapUntil s.answer messages).1.length), (mapUntil s.answer messages).2) := by
  induction messages generalizing channel processed with
  | nil => rfl
  | cons message messages ih =>
    rw [Generator.loop, step, mapUntil, answer]
    cases s.decideMessage message with
    | error e => rfl
    | ok verdict =>
      refine (ih _ _).trans ?_
      simp only [Except.map, List.length_cons]
      rw [Nat.add_assoc, Nat.add_comm 1]
      rfl

/-- **What a run does**: it publishes the answers to the messages of the requests topic
up to the first that raises. -/
theorem run_eq (s : StreamingInspector) (channel : InMemoryChannel) :
    s.run channel =
      (channel.publishAll s.verdictsTopic (mapUntil s.answer (channel.poll s.requestsTopic)).1,
        match (mapUntil s.answer (channel.poll s.requestsTopic)).2 with
        | none => .ok (mapUntil s.answer (channel.poll s.requestsTopic)).1.length
        | some e => .error e) := by
  rw [run, Generator.forEach, InMemoryChannel.stream, loop_step]
  simp only [Nat.zero_add]
  cases (mapUntil s.answer (channel.poll s.requestsTopic)).2 <;> rfl

/-- A run returns when every message can be decoded and decided. -/
theorem run_isOk_iff {s : StreamingInspector} {channel : InMemoryChannel} :
    (∃ n, (s.run channel).2 = .ok n) ↔
      ∀ message ∈ channel.poll s.requestsTopic, ∃ v, s.decideMessage message = .ok v := by
  have hanswer : (∀ message ∈ channel.poll s.requestsTopic, ∃ out, s.answer message = .ok out) ↔
      ∀ message ∈ channel.poll s.requestsTopic, ∃ v, s.decideMessage message = .ok v := by
    simp only [← raisedBy_eq_none_iff, answer, raisedBy_map]
  rw [← hanswer, ← mapUntil_eq_none_iff, run_eq]
  cases (mapUntil s.answer (channel.poll s.requestsTopic)).2 with
  | none => exact ⟨fun _ => rfl, fun _ => ⟨_, rfl⟩⟩
  | some e => exact ⟨fun ⟨_, h⟩ => absurd h nofun, fun h => absurd h nofun⟩

/-! ### What a consumer of the verdicts sees -/

/-- What a published message tells about the verdict it was made from: the blocked flag,
the decision string, and the reason with its surrogate pairs joined. -/
def Reports (out : Bytes) (verdict : Verdict) : Prop :=
  decodeVerdict out =
      .ok ⟨verdict.isBlocked, verdict.decision.value, joinSurrogates verdict.reason⟩ ∧
    (NoSurrogatePair verdict.reason →
      decodeVerdict out = .ok ⟨verdict.isBlocked, verdict.decision.value, verdict.reason⟩) ∧
    (verdict.isBlocked = true ↔ verdict.decision.value = text "BLOCK")

theorem reports_encodeVerdict (verdict : Verdict) : Reports (encodeVerdict verdict) verdict := by
  refine ⟨decodeVerdict_encodeVerdict verdict, ?_, verdict.isBlocked_iff_value⟩
  intro h
  rw [decodeVerdict_encodeVerdict, joinSurrogates_of_noSurrogatePair h]

theorem firstFailure_answer (s : StreamingInspector) (messages : List Bytes) :
    firstFailure s.answer messages = firstFailure s.decideMessage messages := by
  simp only [firstFailure, answer, raisedBy_map]

/-- **A run publishes exactly the verdicts of the processed prefix, in order.** With `k`
the position of the first message that cannot be decoded or decided, the verdicts topic
grows by `k` messages, the `i`-th of which reports the verdict on the `i`-th message;
no other topic changes; and the run returns `k` if there is no such message, and raises
its error otherwise. -/
theorem run_publishes_prefix (s : StreamingInspector) (channel : InMemoryChannel) :
    let messages := channel.poll s.requestsTopic
    let k := firstFailure s.decideMessage messages
    (∃ published, (s.run channel).1.poll s.verdictsTopic =
        channel.poll s.verdictsTopic ++ published ∧ published.length = k ∧
        List.Forall₂ (fun message out => ∃ verdict, s.decideMessage message = .ok verdict ∧
          Reports out verdict) (messages.take k) published) ∧
      (∀ topic, topic ≠ s.verdictsTopic → (s.run channel).1.poll topic = channel.poll topic) ∧
      (s.run channel).2 =
        match messages[k]?.bind fun message => raisedBy (s.decideMessage message) with
        | none => .ok k
        | some e => .error e := by
  intro messages k
  obtain ⟨hall, hraised⟩ := mapUntil_spec s.answer messages
  rw [firstFailure_answer] at hall hraised
  have hk : (mapUntil s.answer messages).1.length = k := by
    have hle : k ≤ messages.length := List.findIdx_le_length
    rw [← hall.length_eq, List.length_take]
    exact min_eq_left hle
  rw [run_eq]
  refine ⟨⟨(mapUntil s.answer messages).1, ?_, hk, ?_⟩, ?_, ?_⟩
  · rw [InMemoryChannel.poll_publishAll, if_pos rfl]
  · refine hall.imp fun message out hout => ?_
    obtain ⟨verdict, hverdict, rfl⟩ := exists_of_map_eq_ok hout
    exact ⟨verdict, hverdict, reports_encodeVerdict verdict⟩
  · intro topic ht
    rw [InMemoryChannel.poll_publishAll, if_neg ht.symm]
  · -- the exception of an answer is the exception of the decision behind it
    simp only [answer, raisedBy_map] at hraised
    change (match (mapUntil s.answer messages).2 with
      | none => Except.ok (mapUntil s.answer messages).1.length
      | some e => .error e) = _
    rw [hk]
    simp only [hraised]
    rfl

omit [Interpreter] in
/-- **A reason may arrive changed**: the two halves of a surrogate pair, which a detector
may put side by side, arrive as the one code point they stand for. -/
theorem run_publishes_joined_reason :
    let _ : Interpreter := .ascii
    let stub : Detector := ⟨text "stub", fun _ => .ok ⟨text "stub", true, [0xD83D, 0xDE00], 1⟩⟩
    let s : StreamingInspector := { decider := ⟨[stub], .any, by simp⟩ }
    let message := encodeRequest (HttpRequest.new (text "GET") (text "/"))
    let channel := InMemoryChannel.publish { } s.requestsTopic message
    ∃ verdict out received, s.decideMessage message = .ok verdict ∧
      (s.run channel).1.poll s.verdictsTopic = [out] ∧ decodeVerdict out = .ok received ∧
      received.reason ≠ verdict.reason := by
  intro _ stub s message channel
  have hr : (HttpRequest.new (text "GET") (text "/")).Transmissible :=
    ⟨noSurrogatePair_of_ascii (by decide), noSurrogatePair_of_ascii (by decide),
      List.IsChain.nil, List.IsChain.nil, List.IsChain.nil, nofun⟩
  let verdict : Verdict := ⟨.block, [⟨text "stub", true, [0xD83D, 0xDE00], 1⟩]⟩
  have hdecide : s.decideMessage message = .ok verdict := by
    rw [decideMessage, decodeRequest_encodeRequest hr]
    rfl
  have hpoll : channel.poll s.requestsTopic = [message] := rfl
  refine ⟨verdict, encodeVerdict verdict, _, hdecide, ?_, decodeVerdict_encodeVerdict verdict, ?_⟩
  · rw [run_eq, hpoll, InMemoryChannel.poll_publishAll, if_pos rfl, mapUntil, answer, hdecide]
    rfl
  · decide

end StreamingInspector

end Waf
