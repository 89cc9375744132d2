import LfWaap.Streaming.Inference

/-!
# Requests and verdicts over whole runs

Producers publish requests and inspectors are run, in any order, on one channel in
memory. The channel keeps no position for its consumers, so every run reads the requests
topic from its beginning: a request is answered once for each run after its publication.

`Waf.StreamingInspector.verdicts_of_history` gives the verdicts topic after any history
whose runs all return, and `Waf.StreamingInspector.one_verdict_each_iff` says when it
holds one verdict for each request after a last run: when no earlier run had anything to
read.
-/

namespace Waf

open Python

variable [Interpreter]

/-! ### Histories -/

/-- What happens to a channel: a request is published, or the inspector is run. -/
inductive ChannelEvent where
  | publish (request : HttpRequest)
  | run

/-- The requests that are published in a history, in order. -/
def published : List ChannelEvent → List HttpRequest
  | [] => []
  | .publish r :: events => r :: published events
  | .run :: events => published events

namespace StreamingInspector

/-- The channel after an event. -/
def after (s : StreamingInspector) (channel : InMemoryChannel) : ChannelEvent → InMemoryChannel
  | .publish r => channel.publish s.requestsTopic (encodeRequest r)
  | .run => (s.run channel).1

/-- The channel after a history. -/
def afterAll (s : StreamingInspector) (channel : InMemoryChannel) (events : List ChannelEvent) :
    InMemoryChannel :=
  events.foldl s.after channel

/-- All runs of a history return. -/
def Completes (s : StreamingInspector) : InMemoryChannel → List ChannelEvent → Prop
  | _, [] => True
  | channel, .publish r :: events => s.Completes (s.after channel (.publish r)) events
  | channel, .run :: events =>
    (∃ n, (s.run channel).2 = .ok n) ∧ s.Completes (s.after channel .run) events

/-- The messages that the runs of a history read, when it starts with `pending` on the
requests topic. -/
def delivered (pending : List Bytes) : List ChannelEvent → List Bytes
  | [] => []
  | .publish r :: events => delivered (pending ++ [encodeRequest r]) events
  | .run :: events => pending ++ delivered pending events

/-! ### What a history leaves -/

variable {s : StreamingInspector}

/-- A run that returns has answered every request, and adds the answers to the verdicts
topic. -/
theorem poll_run_of_ok (hne : s.requestsTopic ≠ s.verdictsTopic) {channel : InMemoryChannel}
    (h : ∃ n, (s.run channel).2 = .ok n) :
    (s.run channel).1.poll s.requestsTopic = channel.poll s.requestsTopic ∧
      ∃ out, (channel.poll s.requestsTopic).mapM s.answer = .ok out ∧
        (s.run channel).1.poll s.verdictsTopic = channel.poll s.verdictsTopic ++ out := by
  have hnone : (mapUntil s.answer (channel.poll s.requestsTopic)).2 = none := by
    obtain ⟨n, hn⟩ := h
    rw [run_eq] at hn
    cases he : (mapUntil s.answer (channel.poll s.requestsTopic)).2 with
    | none => rfl
    | some e =>
      rw [he] at hn
      exact absurd hn nofun
  rw [run_eq]
  refine ⟨?_, _, mapM_of_mapUntil hnone, ?_⟩
  · rw [InMemoryChannel.poll_publishAll, if_neg hne.symm]
  · rw [InMemoryChannel.poll_publishAll, if_pos rfl]

/-- A request that is published is read after those before it. -/
theorem poll_after_publish (channel : InMemoryChannel) (r : HttpRequest) :
    (s.after channel (.publish r)).poll s.requestsTopic =
      channel.poll s.requestsTopic ++ [encodeRequest r] := by
  rw [after, InMemoryChannel.poll_publish, if_pos rfl]

/-- **The verdicts topic after a history**: it has grown by the answers to the messages
that the runs have read, in order. -/
theorem verdicts_of_history (hne : s.requestsTopic ≠ s.verdictsTopic) {channel : InMemoryChannel}
    {events : List ChannelEvent} (hc : s.Completes channel events) :
    ∃ out, (delivered (channel.poll s.requestsTopic) events).mapM s.answer = .ok out ∧
      (s.afterAll channel events).poll s.verdictsTopic = channel.poll s.verdictsTopic ++ out := by
  induction events generalizing channel with
  | nil => exact ⟨[], rfl, by simp [afterAll]⟩
  | cons event events ih =>
    cases event with
    | publish r =>
      obtain ⟨out, hout, hpoll⟩ := ih hc
      rw [poll_after_publish] at hout
      refine ⟨out, hout, hpoll.trans ?_⟩
      rw [after, InMemoryChannel.poll_publish, if_neg hne]
    | run =>
      obtain ⟨hrequests, out, hout, hverdicts⟩ := poll_run_of_ok hne hc.1
      obtain ⟨out', hout', hpoll⟩ := ih hc.2
      have hafter : s.after channel .run = (s.run channel).1 := rfl
      rw [hafter, hrequests] at hout'
      refine ⟨out ++ out', ?_, ?_⟩
      · rw [delivered, List.mapM_append, hout, ok_bind, hout', ok_bind]
        rfl
      · rw [hafter, hverdicts, List.append_assoc] at hpoll
        exact hpoll

/-! ### When every request is answered once -/

omit s in
/-- No run of the history finds a request to read: the runs come before the first
publication. -/
def NothingToRead : List ChannelEvent → Prop
  | [] => True
  | .publish _ :: events => .run ∉ events
  | .run :: events => NothingToRead events

/-- A last run reads everything that has been published. -/
theorem delivered_append_run (pending : List Bytes) (events : List ChannelEvent) :
    delivered pending (events ++ [.run]) =
      delivered pending events ++ (pending ++ (published events).map encodeRequest) := by
  induction events generalizing pending with
  | nil => simp [delivered, published]
  | cons event events ih =>
    cases event with
    | publish r =>
      rw [List.cons_append, delivered, ih, delivered, published, List.map_cons,
        List.append_assoc pending, List.singleton_append]
    | run => rw [List.cons_append, delivered, ih, delivered, published, List.append_assoc pending]

theorem delivered_pending_eq_nil_iff {pending : List Bytes} (hp : pending ≠ [])
    {events : List ChannelEvent} : delivered pending events = [] ↔ .run ∉ events := by
  induction events generalizing pending with
  | nil => simp [delivered]
  | cons event events ih =>
    cases event with
    | publish r =>
      have hne : pending ++ [encodeRequest r] ≠ [] := by simp
      rw [delivered, ih hne]
      simp
    | run => simp [delivered, hp]

theorem delivered_eq_nil_iff {events : List ChannelEvent} :
    delivered [] events = [] ↔ NothingToRead events := by
  induction events with
  | nil => exact ⟨fun _ => trivial, fun _ => rfl⟩
  | cons event events ih =>
    cases event with
    | publish r => exact delivered_pending_eq_nil_iff (List.cons_ne_nil _ _)
    | run => exact ih

/-- **One verdict for each request.** On a channel that starts empty, after a history all
of whose runs return, the last one at its end: the verdicts topic holds exactly one
verdict for each published request, in publication order, if and only if no earlier run
found a request to read. -/
theorem one_verdict_each_iff (hne : s.requestsTopic ≠ s.verdictsTopic) {channel : InMemoryChannel}
    (hr : channel.poll s.requestsTopic = []) (hv : channel.poll s.verdictsTopic = [])
    {events : List ChannelEvent} (hc : s.Completes channel (events ++ [.run])) :
    List.Forall₂ (fun request out => ∃ verdict,
        s.decideMessage (encodeRequest request) = .ok verdict ∧ Reports out verdict)
        (published events) ((s.afterAll channel (events ++ [.run])).poll s.verdictsTopic) ↔
      NothingToRead events := by
  obtain ⟨out, hout, hpoll⟩ := verdicts_of_history hne hc
  rw [hr, delivered_append_run, List.nil_append] at hout
  rw [hpoll, hv, List.nil_append, ← delivered_eq_nil_iff]
  constructor
  · -- one verdict a request leaves no room for a redelivery
    intro hone
    have hlen := length_of_mapM hout
    rw [List.length_append, List.length_map, ← hone.length_eq] at hlen
    exact List.length_eq_zero_iff.mp (by omega)
  · intro hnil
    rw [hnil, List.nil_append, mapM_eq_ok_iff, List.forall₂_map_left_iff] at hout
    refine hout.imp fun request answer hanswer => ?_
    obtain ⟨verdict, hverdict, rfl⟩ := exists_of_map_eq_ok hanswer
    exact ⟨verdict, hverdict, reports_encodeVerdict verdict⟩

/-! ### One request, one run too many -/

omit [Interpreter] s in
/-- A service that allows everything decides on a plain request. -/
theorem answer_plain :
    let _ : Interpreter := .ascii
    let stub : Detector := ⟨text "stub", fun _ => .ok ⟨text "stub", false, text "stub", 0⟩⟩
    let s : StreamingInspector := { decider := ⟨[stub], .any, by simp⟩ }
    ∃ out, s.answer (encodeRequest (HttpRequest.new (text "GET") (text "/"))) = .ok out := by
  intro _ stub s
  have hr : (HttpRequest.new (text "GET") (text "/")).Transmissible :=
    ⟨noSurrogatePair_of_ascii (by decide), noSurrogatePair_of_ascii (by decide),
      List.IsChain.nil, List.IsChain.nil, List.IsChain.nil, nofun⟩
  refine ⟨encodeVerdict ⟨.allow, [⟨text "stub", false, text "stub", 0⟩]⟩, ?_⟩
  rw [answer, decideMessage, decodeRequest_encodeRequest hr]
  rfl

omit [Interpreter] s in
/-- A run that reads requests it can answer returns. -/
theorem run_plain :
    let _ : Interpreter := .ascii
    let stub : Detector := ⟨text "stub", fun _ => .ok ⟨text "stub", false, text "stub", 0⟩⟩
    let s : StreamingInspector := { decider := ⟨[stub], .any, by simp⟩ }
    let request := HttpRequest.new (text "GET") (text "/")
    ∀ channel : InMemoryChannel, (∀ m ∈ channel.poll s.requestsTopic, m = encodeRequest request) →
      ∃ n, (s.run channel).2 = .ok n := by
  intro _ stub s request channel hall
  refine run_isOk_iff.mpr fun m hm => ?_
  obtain rfl := hall m hm
  obtain ⟨out, hout⟩ := answer_plain
  obtain ⟨v, hv, -⟩ := exists_of_map_eq_ok hout
  exact ⟨v, hv⟩

omit [Interpreter] s in
/-- One request, one run: one verdict. -/
theorem one_verdict_each_plain :
    let _ : Interpreter := .ascii
    let stub : Detector := ⟨text "stub", fun _ => .ok ⟨text "stub", false, text "stub", 0⟩⟩
    let s : StreamingInspector := { decider := ⟨[stub], .any, by simp⟩ }
    let request := HttpRequest.new (text "GET") (text "/")
    ((s.afterAll { } ([.publish request] ++ [.run])).poll s.verdictsTopic).length = 1 := by
  intro _ stub s request
  have hread : (s.after { } (.publish request)).poll s.requestsTopic =
      [encodeRequest request] := poll_after_publish { } request
  have hc : s.Completes { } ([.publish request] ++ [.run]) := by
    refine ⟨run_plain _ fun m hm => ?_, trivial⟩
    rw [hread] at hm
    exact List.mem_singleton.mp hm
  have hone := (one_verdict_each_iff (by decide) rfl rfl hc).mpr (by simp [NothingToRead])
  exact hone.length_eq.symm

omit [Interpreter] s in
/-- **One request, two runs: two verdicts.** -/
theorem two_verdicts_of_two_runs :
    let _ : Interpreter := .ascii
    let stub : Detector := ⟨text "stub", fun _ => .ok ⟨text "stub", false, text "stub", 0⟩⟩
    let s : StreamingInspector := { decider := ⟨[stub], .any, by simp⟩ }
    let request := HttpRequest.new (text "GET") (text "/")
    s.requestsTopic ≠ s.verdictsTopic ∧ s.Completes { } ([.publish request, .run] ++ [.run]) ∧
      published [.publish request, .run] = [request] ∧
      ((s.afterAll { } ([.publish request, .run] ++ [.run])).poll s.verdictsTopic).length = 2 := by
  intro _ stub s request
  have hne : s.requestsTopic ≠ s.verdictsTopic := by decide
  have hread : (s.after { } (.publish request)).poll s.requestsTopic =
      [encodeRequest request] := poll_after_publish { } request
  have hfirst := run_plain (s.after { } (.publish request)) fun m hm => by
    rw [hread] at hm
    exact List.mem_singleton.mp hm
  have hagain := (poll_run_of_ok hne hfirst).1
  rw [hread] at hagain
  have hc : s.Completes { } ([.publish request, .run] ++ [.run]) := by
    refine ⟨hfirst, run_plain _ fun m hm => ?_, trivial⟩
    exact List.mem_singleton.mp (hagain ▸ hm)
  refine ⟨hne, hc, rfl, ?_⟩
  obtain ⟨out, hout, hpoll⟩ := verdicts_of_history hne hc
  rw [hpoll]
  exact length_of_mapM hout

end StreamingInspector

end Waf
