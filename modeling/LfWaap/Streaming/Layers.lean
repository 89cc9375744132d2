import LfWaap.Hmm.HmmDetector
import LfWaap.Ruleset.RuleSetDetector
import LfWaap.Streaming.Inference

/-!
# More detectors

The decision service is meant to be extended: a rule set, a trained model, and whatever else
implements the port. What an extension does to the verdicts depends on the policy alone. Under
`any` a detector more can only turn `ALLOW` into `BLOCK`, under `all` only `BLOCK` into `ALLOW`
(`Waf.BlockPolicy.Tightens`); under both it is one more detector that may raise.

`Waf.StreamingInspector.run_layered` says so for a whole run of the inspector: two inspectors read
the same topic of the same channel, and every detector of the first is one of the second. The
verdicts of the second are then matched, one by one, by the first verdicts of the first. In
particular two services with the same detectors, in whatever order and however often each is
listed, decide alike (`Waf.StreamingInspector.run_rearranged`): the order shows in the reasons, and
in which of two exceptions ends a run, and nowhere else.
-/

namespace Waf

open Python

/-! ### Signals -/

/-- **Blocking on any signal.** -/
theorem shouldBlock_any_iff {ss : List DetectionSignal} :
    shouldBlock .any ss = true ↔ ∃ s ∈ ss, s.blocked = true := by
  rw [shouldBlock, decide_eq_true_iff, List.length_pos_iff_exists_mem]
  simp only [List.mem_filter]

/-- **Blocking on all signals.** -/
theorem shouldBlock_all_iff {ss : List DetectionSignal} :
    shouldBlock .all ss = true ↔ ∀ s ∈ ss, s.blocked = true := by
  rw [shouldBlock, decide_eq_true_iff, List.length_filter_eq_length_iff]

theorem isBlocked_verdictOf (policy : BlockPolicy) (ss : List DetectionSignal) :
    (verdictOf policy ss).isBlocked = shouldBlock policy ss := by
  rw [verdictOf, Verdict.isBlocked]
  cases shouldBlock policy ss <;> rfl

/-- How the verdicts of a service may differ from those of one that asks more detectors. -/
def BlockPolicy.Tightens : BlockPolicy → Verdict → Verdict → Prop
  | .any, v, w => v.isBlocked = true → w.isBlocked = true
  | .all, v, w => w.isBlocked = true → v.isBlocked = true

theorem tightens_verdictOf (policy : BlockPolicy) {ss ss' : List DetectionSignal}
    (h : ss ⊆ ss') : policy.Tightens (verdictOf policy ss) (verdictOf policy ss') := by
  cases policy with
  | any =>
    intro hblock
    rw [isBlocked_verdictOf, shouldBlock_any_iff] at hblock ⊢
    obtain ⟨s, hs, hblocked⟩ := hblock
    exact ⟨s, h hs, hblocked⟩
  | all =>
    intro hblock
    rw [isBlocked_verdictOf, shouldBlock_all_iff] at hblock ⊢
    exact fun s hs => hblock s (h hs)

variable [Interpreter]

/-- **A larger service raises more**: where it collects signals, those of a part of its detectors
are among them. -/
theorem exists_signalsOf_subset {ds ds' : List Detector} (hsub : ds ⊆ ds') {r : HttpRequest}
    {ss' : List DetectionSignal} (h : signalsOf ds' r = .ok ss') :
    ∃ ss, signalsOf ds r = .ok ss ∧ ss ⊆ ss' := by
  obtain ⟨ss, hss⟩ := exists_mapM_eq_ok (fun d => Detector.inspect d r) ds fun d hd =>
    exists_of_mem_of_mapM h (hsub hd)
  refine ⟨ss, hss, fun s hs => ?_⟩
  obtain ⟨d, hd, hds⟩ := exists_of_mem_values hss hs
  obtain ⟨s', hs', hds'⟩ := exists_mem_values h (hsub hd)
  rwa [Except.ok.inj (hds.symm.trans hds')]

/-! ### Runs -/

namespace StreamingInspector

/-- What a run publishes, as the verdicts it comes from. -/
theorem poll_run (s : StreamingInspector) (channel : InMemoryChannel) :
    (s.run channel).1.poll s.verdictsTopic = channel.poll s.verdictsTopic ++
        (mapUntil s.decideMessage (channel.poll s.requestsTopic)).1.map encodeVerdict ∧
      ∀ n, (s.run channel).2 = .ok n ↔
        (mapUntil s.decideMessage (channel.poll s.requestsTopic)).2 = none ∧
          n = (mapUntil s.decideMessage (channel.poll s.requestsTopic)).1.length := by
  have hanswer : mapUntil s.answer ((channel.poll s.requestsTopic).map id) =
      ((mapUntil s.decideMessage (channel.poll s.requestsTopic)).1.map encodeVerdict,
        (mapUntil s.decideMessage (channel.poll s.requestsTopic)).2) :=
    mapUntil_map_map fun _ _ => rfl
  rw [List.map_id] at hanswer
  rw [run_eq, hanswer, InMemoryChannel.poll_publishAll, if_pos rfl, List.length_map]
  refine ⟨rfl, fun n => ?_⟩
  cases (mapUntil s.decideMessage (channel.poll s.requestsTopic)).2 with
  | none => exact ⟨fun h => ⟨rfl, (Except.ok.inj h).symm⟩, fun h => congrArg Except.ok h.2.symm⟩
  | some e =>
    constructor
    · intro h
      cases h
    · rintro ⟨h, -⟩
      cases h

/-- On one message. -/
theorem decideMessage_tightens {ds ds' : List Detector} (hds : ds ≠ []) (hds' : ds' ≠ [])
    (hsub : ds ⊆ ds') (policy : BlockPolicy) (requests verdicts : Text) (message : Bytes)
    (v' : Verdict)
    (h : decideMessage ⟨⟨ds', policy, hds'⟩, requests, verdicts⟩ message = .ok v') :
    ∃ v, decideMessage ⟨⟨ds, policy, hds⟩, requests, verdicts⟩ message = .ok v ∧
      policy.Tightens v v' := by
  obtain ⟨r, hr, h⟩ := exists_of_bind_eq_ok h
  obtain ⟨ss', hss', rfl⟩ := exists_of_map_eq_ok h
  obtain ⟨ss, hss, hsubset⟩ := exists_signalsOf_subset hsub hss'
  refine ⟨verdictOf policy ss, ?_, tightens_verdictOf policy hsubset⟩
  rw [decideMessage, hr, ok_bind, BlockDecisionService.decide, hss]
  rfl

/-- **More detectors, in a whole run.** Two inspectors with one policy read the same topic, and
every detector of the first is one of the second. Each verdict that the second publishes tightens
the verdict of the first in the same place; the first may go on where the second has raised
(`more`); and if the second comes to the end of the topic, so does the first, after as many
messages. -/
theorem run_layered {ds ds' : List Detector} (hds : ds ≠ []) (hds' : ds' ≠ []) (hsub : ds ⊆ ds')
    (policy : BlockPolicy) (requests verdicts : Text) (channel : InMemoryChannel) :
    let s : StreamingInspector := ⟨⟨ds, policy, hds⟩, requests, verdicts⟩
    let s' : StreamingInspector := ⟨⟨ds', policy, hds'⟩, requests, verdicts⟩
    ∃ vs more vs' : List Verdict,
      (s.run channel).1.poll verdicts =
        channel.poll verdicts ++ (vs ++ more).map encodeVerdict ∧
      (s'.run channel).1.poll verdicts = channel.poll verdicts ++ vs'.map encodeVerdict ∧
      List.Forall₂ policy.Tightens vs vs' ∧
      ∀ n, (s'.run channel).2 = .ok n → (s.run channel).2 = .ok n ∧ more = [] := by
  intro s s'
  obtain ⟨hpoll, hreturns⟩ := poll_run s channel
  obtain ⟨hpoll', hreturns'⟩ := poll_run s' channel
  obtain ⟨vs, more, hsplit, hall, hend⟩ := mapUntil_of_refines (f := s.decideMessage)
    (decideMessage_tightens hds hds' hsub policy requests verdicts) (channel.poll requests)
  refine ⟨vs, more, _, hsplit ▸ hpoll, hpoll', hall, fun n hn => ?_⟩
  obtain ⟨hnone, rfl⟩ := (hreturns' n).mp hn
  obtain ⟨hmore, hnone'⟩ := hend hnone
  refine ⟨(hreturns _).mpr ⟨hnone', ?_⟩, hmore⟩
  rw [hmore, List.append_nil] at hsplit
  change (mapUntil s'.decideMessage (channel.poll requests)).1.length =
    (mapUntil s.decideMessage (channel.poll requests)).1.length
  rw [hsplit, hall.length_eq]

omit [Interpreter] in
/-- The rule set, and the rule set behind an untrained model. -/
theorem run_layered_untrained :
    let _ : Interpreter := .ascii
    let _ : WordTable := .ascii
    let _ : Libraries := .memoryless
    let rules : Detector := RuleSetDetector.default.toDetector
    let untrained : Detector :=
      HmmDetector.toDetector ⟨{ extractor := byteClassExtractor }, { }⟩
    let channel := InMemoryChannel.publish { } (text "in")
      (encodeRequest (HttpRequest.new (text "GET") (text "/") (text "id=1 OR 1=1")))
    let s : StreamingInspector := ⟨⟨[rules], .any, by simp⟩, text "in", text "out"⟩
    let s' : StreamingInspector := ⟨⟨[untrained, rules], .any, by simp⟩, text "in", text "out"⟩
    ∃ vs more vs' : List Verdict,
      (s.run channel).1.poll (text "out") =
        channel.poll (text "out") ++ (vs ++ more).map encodeVerdict ∧
      (s'.run channel).1.poll (text "out") =
        channel.poll (text "out") ++ vs'.map encodeVerdict ∧
      List.Forall₂ BlockPolicy.any.Tightens vs vs' ∧
      ∀ n, (s'.run channel).2 = .ok n → (s.run channel).2 = .ok n ∧ more = [] := by
  intro _ _ _ rules untrained channel s s'
  exact run_layered (List.cons_ne_nil rules []) (List.cons_ne_nil untrained [rules])
    (List.subset_cons_self untrained [rules]) .any (text "in") (text "out") channel

/-- Services with the same detectors decide alike on one message. -/
theorem decideMessage_rearranged {ds ds' : List Detector} (hds : ds ≠ []) (hds' : ds' ≠ [])
    (hsub : ds ⊆ ds') (hsub' : ds' ⊆ ds) (policy : BlockPolicy) (requests verdicts : Text)
    (message : Bytes) (v' : Verdict)
    (h : decideMessage ⟨⟨ds', policy, hds'⟩, requests, verdicts⟩ message = .ok v') :
    ∃ v, decideMessage ⟨⟨ds, policy, hds⟩, requests, verdicts⟩ message = .ok v ∧
      v.decision = v'.decision := by
  obtain ⟨v, hv, hle⟩ :=
    decideMessage_tightens hds hds' hsub policy requests verdicts message v' h
  obtain ⟨w, hw, hge⟩ :=
    decideMessage_tightens hds' hds hsub' policy requests verdicts message v hv
  obtain rfl := Except.ok.inj (hw.symm.trans h)
  have hiff : v.isBlocked = true ↔ w.isBlocked = true := by
    cases policy with
    | any => exact ⟨hle, hge⟩
    | all => exact ⟨hge, hle⟩
  refine ⟨v, hv, ?_⟩
  rw [Verdict.isBlocked, Verdict.isBlocked, decide_eq_true_iff, decide_eq_true_iff] at hiff
  cases hv : v.decision with
  | block => exact (hiff.mp hv).symm
  | allow =>
    cases hw : w.decision with
    | allow => rfl
    | block => cases (hiff.mpr hw).symm.trans hv

/-- **The order of the detectors** does not matter to the decisions. Two inspectors with the same
detectors publish equally many verdicts from the same channel, with the same decisions in the same
places, and one returns when the other does. -/
theorem run_rearranged {ds ds' : List Detector} (hds : ds ≠ []) (hds' : ds' ≠ []) (hsub : ds ⊆ ds')
    (hsub' : ds' ⊆ ds) (policy : BlockPolicy) (requests verdicts : Text)
    (channel : InMemoryChannel) :
    let s : StreamingInspector := ⟨⟨ds, policy, hds⟩, requests, verdicts⟩
    let s' : StreamingInspector := ⟨⟨ds', policy, hds'⟩, requests, verdicts⟩
    (∃ vs vs' : List Verdict,
      (s.run channel).1.poll verdicts = channel.poll verdicts ++ vs.map encodeVerdict ∧
      (s'.run channel).1.poll verdicts = channel.poll verdicts ++ vs'.map encodeVerdict ∧
      List.Forall₂ (fun v v' => v.decision = v'.decision) vs vs') ∧
      ∀ n, (s.run channel).2 = .ok n ↔ (s'.run channel).2 = .ok n := by
  intro s s'
  obtain ⟨hpoll, hreturns⟩ := poll_run s channel
  obtain ⟨hpoll', hreturns'⟩ := poll_run s' channel
  obtain ⟨vs, more, hsplit, hall, hend⟩ := mapUntil_of_refines (f := s.decideMessage)
    (decideMessage_rearranged hds hds' hsub hsub' policy requests verdicts) (channel.poll requests)
  obtain ⟨vs', more', hsplit', hall', hend'⟩ := mapUntil_of_refines (f := s'.decideMessage)
    (decideMessage_rearranged hds' hds hsub' hsub policy requests verdicts) (channel.poll requests)
  -- neither run goes on where the other has raised
  have hlen : (mapUntil s.decideMessage (channel.poll requests)).1.length =
      (mapUntil s'.decideMessage (channel.poll requests)).1.length + more.length :=
    (congrArg List.length hsplit).trans (by rw [List.length_append, hall.length_eq])
  have hlen' : (mapUntil s'.decideMessage (channel.poll requests)).1.length =
      (mapUntil s.decideMessage (channel.poll requests)).1.length + more'.length :=
    (congrArg List.length hsplit').trans (by rw [List.length_append, hall'.length_eq])
  have hsame : (mapUntil s.decideMessage (channel.poll requests)).1.length =
      (mapUntil s'.decideMessage (channel.poll requests)).1.length := by omega
  have hmore : more = [] := List.length_eq_zero_iff.mp (by omega)
  rw [hmore, List.append_nil] at hsplit
  refine ⟨⟨_, _, hpoll, hpoll', hsplit ▸ hall⟩, fun n => ?_⟩
  rw [hreturns, hreturns']
  change _ = none ∧ n = (mapUntil s.decideMessage (channel.poll requests)).1.length ↔ _
  rw [hsame]
  exact ⟨fun h => ⟨(hend' h.1).2, h.2⟩, fun h => ⟨(hend h.1).2, h.2⟩⟩

omit [Interpreter] in
/-- The rule set before and after an untrained model. -/
theorem run_rearranged_untrained :
    let _ : Interpreter := .ascii
    let _ : WordTable := .ascii
    let _ : Libraries := .memoryless
    let rules : Detector := RuleSetDetector.default.toDetector
    let untrained : Detector :=
      HmmDetector.toDetector ⟨{ extractor := byteClassExtractor }, { }⟩
    let channel := InMemoryChannel.publish { } (text "in")
      (encodeRequest (HttpRequest.new (text "GET") (text "/") (text "id=1 OR 1=1")))
    let s : StreamingInspector := ⟨⟨[rules, untrained], .all, by simp⟩, text "in", text "out"⟩
    let s' : StreamingInspector := ⟨⟨[untrained, rules], .all, by simp⟩, text "in", text "out"⟩
    (∃ vs vs' : List Verdict,
      (s.run channel).1.poll (text "out") =
        channel.poll (text "out") ++ vs.map encodeVerdict ∧
      (s'.run channel).1.poll (text "out") =
        channel.poll (text "out") ++ vs'.map encodeVerdict ∧
      List.Forall₂ (fun v v' => v.decision = v'.decision) vs vs') ∧
      ∀ n, (s.run channel).2 = .ok n ↔ (s'.run channel).2 = .ok n := by
  intro _ _ _ rules untrained channel s s'
  have hswap : [rules, untrained].Perm [untrained, rules] := List.Perm.swap untrained rules []
  exact run_rearranged (List.cons_ne_nil rules [untrained]) (List.cons_ne_nil untrained [rules])
    hswap.subset hswap.symm.subset .all (text "in") (text "out") channel

end StreamingInspector

end Waf
