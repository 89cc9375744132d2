import LfWaap.Hmm.Runs

/-!
# What a detector of byte classes cannot tell apart

Two of the extractors reduce a byte to its class before anything else is done with it: for them a
capital is as good as another capital, a digit as another digit, a sign as another sign. Whatever
is computed later depends on the classes: exchange bytes of the traffic that a detector is trained
with for others of their class, as often and wherever one likes, and after every sequence of
trainings it is the same detector; exchange letters of a request for others of their class, and it
says the same about it (`Waf.HmmDetector.inspect_lookalike`).

So an injection passes such a detector if some benign request is written in the same classes. The
rule set beside it reads the letters themselves.
-/

namespace Waf

open Python

section

variable [Interpreter]

/-! ### Flows -/

/-- An extractor sees no difference between two flows of one partition. -/
def Indistinct (x : FeatureExtractor) (f g : Flow) : Prop :=
  partitionKey f = partitionKey g ∧ x.extract f = x.extract g

section

variable {c : HmmSettings} {p : PartitionedHmm c} {flows flows' : List Flow}

/-- Such flows are collected in the same groups. -/
theorem groupSequences_indistinct (h : List.Forall₂ (Indistinct c.extractor) flows flows') :
    groupSequences c flows = groupSequences c flows' := by
  have hfold : ∀ groups : Groups c,
      flows.foldlM (fun groups flow =>
        (c.extractor.symbols flow).map fun s => groups.appendAt (partitionKey flow) s) groups =
      flows'.foldlM (fun groups flow =>
        (c.extractor.symbols flow).map fun s => groups.appendAt (partitionKey flow) s) groups := by
    induction h with
    | nil => exact fun _ => rfl
    | @cons f g flows flows' hfg _ ih =>
      intro groups
      rw [List.foldlM_cons, List.foldlM_cons, hfg.1, FeatureExtractor.symbols_congr hfg.2]
      exact congrArg _ (funext ih)
  exact hfold .empty

variable [Libraries]

/-- **A training sees no difference.** -/
theorem PartitionedHmm.train_indistinct {validation validation' : List Flow}
    (hn : List.Forall₂ (Indistinct c.extractor) flows flows')
    (hv : List.Forall₂ (Indistinct c.extractor) validation validation') :
    p.train flows validation = p.train flows' validation' := by
  rw [train, train, groupSequences_indistinct hn, groupSequences_indistinct hv, hn.length_eq,
    hv.length_eq]

/-- **Nor does a sequence of trainings.** -/
theorem PartitionedHmm.trainRun_indistinct {calls calls' : List (List Flow × List Flow)}
    (h : List.Forall₂ (fun a b => List.Forall₂ (Indistinct c.extractor) a.1 b.1 ∧
      List.Forall₂ (Indistinct c.extractor) a.2 b.2) calls calls') :
    p.trainRun calls = p.trainRun calls' := by
  induction h generalizing p with
  | nil => rfl
  | cons hcall _ ih => rw [trainRun, trainRun, train_indistinct hcall.1 hcall.2, ih]

end

/-- **A lookalike** of a flow: its payload is written in the same classes. -/
structure Flow.Lookalike (f g : Flow) : Prop where
  protocol : f.protocol = g.protocol
  port : f.port = g.port
  direction : f.direction = g.direction
  packets : f.packets = g.packets
  classes : f.payload.map byteClass = g.payload.map byteClass

/-- The extractors that read classes. -/
def FeatureExtractor.ReadsClasses (x : FeatureExtractor) : Prop :=
  x = byteClassExtractor ∨ ∃ window, x = windowTokenExtractor window

/-- Lookalikes are in one partition, and none of these extractors sees a difference. -/
theorem Flow.Lookalike.indistinct {x : FeatureExtractor} (hx : x.ReadsClasses) {f g : Flow}
    (h : f.Lookalike g) : Indistinct x f g := by
  have hcount : f.payload.length = g.payload.length := by
    rw [← List.length_map (f := byteClass), h.classes, List.length_map]
  have hnil : f.payload = [] ↔ g.payload = [] := by
    rw [← List.length_eq_zero_iff, hcount, List.length_eq_zero_iff]
  have hlength : f.length = g.length :=
    if_congr hnil (by rw [h.packets]) (by rw [hcount])
  refine ⟨?_, ?_⟩
  · rw [partitionKey, partitionKey, h.protocol, h.port, h.direction, hlength]
  · obtain rfl | ⟨window, rfl⟩ := hx
    · exact congrArg (fun classes => Except.ok (nonempty classes)) h.classes
    · have hpadded : paddedClasses window f.payload = paddedClasses window g.payload := by
        rw [paddedClasses, paddedClasses, h.classes]
      exact congrArg (fun classes => Except.ok (nonempty (windowTokens window classes))) hpadded

/-! ### Requests -/

/-- Two code points are written in the same classes, or neither of them is. -/
def SameClasses (a b : CodePoint) : Prop :=
  (Python.Encodable a ↔ Python.Encodable b) ∧
    (escapedUtf8Char a).map byteClass = (escapedUtf8Char b).map byteClass

instance : DecidableRel SameClasses := fun _ _ =>
  inferInstanceAs (Decidable ((_ ↔ _) ∧ _ = _))

omit [Interpreter] in
theorem sameClasses_refl (t : Text) : List.Forall₂ SameClasses t t :=
  List.forall₂_same.mpr fun _ _ => ⟨Iff.rfl, rfl⟩

omit [Interpreter] in
/-- Texts are encoded to the same classes if their code points are. -/
theorem encode_sameClasses {s t : Text} (h : List.Forall₂ SameClasses s t) :
    Related (fun b b' => b.map byteClass = b'.map byteClass) (encodeUtf8SurrogateEscape s)
      (encodeUtf8SurrogateEscape t) := by
  have hboth : (EncodableText s ↔ EncodableText t) ∧
      (s.flatMap escapedUtf8Char).map byteClass = (t.flatMap escapedUtf8Char).map byteClass := by
    induction h with
    | nil => exact ⟨Iff.rfl, rfl⟩
    | cons hab _ ih =>
      rw [encodableText_cons, encodableText_cons, hab.1, ih.1, List.flatMap_cons,
        List.flatMap_cons, List.map_append, List.map_append, hab.2, ih.2]
      exact ⟨Iff.rfl, rfl⟩
  rw [encodeUtf8SurrogateEscape, encodeUtf8SurrogateEscape]
  by_cases hs : EncodableText s
  · rw [if_pos hs, if_pos (hboth.1.mp hs)]
    exact .ok hboth.2
  · rw [if_neg hs, if_neg (hboth.1.not.mp hs)]
    exact .error _

/-- **A lookalike** of a request: its port is the same, and its texts are written in the same
classes, code point by code point. -/
structure HttpRequest.Lookalike (r s : HttpRequest) : Prop where
  port : portOf r = portOf s
  method : List.Forall₂ SameClasses r.method s.method
  path : List.Forall₂ SameClasses r.path s.path
  query : List.Forall₂ SameClasses r.query s.query
  headers : List.Forall₂ (fun h k => List.Forall₂ SameClasses h.1 k.1 ∧
    List.Forall₂ SameClasses (pyStr h.2) (pyStr k.2)) r.headers.entries s.headers.entries
  body : List.Forall₂ SameClasses r.body s.body

/-- On the wire they are written in the same classes. -/
theorem HttpRequest.Lookalike.requestText {r s : HttpRequest} (h : r.Lookalike s) :
    List.Forall₂ SameClasses (requestText r) (requestText s) := by
  have hline : ∀ ⦃a b : Text × Json⦄, List.Forall₂ SameClasses a.1 b.1 ∧
      List.Forall₂ SameClasses (pyStr a.2) (pyStr b.2) →
        List.Forall₂ SameClasses (headerLine a) (headerLine b) := fun _ _ hab =>
    List.rel_append (List.rel_append (List.rel_append hab.1 (sameClasses_refl _)) hab.2)
      (sameClasses_refl _)
  have htarget : List.Forall₂ SameClasses (requestTarget r) (requestTarget s) := by
    have hnil : r.query = [] ↔ s.query = [] := by
      rw [← List.length_eq_zero_iff, h.query.length_eq, List.length_eq_zero_iff]
    rw [requestTarget, requestTarget]
    by_cases hr : r.query = []
    · rw [if_pos hr, if_pos (hnil.mp hr)]
      exact h.path
    · rw [if_neg hr, if_neg (hnil.not.mp hr)]
      exact List.rel_append (List.rel_append h.path (sameClasses_refl _)) h.query
  have hheaders : List.Forall₂ SameClasses (r.headers.entries.flatMap headerLine)
      (s.headers.entries.flatMap headerLine) := List.rel_flatMap h.headers hline
  exact List.rel_append (List.rel_append (List.rel_append (List.rel_append (List.rel_append
    (List.rel_append h.method (sameClasses_refl _)) htarget) (sameClasses_refl _)) hheaders)
      (sameClasses_refl _)) h.body

/-- **Their flows are lookalikes**, or neither becomes a flow, for the same reason. -/
theorem httpRequestToFlow_lookalike {r s : HttpRequest} (h : r.Lookalike s) :
    Related Flow.Lookalike (httpRequestToFlow r) (httpRequestToFlow s) := by
  rw [httpRequestToFlow, httpRequestToFlow, h.port]
  cases portOf s with
  | error e => exact .error e
  | ok port =>
    exact (encode_sameClasses h.requestText).bind fun b b' hb =>
      .ok ⟨rfl, rfl, rfl, rfl, hb⟩

/-! ### The detector -/

variable [Libraries]

/-- A request and a lookalike of it are answered with the same signal. -/
theorem HmmDetector.inspect_congr (d : HmmDetector) (hx : d.settings.extractor.ReadsClasses)
    {r s : HttpRequest} (h : r.Lookalike s) : d.inspect r = d.inspect s := by
  have hflow := httpRequestToFlow_lookalike h
  rw [inspect, inspect]
  cases d.isTrained with
  | false => rfl
  | true =>
    generalize httpRequestToFlow r = x at hflow ⊢
    generalize httpRequestToFlow s = y at hflow ⊢
    cases hflow with
    | error e => rfl
    | ok hfg =>
      obtain ⟨hkey, hextract⟩ := hfg.indistinct hx
      have hassess := d.partitioned.assess_congr_flow hkey hextract
      exact congrArg (fun result => result >>= fun a => .ok (signalOf a)) hassess

/-- **The detector cannot tell lookalikes apart**, if it reads classes: not in any number of
trainings, which end in the same detector with the same outcomes, and not in any request that it
is asked about later. -/
theorem HmmDetector.inspect_lookalike (d : HmmDetector)
    (hx : d.settings.extractor.ReadsClasses) {calls calls' : List (List Flow × List Flow)}
    (hcalls : List.Forall₂ (fun a b => List.Forall₂ Flow.Lookalike a.1 b.1 ∧
      List.Forall₂ Flow.Lookalike a.2 b.2) calls calls') :
    d.trainRun calls = d.trainRun calls' ∧
      ∀ r s : HttpRequest, r.Lookalike s →
        (d.trainRun calls).1.inspect r = (d.trainRun calls').1.inspect s := by
  obtain ⟨c, p⟩ := d
  have hflows : ∀ {flows flows' : List Flow}, List.Forall₂ Flow.Lookalike flows flows' →
      List.Forall₂ (Indistinct c.extractor) flows flows' := fun h =>
    h.imp fun _ _ hfg => hfg.indistinct hx
  have hrun : p.trainRun calls = p.trainRun calls' :=
    PartitionedHmm.trainRun_indistinct (hcalls.imp fun _ _ h => ⟨hflows h.1, hflows h.2⟩)
  rw [trainRun_eq, trainRun_eq, hrun]
  exact ⟨rfl, fun r s hrs => inspect_congr ⟨c, (p.trainRun calls').1⟩ hx hrs⟩

end

/-- An injection, and a request that could be a benign one; the traffic that the detectors are
trained with differs, too. -/
theorem HmmDetector.inspect_lookalike_injection :
    let _ : Interpreter := .ascii
    let _ : Libraries := .memoryless
    let d : HmmDetector :=
      ⟨{ extractor := byteClassExtractor, nStates := 1, minTrain := 1, targetFpr := 1 / 2 }, { }⟩
    let flow := Flow.new (text "http") 80 .inbound [71, 69, 84]
    let flow' := Flow.new (text "http") 80 .inbound [80, 85, 84]
    let r := HttpRequest.new (text "GET") (text "/items") (text "id=1 OR 1=1")
    let s := HttpRequest.new (text "GET") (text "/parts") (text "no=5 IN 2+3")
    (d.trainRun [([flow], [flow])]).1.inspect r =
      (d.trainRun [([flow'], [flow'])]).1.inspect s := by
  intro _ _ d flow flow' r s
  have hflow : flow.Lookalike flow' := ⟨rfl, rfl, rfl, rfl, by decide⟩
  have hflows : List.Forall₂ Flow.Lookalike [flow] [flow'] := .cons hflow .nil
  have hrequest : r.Lookalike s := by
    refine ⟨rfl, sameClasses_refl _, ?_, ?_, .nil, .nil⟩
    · decide
    · decide
  exact (inspect_lookalike d (.inl rfl) (.cons ⟨hflows, hflows⟩ .nil)).2 r s hrequest

end Waf
