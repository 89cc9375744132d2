import LfWaap.Domain.BlockDecision
import LfWaap.Domain.Flow
import LfWaap.Hmm.HttpFlow
import LfWaap.Python.Base64
import LfWaap.Python.Builtins
import LfWaap.Python.JsonRoundTrip

/-!
# Flows, requests and verdicts as messages

`waf.infrastructure.streaming.codecs`: every domain value that crosses a channel is
written as a JSON document. A decoder builds a domain value from whatever document it
reads, with the conversions of the built-in functions, and raises where one of them does.

A message is read back as it was written, up to one thing JSON text cannot tell apart:
a surrogate pair and the code point it stands for. So the round trips are stated for
texts without surrogate pairs (`Waf.decodeLabeledFlow_encodeLabeledFlow`), or say what
becomes of the others (`Waf.decodeVerdict_encodeVerdict`).
-/

namespace Waf

open Python

variable [Interpreter]

/-- The octets of a document. -/
def encodeDocument (document : List (Text × Json)) : Bytes := utf8 (dumps (.obj document))

/-! ### Flows -/

/-- A packet as a document. -/
def packetToDict (packet : PacketMeta) : List (Text × Json) :=
  [(text "direction", .str packet.direction.value),
    (text "length", .int packet.length),
    (text "inter_arrival_ms", .float packet.interArrivalMs),
    (text "tcp_flags", .str packet.tcpFlags)]

/-- A packet from a document. -/
def packetFromDict (raw : Json) : Except PyError PacketMeta := do
  let direction ← Direction.ofValue (pyStr (← raw.item "direction"))
  let length ← (← raw.item "length").toInt
  let interArrivalMs ← (← raw.item "inter_arrival_ms").toFloat
  let tcpFlags := pyStr (← raw.item "tcp_flags")
  return { direction, length, interArrivalMs, tcpFlags }

/-- A flow as a document. The payload is written in base 64. -/
def flowToDict (flow : Flow) : List (Text × Json) :=
  [(text "protocol", .str flow.protocol),
    (text "port", .int flow.port),
    (text "direction", .str flow.direction.value),
    (text "payload_b64", .str (b64encode flow.payload)),
    (text "packets", .arr (flow.packets.map fun p => .obj (packetToDict p)))]

/-- `base64.b64decode` of a value: only a text is decoded. -/
def payloadFromValue : Json → Except PyError Bytes
  | .str s => b64decode s
  | d => .error (.typeError ("argument should be a bytes-like object or ASCII string, not '" ++
      d.typeName ++ "'"))

/-- A flow from a document. -/
def flowFromDict (document : Json) : Except PyError Flow := do
  let protocol := pyStr (← document.item "protocol")
  let port ← (← document.item "port").toInt
  let direction ← Direction.ofValue (pyStr (← document.item "direction"))
  let payload ← payloadFromValue (← document.item "payload_b64")
  let packets ← (← (← document.item "packets").elements).mapM packetFromDict
  return Flow.new protocol port direction payload packets

/-- A flow as a message. -/
def encodeFlow (flow : Flow) : Bytes := encodeDocument (flowToDict flow)

/-- A flow from a message. -/
def decodeFlow (message : Bytes) : Except PyError Flow := do
  flowFromDict (← loads message)

/-- A flow as a document, with its label put at the end. -/
def labeledFlowToDict (flow : Flow) (isAttack : Bool) : List (Text × Json) :=
  flowToDict flow ++ [(text "is_attack", .bool isAttack)]

/-- A flow and its label as a message. -/
def encodeLabeledFlow (flow : Flow) (isAttack : Bool) : Bytes :=
  encodeDocument (labeledFlowToDict flow isAttack)

/-- A flow and its label from a message. -/
def decodeLabeledFlow (message : Bytes) : Except PyError (Flow × Bool) := do
  let document ← loads message
  let flow ← flowFromDict document
  return (flow, (← document.item "is_attack").truth)

/-! ### Requests -/

/-- A request as a document. -/
def requestToDict (request : HttpRequest) : List (Text × Json) :=
  [(text "method", .str request.method),
    (text "path", .str request.path),
    (text "query", .str request.query),
    (text "headers", .obj request.headers.entries),
    (text "body", .str request.body),
    (text "client_ip", .str request.clientIp)]

/-- A request as a message. -/
def encodeRequest (request : HttpRequest) : Bytes := encodeDocument (requestToDict request)

/-- The items of a dictionary whose names are lower-cased when a request is built; a
name that is not a text has no `lower`. -/
def headerItems (items : List (Json × Json)) : Except PyError (List (Text × Json)) :=
  items.mapM fun item =>
    match item.1 with
    | .str name => .ok (name, item.2)
    | name => .error (.attributeError ("'" ++ name.typeName ++ "' object has no attribute 'lower'"))

/-- A request from a message. -/
def decodeRequest (message : Bytes) : Except PyError HttpRequest := do
  let document ← loads message
  let method := pyStr (← document.item "method")
  let path := pyStr (← document.item "path")
  let query := pyStr (← document.item "query")
  let headers ← (← document.item "headers").toItems
  let body := pyStr (← document.item "body")
  let clientIp := pyStr (← document.item "client_ip")
  return HttpRequest.new method path query (.ofList (← headerItems headers)) body clientIp

/-! ### Verdicts -/

/-- A verdict as its consumers read it. -/
structure VerdictMessage where
  blocked : Bool
  decision : Text
  reason : Text

/-- A verdict as a document. -/
def verdictToDict (verdict : Verdict) : List (Text × Json) :=
  [(text "blocked", .bool verdict.isBlocked),
    (text "decision", .str verdict.decision.value),
    (text "reason", .str verdict.reason)]

/-- A verdict as a message. -/
def encodeVerdict (verdict : Verdict) : Bytes :=
  encodeDocument (verdictToDict verdict)

/-- A verdict from a message. -/
def decodeVerdict (message : Bytes) : Except PyError VerdictMessage := do
  let document ← loads message
  let blocked := (← document.item "blocked").truth
  let decision := pyStr (← document.item "decision")
  let reason := pyStr (← document.item "reason")
  return { blocked, decision, reason }

/-! ### Reading what was written -/

omit [Interpreter] in
theorem rereadMembers_eq_map (ms : List (Text × Json)) :
    rereadMembers ms = ms.map fun m => (joinSurrogates m.1, m.2.reread) := by
  induction ms with
  | nil => rw [rereadMembers, List.map_nil]
  | cons m ms ih => rw [rereadMembers, ih, List.map_cons]

omit [Interpreter] in
/-- An object whose names hold no surrogate pairs keeps its members. -/
theorem reread_obj {ms : List (Text × Json)} (hk : ∀ m ∈ ms, joinSurrogates m.1 = m.1)
    (hn : (ms.map Prod.fst).Nodup) :
    (Json.obj ms).reread = .obj (ms.map fun m => (m.1, m.2.reread)) := by
  have hmap : rereadMembers ms = ms.map fun m => (m.1, m.2.reread) := by
    rw [rereadMembers_eq_map]
    refine List.map_congr_left fun m hm => ?_
    rw [hk m hm]
  have hnodup : ((ms.map fun m => (m.1, m.2.reread)).map Prod.fst).Nodup := by
    rw [List.map_map]
    exact hn
  rw [Json.reread, hmap, Dict.entries_ofList hnodup]

/-- **What a message is read as**: its document, with the texts of its values joined. -/
theorem loads_encodeDocument {ms : List (Text × Json)} (hr : ReadableMembers ms)
    (hk : ∀ m ∈ ms, joinSurrogates m.1 = m.1) (hn : (ms.map Prod.fst).Nodup) :
    loads (encodeDocument ms) = .ok (.obj (ms.map fun m => (m.1, m.2.reread))) := by
  have hd : (Json.obj ms).Readable := by
    rw [Json.Readable]
    exact hr
  rw [encodeDocument, loads_dumps hd, reread_obj hk hn]

/-- **A verdict arrives**, its reason with its surrogate pairs joined. -/
theorem decodeVerdict_encodeVerdict (v : Verdict) :
    decodeVerdict (encodeVerdict v) =
      .ok ⟨v.isBlocked, v.decision.value, joinSurrogates v.reason⟩ := by
  have hdecision : AsciiText v.decision.value := by
    cases v.decision <;> decide
  have hr : ReadableMembers (verdictToDict v) := by
    simp [verdictToDict, ReadableMembers, Json.Readable]
  have hk : ∀ m ∈ verdictToDict v, joinSurrogates m.1 = m.1 := by
    simp only [verdictToDict, List.forall_mem_cons, List.not_mem_nil]
    exact ⟨by decide, by decide, by decide, nofun⟩
  have hn : ((verdictToDict v).map Prod.fst).Nodup := by
    change [text "blocked", text "decision", text "reason"].Nodup
    decide
  rw [decodeVerdict, encodeVerdict, loads_encodeDocument hr hk hn, verdictToDict]
  simp only [List.map_cons, List.map_nil, Json.reread, joinSurrogates_ascii hdecision]
  rfl

/-! ### Flows that arrive as they were sent -/

/-- A packet that its document determines. -/
def PacketMeta.Transmissible (p : PacketMeta) : Prop :=
  NoSurrogatePair p.tcpFlags ∧ ∀ q, p.interArrivalMs = .finite q → FloatReads q

/-- A flow that its document determines: its texts hold no surrogate pairs, and the
notation of its floats can be read. -/
def Flow.Transmissible (f : Flow) : Prop :=
  NoSurrogatePair f.protocol ∧ ∀ p ∈ f.packets, p.Transmissible

/-- A document that is read as it was written. -/
def Kept (d : Json) : Prop := d.Readable ∧ d.reread = d

omit [Interpreter] in
theorem reread_eq_of_map {ms : List (Text × Json)} (h : ∀ m ∈ ms, m.2.reread = m.2) :
    (ms.map fun m => (m.1, m.2.reread)) = ms := by
  refine (List.map_congr_left fun m hm => ?_).trans (List.map_id ms)
  rw [h m hm]
  rfl

theorem readableMembers_iff {ms : List (Text × Json)} :
    ReadableMembers ms ↔ ∀ m ∈ ms, m.2.Readable := by
  induction ms with
  | nil => simp [ReadableMembers]
  | cons m ms ih => rw [ReadableMembers, ih, List.forall_mem_cons]

theorem readableElems_iff {xs : List Json} : ReadableElems xs ↔ ∀ x ∈ xs, x.Readable := by
  induction xs with
  | nil => simp [ReadableElems]
  | cons x xs ih => rw [ReadableElems, ih, List.forall_mem_cons]

omit [Interpreter] in
theorem rereadElems_eq_map (xs : List Json) : rereadElems xs = xs.map Json.reread := by
  induction xs with
  | nil => rw [rereadElems, List.map_nil]
  | cons x xs ih => rw [rereadElems, ih, List.map_cons]

theorem kept_str {t : Text} (h : NoSurrogatePair t) : Kept (.str t) := by
  constructor
  · simp [Json.Readable]
  · rw [Json.reread, joinSurrogates_of_noSurrogatePair h]

theorem kept_ascii {t : Text} (h : AsciiText t) : Kept (.str t) := by
  constructor
  · simp [Json.Readable]
  · rw [Json.reread, joinSurrogates_ascii h]

theorem kept_int (i : ℤ) : Kept (.int i) := ⟨by simp [Json.Readable], by simp [Json.reread]⟩

theorem kept_bool (b : Bool) : Kept (.bool b) := ⟨by simp [Json.Readable], by simp [Json.reread]⟩

theorem kept_float {x : PyFloat} (h : ∀ q, x = .finite q → FloatReads q) : Kept (.float x) := by
  constructor
  · cases x with
    | finite q =>
      rw [Json.Readable]
      exact h q rfl
    | nan => simp [Json.Readable]
    | inf negative => simp [Json.Readable]
  · simp [Json.reread]

theorem kept_arr {xs : List Json} (h : ∀ x ∈ xs, Kept x) : Kept (.arr xs) := by
  constructor
  · rw [Json.Readable, readableElems_iff]
    exact fun x hx => (h x hx).1
  · rw [Json.reread, rereadElems_eq_map]
    exact congrArg Json.arr ((List.map_congr_left fun x hx => (h x hx).2).trans (List.map_id xs))

/-- An object is read as it was written if its members are, and its names are distinct
and hold no surrogate pairs. -/
theorem kept_obj {ms : List (Text × Json)} (hn : (ms.map Prod.fst).Nodup)
    (h : ∀ m ∈ ms, joinSurrogates m.1 = m.1 ∧ Kept m.2) : Kept (.obj ms) := by
  constructor
  · rw [Json.Readable, readableMembers_iff]
    exact fun m hm => (h m hm).2.1
  · rw [reread_obj (fun m hm => (h m hm).1) hn, reread_eq_of_map fun m hm => (h m hm).2.2]

/-- A message whose document is read as it was written. -/
theorem loads_of_kept {ms : List (Text × Json)} (h : Kept (.obj ms)) :
    loads (encodeDocument ms) = .ok (.obj ms) := by
  rw [encodeDocument, loads_dumps h.1, h.2]

theorem kept_packetToDict {p : PacketMeta} (hp : p.Transmissible) :
    Kept (.obj (packetToDict p)) := by
  have hn : ((packetToDict p).map Prod.fst).Nodup := by
    change [text "direction", text "length", text "inter_arrival_ms", text "tcp_flags"].Nodup
    decide
  refine kept_obj hn ?_
  simp only [packetToDict, List.forall_mem_cons, List.not_mem_nil]
  exact ⟨⟨by decide, kept_ascii (Direction.asciiText_value p.direction)⟩,
    ⟨by decide, kept_int p.length⟩, ⟨by decide, kept_float hp.2⟩,
    ⟨by decide, kept_str hp.1⟩, nofun⟩

/-- The members of the document of a flow. -/
theorem kept_flowToDict {f : Flow} (hf : f.Transmissible) :
    ∀ m ∈ flowToDict f, joinSurrogates m.1 = m.1 ∧ Kept m.2 := by
  have hpackets : Kept (.arr (f.packets.map fun p => .obj (packetToDict p))) := by
    refine kept_arr fun x hx => ?_
    obtain ⟨p, hp, rfl⟩ := List.mem_map.mp hx
    exact kept_packetToDict (hf.2 p hp)
  simp only [flowToDict, List.forall_mem_cons, List.not_mem_nil]
  exact ⟨⟨by decide, kept_str hf.1⟩, ⟨by decide, kept_int f.port⟩,
    ⟨by decide, kept_ascii (Direction.asciiText_value f.direction)⟩,
    ⟨by decide, kept_ascii (plainText_b64encode f.payload).ascii⟩, ⟨by decide, hpackets⟩, nofun⟩

/-- A packet is rebuilt from its document. -/
theorem packetFromDict_packetToDict (p : PacketMeta) :
    packetFromDict (.obj (packetToDict p)) = .ok p := by
  simp [packetFromDict, packetToDict, Json.item_cons, Direction.ofValue_value]

/-- A flow is rebuilt from its document, whatever else the document holds. -/
theorem flowFromDict_flowToDict (f : Flow) (ms : List (Text × Json)) :
    flowFromDict (.obj (flowToDict f ++ ms)) = .ok f := by
  have hpackets : (f.packets.map fun p => Json.obj (packetToDict p)).mapM packetFromDict =
      .ok f.packets := by
    rw [mapM_eq_ok_iff, List.forall₂_map_left_iff, List.forall₂_same]
    exact fun p _ => packetFromDict_packetToDict p
  simp [flowFromDict, flowToDict, Json.item_cons, Direction.ofValue_value, payloadFromValue,
    b64decode_b64encode, hpackets, Flow.new_fields]

/-- **A flow arrives as it was sent**, if its document does. -/
theorem decodeFlow_of_loads {f : Flow}
    (hf : loads (encodeDocument (flowToDict f)) = .ok (.obj (flowToDict f))) :
    decodeFlow (encodeFlow f) = .ok f := by
  have h := flowFromDict_flowToDict f []
  rw [List.append_nil] at h
  rw [decodeFlow, encodeFlow, hf]
  exact h

/-- The document of a flow that its document determines. -/
theorem loads_flowToDict {f : Flow} (hf : f.Transmissible) :
    loads (encodeDocument (flowToDict f)) = .ok (.obj (flowToDict f)) := by
  have hn : ((flowToDict f).map Prod.fst).Nodup := by
    change [text "protocol", text "port", text "direction", text "payload_b64",
      text "packets"].Nodup
    decide
  exact loads_of_kept (kept_obj hn (kept_flowToDict hf))

/-- **A flow arrives as it was sent.** -/
theorem decodeFlow_encodeFlow {f : Flow} (hf : f.Transmissible) :
    decodeFlow (encodeFlow f) = .ok f :=
  decodeFlow_of_loads (loads_flowToDict hf)

/-- **A labelled flow arrives as it was sent.** -/
theorem decodeLabeledFlow_encodeLabeledFlow {f : Flow} (hf : f.Transmissible) (isAttack : Bool) :
    decodeLabeledFlow (encodeLabeledFlow f isAttack) = .ok (f, isAttack) := by
  have hn : ((labeledFlowToDict f isAttack).map Prod.fst).Nodup := by
    change [text "protocol", text "port", text "direction", text "payload_b64", text "packets",
      text "is_attack"].Nodup
    decide
  have hkept : Kept (.obj (labeledFlowToDict f isAttack)) := by
    refine kept_obj hn fun m hm => ?_
    -- the members of the flow, and the label behind them
    rcases List.mem_append.mp hm with hm | hm
    · exact kept_flowToDict hf m hm
    · obtain rfl := List.mem_singleton.mp hm
      exact ⟨joinSurrogates_ascii (by decide : AsciiText (text "is_attack")), kept_bool isAttack⟩
  have hlabel : (Json.obj (labeledFlowToDict f isAttack)).item "is_attack" =
      .ok (.bool isAttack) := by
    simp [labeledFlowToDict, flowToDict, Json.item_cons]
  rw [decodeLabeledFlow, encodeLabeledFlow, loads_of_kept hkept, ok_bind, hlabel,
    labeledFlowToDict, flowFromDict_flowToDict]
  rfl

/-! ### Requests that arrive as they were sent -/

/-- A request that its document determines. -/
def HttpRequest.Transmissible (r : HttpRequest) : Prop :=
  NoSurrogatePair r.method ∧ NoSurrogatePair r.path ∧ NoSurrogatePair r.query ∧
    NoSurrogatePair r.body ∧ NoSurrogatePair r.clientIp ∧
    ∀ h ∈ r.headers.entries, NoSurrogatePair h.1 ∧ Kept h.2

/-- **A request arrives as it was sent**, with its headers in their order. -/
theorem decodeRequest_encodeRequest {r : HttpRequest} (hr : r.Transmissible) :
    decodeRequest (encodeRequest r) = .ok r := by
  obtain ⟨hmethod, hpath, hquery, hbody, hclient, hheaders⟩ := hr
  have hn : ((requestToDict r).map Prod.fst).Nodup := by
    change [text "method", text "path", text "query", text "headers", text "body",
      text "client_ip"].Nodup
    decide
  have hobj : Kept (.obj r.headers.entries) := kept_obj r.headers.nodup fun h hh =>
    ⟨joinSurrogates_of_noSurrogatePair (hheaders h hh).1, (hheaders h hh).2⟩
  have hkept : Kept (.obj (requestToDict r)) := by
    refine kept_obj hn ?_
    simp only [requestToDict, List.forall_mem_cons, List.not_mem_nil]
    exact ⟨⟨by decide, kept_str hmethod⟩, ⟨by decide, kept_str hpath⟩, ⟨by decide, kept_str hquery⟩,
      ⟨by decide, hobj⟩, ⟨by decide, kept_str hbody⟩, ⟨by decide, kept_str hclient⟩, nofun⟩
  have hitems : headerItems (r.headers.entries.map fun m => (.str m.1, m.2)) =
      .ok r.headers.entries := by
    rw [headerItems, mapM_eq_ok_iff, List.forall₂_map_left_iff, List.forall₂_same]
    exact fun _ _ => rfl
  rw [decodeRequest, encodeRequest, loads_of_kept hkept]
  simp [requestToDict, Json.item_cons, Json.toItems, hitems, HttpRequest.new_fields]

/-! ### Nothing is lost -/

/-- **The codecs are lossless** on values whose texts hold no surrogate pairs: a flow, a
labelled flow and a request are read back as they were written. A request has its headers
in their order, so it becomes the same flow and has the same inspectable payload. -/
theorem codecs_lossless :
    (∀ f : Flow, f.Transmissible → decodeFlow (encodeFlow f) = .ok f) ∧
      (∀ (f : Flow) (isAttack : Bool), f.Transmissible →
        decodeLabeledFlow (encodeLabeledFlow f isAttack) = .ok (f, isAttack)) ∧
      ∀ r : HttpRequest, r.Transmissible → ∃ r', decodeRequest (encodeRequest r) = .ok r' ∧
        r' = r ∧ r'.headers.entries = r.headers.entries ∧
        httpRequestToFlow r' = httpRequestToFlow r ∧
        r'.inspectablePayload = r.inspectablePayload := by
  refine ⟨fun f hf => decodeFlow_encodeFlow hf, fun f b hf => ?_, fun r hr => ?_⟩
  · exact decodeLabeledFlow_encodeLabeledFlow hf b
  · exact ⟨r, decodeRequest_encodeRequest hr, rfl, rfl, rfl, rfl⟩

omit [Interpreter] in
/-- A request built from headers that differ in letter case only. -/
theorem codecs_lossless_colliding :
    let _ : Interpreter := .ascii
    let r := HttpRequest.new (text "post") (text "/login") []
      (.ofList [(text "Host", .str (text "a")), (text "X-A", .str (text "b")),
        (text "HOST", .str (text "c"))])
    r.headers.entries = [(text "host", .str (text "c")), (text "x-a", .str (text "b"))] ∧
      ∃ r', decodeRequest (encodeRequest r) = .ok r' ∧ r' = r := by
  intro _ r
  have hentries : r.headers.entries =
      [(text "host", .str (text "c")), (text "x-a", .str (text "b"))] := rfl
  have hr : r.Transmissible := by
    refine ⟨noSurrogatePair_of_ascii (by decide), noSurrogatePair_of_ascii (by decide),
      List.IsChain.nil, List.IsChain.nil, List.IsChain.nil, ?_⟩
    rw [hentries]
    simp only [List.forall_mem_cons, List.not_mem_nil]
    exact ⟨⟨noSurrogatePair_of_ascii (by decide), kept_ascii (by decide)⟩,
      ⟨noSurrogatePair_of_ascii (by decide), kept_ascii (by decide)⟩, nofun⟩
  obtain ⟨r', hdecode, heq, -⟩ := codecs_lossless.2.2 r hr
  exact ⟨hentries, r', hdecode, heq⟩

end Waf
