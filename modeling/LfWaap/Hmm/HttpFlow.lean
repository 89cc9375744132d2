import LfWaap.Domain.Flow
import LfWaap.Domain.HttpRequest
import LfWaap.Python.Builtins
import LfWaap.Python.Loops

/-!
# Requests as flows

`waf.infrastructure.hmm.http_flow`: a request is written the way it would appear on
the wire, so that a model of bytes sees a realistic payload, and its port is read from
the host header.

Neither step is total. The payload is encoded with `surrogateescape`, which writes a
surrogate only if it stands for an octet; and the port is looked for in a header value
that nothing has checked to be a text. `Waf.httpRequestToFlow_isOk_iff` states the
requests that become flows.
-/

namespace Waf

open Python

variable [Interpreter]

/-! ### The port -/

/-- The port where no other is named. -/
def defaultHttpPort : ℤ := 80

/-- The port a host names after its last colon. -/
def portFromHost (host : Text) : ℤ :=
  match afterLast (cp ':') host with
  | some port => (parseInt port).getD defaultHttpPort
  | none => defaultHttpPort

/-- The port a host header names. A value that is not a text has no `rsplit`, which
is asked for once a colon is found in it. -/
def portOfHost : Json → Except PyError ℤ
  | .str host => .ok (portFromHost host)
  | host => do
    if ← host.contains (cp ':') then
      .error (.attributeError ("'" ++ host.typeName ++ "' object has no attribute 'rsplit'"))
    else .ok defaultHttpPort

/-- The port of a request. -/
def portOf (request : HttpRequest) : Except PyError ℤ :=
  portOfHost (request.headers.getD (text "host") (.str []))

/-- A host header is a text, or a collection in which no colon is found. -/
def HostValue (host : Json) : Prop := (∃ s, host = .str s) ∨ host.contains (cp ':') = .ok false

theorem portOfHost_isOk_iff {host : Json} : (∃ p, portOfHost host = .ok p) ↔ HostValue host := by
  -- what is done with the answer to `":" in host`
  have hcolon : ∀ (found : Except PyError Bool) (e : PyError),
      (∃ p : ℤ, (found >>= fun b => if b = true then .error e else .ok defaultHttpPort) = .ok p) ↔
        found = .ok false := by
    intro found e
    rcases found with e' | _ | _
    · exact ⟨fun ⟨_, h⟩ => absurd h nofun, fun h => absurd h nofun⟩
    · exact ⟨fun _ => rfl, fun _ => ⟨_, rfl⟩⟩
    · exact ⟨fun ⟨_, h⟩ => absurd h nofun, fun h => absurd h nofun⟩
  have hother : ∀ d : Json, (∀ s, d ≠ .str s) →
      (HostValue d ↔ d.contains (cp ':') = .ok false) := by
    intro d hd
    exact ⟨fun h => h.resolve_left fun ⟨s, hs⟩ => hd s hs, Or.inr⟩
  cases host with
  | str s => exact ⟨fun _ => Or.inl ⟨s, rfl⟩, fun _ => ⟨_, rfl⟩⟩
  | null => exact (hcolon _ _).trans (hother .null nofun).symm
  | bool b => exact (hcolon _ _).trans (hother (.bool b) nofun).symm
  | int i => exact (hcolon _ _).trans (hother (.int i) nofun).symm
  | float x => exact (hcolon _ _).trans (hother (.float x) nofun).symm
  | arr xs => exact (hcolon _ _).trans (hother (.arr xs) nofun).symm
  | obj ms => exact (hcolon _ _).trans (hother (.obj ms) nofun).symm

/-- The port of a request can be read off its host header, if it has one. -/
def HttpRequest.HostReadable (r : HttpRequest) : Prop :=
  ∀ host, r.headers.get? (text "host") = some host → HostValue host

theorem portOf_isOk_iff {r : HttpRequest} : (∃ p, portOf r = .ok p) ↔ r.HostReadable := by
  rw [portOf, portOfHost_isOk_iff, HttpRequest.HostReadable, Dict.getD]
  cases r.headers.get? (text "host") with
  | none =>
    refine iff_of_true (Or.inl ⟨[], rfl⟩) ?_
    rintro host ⟨⟩
  | some host =>
    constructor
    · intro h d hd
      obtain rfl := Option.some.inj hd
      exact h
    · intro h
      exact h host rfl

example : let _ : Interpreter := .ascii; portFromHost (text "localhost:8080") = 8080 := by decide

/-! ### The payload -/

/-- The request target: the path, and the query if there is one. -/
def requestTarget (request : HttpRequest) : Text :=
  if request.query = [] then request.path else request.path ++ text "?" ++ request.query

/-- A header line. -/
def headerLine (header : Text × Json) : Text :=
  header.1 ++ text ": " ++ pyStr header.2 ++ text "\r\n"

/-- The request as it would appear on the wire. -/
def requestText (request : HttpRequest) : Text :=
  request.method ++ text " " ++ requestTarget request ++ text " HTTP/1.1\r\n" ++
    request.headers.entries.flatMap headerLine ++ text "\r\n" ++ request.body

/-- The texts of a request hold no surrogates but those that stand for an octet. -/
def HttpRequest.Encodable (r : HttpRequest) : Prop :=
  EncodableText r.method ∧ EncodableText r.path ∧ EncodableText r.query ∧ EncodableText r.body ∧
    ∀ h ∈ r.headers.entries, EncodableText h.1 ∧ ∀ s, h.2 = .str s → EncodableText s

theorem encodableText_headerLine {h : Text × Json} :
    EncodableText (headerLine h) ↔ EncodableText h.1 ∧ ∀ s, h.2 = .str s → EncodableText s := by
  rw [headerLine, encodableText_append, encodableText_append, encodableText_append,
    encodable_pyStr_iff]
  have hcolon : EncodableText (text ": ") := by decide
  have hline : EncodableText (text "\r\n") := by decide
  tauto

theorem encodableText_requestTarget {r : HttpRequest} :
    EncodableText (requestTarget r) ↔ EncodableText r.path ∧ EncodableText r.query := by
  unfold requestTarget
  split
  · next h => simp [h, EncodableText]
  · rw [encodableText_append, encodableText_append]
    have hmark : EncodableText (text "?") := by decide
    tauto

theorem encodableText_requestText {r : HttpRequest} :
    EncodableText (requestText r) ↔ r.Encodable := by
  have hheaders : EncodableText (r.headers.entries.flatMap headerLine) ↔
      ∀ h ∈ r.headers.entries, EncodableText h.1 ∧ ∀ s, h.2 = .str s → EncodableText s := by
    constructor
    · intro henc h hh
      refine encodableText_headerLine.mp fun c hc => henc c ?_
      exact List.mem_flatMap.mpr ⟨h, hh, hc⟩
    · intro henc c hc
      obtain ⟨h, hh, hc⟩ := List.mem_flatMap.mp hc
      exact encodableText_headerLine.mpr (henc h hh) c hc
  have hspace : EncodableText (text " ") := by decide
  have hversion : EncodableText (text " HTTP/1.1\r\n") := by decide
  have hline : EncodableText (text "\r\n") := by decide
  simp only [requestText, encodableText_append, encodableText_requestTarget, hheaders]
  rw [HttpRequest.Encodable]
  tauto

/-! ### The flow -/

/-- **The flow of a request.** -/
def httpRequestToFlow (request : HttpRequest) : Except PyError Flow := do
  let port ← portOf request
  let payload ← encodeUtf8SurrogateEscape (requestText request)
  return Flow.new (text "http") port .inbound payload

/-- What a request must be for its flow: the port can be read, the texts can be
encoded. -/
def HttpRequest.Serialisable (r : HttpRequest) : Prop := r.HostReadable ∧ r.Encodable

/-- The two parts of the flow of a request. -/
theorem httpRequestToFlow_eq_ok {r : HttpRequest} {f : Flow} (h : httpRequestToFlow r = .ok f) :
    ∃ port payload, portOf r = .ok port ∧
      encodeUtf8SurrogateEscape (requestText r) = .ok payload ∧
      f = Flow.new (text "http") port .inbound payload := by
  obtain ⟨port, hport, h⟩ := exists_of_bind_eq_ok h
  obtain ⟨payload, hpayload, h⟩ := exists_of_bind_eq_ok h
  exact ⟨port, payload, hport, hpayload, (Except.ok.inj h).symm⟩

/-- **The requests that become flows.** -/
theorem httpRequestToFlow_isOk_iff {r : HttpRequest} :
    (∃ f, httpRequestToFlow r = .ok f) ↔ r.Serialisable := by
  rw [HttpRequest.Serialisable, ← portOf_isOk_iff, ← encodableText_requestText,
    ← encodeUtf8SurrogateEscape_isOk_iff]
  constructor
  · rintro ⟨f, hf⟩
    obtain ⟨port, payload, hport, hpayload, -⟩ := httpRequestToFlow_eq_ok hf
    exact ⟨⟨port, hport⟩, ⟨payload, hpayload⟩⟩
  · rintro ⟨⟨port, hport⟩, ⟨payload, hpayload⟩⟩
    refine ⟨Flow.new (text "http") port .inbound payload, ?_⟩
    rw [httpRequestToFlow, hport, hpayload]
    rfl

/-- The flow of a request has no packets. -/
theorem packets_of_httpRequestToFlow {r : HttpRequest} {f : Flow}
    (h : httpRequestToFlow r = .ok f) : f.packets = [] := by
  obtain ⟨port, payload, -, -, rfl⟩ := httpRequestToFlow_eq_ok h
  rfl

end Waf
