import LfWaap.Python.Text

/-!
# Flows

The unit an anomaly model observes (`waf.domain.model.flow`): raw bytes, and the
metadata that select the model for them. The protocol is normalised when a flow is
built, which is a field of `Waf.Flow`; `Waf.Flow.new` is the constructor of the
source, `Waf.Flow.new_fields` says that building a flow from the fields of a flow
gives the same flow.
-/

namespace Waf

open Python

/-- Traffic direction relative to the protected service. -/
inductive Direction where
  /-- Client to server. -/
  | inbound
  /-- Server to client. -/
  | outbound
  deriving DecidableEq, Repr

/-- The value of the enumeration member. -/
def Direction.value : Direction → Text
  | .inbound => text "INBOUND"
  | .outbound => text "OUTBOUND"

/-- `Direction(value)`. -/
def Direction.ofValue (t : Text) : Except PyError Direction :=
  if t = text "INBOUND" then .ok .inbound
  else if t = text "OUTBOUND" then .ok .outbound
  else .error (.valueError "not a valid Direction")

/-- A member is found under its value. -/
theorem Direction.ofValue_value (d : Direction) : Direction.ofValue d.value = .ok d := by
  cases d
  · exact if_pos rfl
  · exact (if_neg (by decide)).trans (if_pos rfl)

theorem Direction.asciiText_value (d : Direction) : AsciiText d.value := by
  cases d <;> decide

/-- Metadata of one packet of an opaque flow. -/
structure PacketMeta where
  direction : Direction
  length : ℤ
  interArrivalMs : PyFloat := .finite 0
  tcpFlags : Text := []
  deriving DecidableEq

section

variable [Interpreter]

/-- **A flow.** Its protocol is in lower case. -/
structure Flow where
  protocol : Text
  port : ℤ
  direction : Direction
  payload : Bytes
  packets : List PacketMeta
  /-- The constructor normalises the protocol. -/
  protocol_lower : lower protocol = protocol

/-- The constructor of the source. -/
def Flow.new (protocol : Text) (port : ℤ) (direction : Direction) (payload : Bytes := [])
    (packets : List PacketMeta := []) : Flow where
  protocol := lower protocol
  port := port
  direction := direction
  payload := payload
  packets := packets
  protocol_lower := Interpreter.lower_lower protocol

@[ext] theorem Flow.ext {f g : Flow} (h₁ : f.protocol = g.protocol) (h₂ : f.port = g.port)
    (h₃ : f.direction = g.direction) (h₄ : f.payload = g.payload) (h₅ : f.packets = g.packets) :
    f = g := by
  cases f
  cases g
  simp_all

/-- A flow is rebuilt from its fields. -/
theorem Flow.new_fields (f : Flow) :
    Flow.new f.protocol f.port f.direction f.payload f.packets = f :=
  Flow.ext f.protocol_lower rfl rfl rfl rfl

/-- Bytes used for length bucketing: the payload size, or the summed packet
sizes. -/
def Flow.length (f : Flow) : ℤ :=
  if f.payload = [] then (f.packets.map PacketMeta.length).sum else f.payload.length

end

end Waf
