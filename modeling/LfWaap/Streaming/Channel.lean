import LfWaap.Python.Dict
import LfWaap.Python.Loops

/-!
# Message channels

The port every streaming component talks to (`waf.infrastructure.streaming.channel`),
and the channel without a broker (`waf.infrastructure.streaming.memory`), which keeps
the messages of each topic in a list.

What is published is appended to its topic and to no other
(`Waf.InMemoryChannel.poll_publishAll`). Reading takes nothing away, neither `poll` nor
`stream`; and `stream` copies the topic before it yields its first message, so that what
a consumer publishes while it reads is not read in the same pass.
-/

namespace Waf

open Python

/-- **The channel in memory**: the messages of each topic, in publication order. -/
structure InMemoryChannel where
  topics : Dict Text (List Bytes) := .empty

namespace InMemoryChannel

/-- Append a message to a topic. -/
def publish (channel : InMemoryChannel) (topic : Text) (message : Bytes) : InMemoryChannel where
  topics := channel.topics.appendAt topic message

/-- The messages of a topic. -/
def poll (channel : InMemoryChannel) (topic : Text) : List Bytes := channel.topics.getD topic []

/-- The messages of a topic, one after the other: those it holds when the first one is
asked for. -/
def stream (channel : InMemoryChannel) (topic : Text) : Generator Bytes where
  yields := channel.poll topic

/-- Publish messages one after the other. -/
def publishAll (channel : InMemoryChannel) (topic : Text) (messages : List Bytes) :
    InMemoryChannel :=
  messages.foldl (fun channel message => channel.publish topic message) channel

theorem poll_publish (channel : InMemoryChannel) (topic topic' : Text) (message : Bytes) :
    (channel.publish topic message).poll topic' =
      if topic = topic' then channel.poll topic' ++ [message] else channel.poll topic' :=
  Dict.getD_appendAt channel.topics topic topic' message

/-- **What is published** is appended to its topic, and to no other. -/
theorem poll_publishAll (channel : InMemoryChannel) (topic topic' : Text) (messages : List Bytes) :
    (channel.publishAll topic messages).poll topic' =
      if topic = topic' then channel.poll topic' ++ messages else channel.poll topic' := by
  induction messages generalizing channel with
  | nil => simp [publishAll]
  | cons message messages ih =>
    change ((channel.publish topic message).publishAll topic messages).poll topic' = _
    rw [ih, poll_publish]
    split
    · rw [List.append_assoc, List.singleton_append]
    · rfl

end InMemoryChannel

end Waf
