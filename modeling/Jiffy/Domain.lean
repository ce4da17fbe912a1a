-- SUMMARY: The domain: messages, conversations and their participants.
import Jiffy.Lib.JavaScript

/-!
# Domain

The records of `src/domain`. Instants read off the clock are whole
milliseconds; a `Date` that a caller hands in may be invalid.
-/

namespace Jiffy

open Js

structure Message where
  id : String
  conversationId : String
  senderId : String
  body : String
  createdAt : Int
  /-- When the sender deleted this message for everyone. -/
  deletedAt : Option Int
deriving DecidableEq, Repr

/-- The same message, up to its body and its deletion. -/
def Message.SameIdentity (m m' : Message) : Prop :=
  m' = { m with body := m'.body, deletedAt := m'.deletedAt }

namespace Message.SameIdentity

variable {m₁ m₂ m₃ : Message}

theorem symm (h : m₁.SameIdentity m₂) : m₂.SameIdentity m₁ := by
  rw [SameIdentity, h]

theorem trans (h : m₁.SameIdentity m₂) (h' : m₂.SameIdentity m₃) : m₁.SameIdentity m₃ := by
  rw [SameIdentity, h', h]

theorem id (h : m₁.SameIdentity m₂) : m₂.id = m₁.id := (congrArg Message.id h).trans rfl

theorem conversationId (h : m₁.SameIdentity m₂) : m₂.conversationId = m₁.conversationId :=
  (congrArg Message.conversationId h).trans rfl

theorem senderId (h : m₁.SameIdentity m₂) : m₂.senderId = m₁.senderId :=
  (congrArg Message.senderId h).trans rfl

end Message.SameIdentity

structure ConversationParticipant where
  userId : String
  lastReadAt : Option Date
  /-- When this participant deleted the conversation for themselves. -/
  clearedAt : Option Int
deriving DecidableEq, Repr

structure Conversation where
  id : String
  participants : List ConversationParticipant
  createdAt : Int
  /-- `lastMessage?: Message | null`: absent, `null`, or a message. -/
  lastMessage : Option (Option Message)
deriving DecidableEq, Repr

def participantOf (conversation : Conversation) (userId : String) :
    Option ConversationParticipant :=
  conversation.participants.find? fun p => p.userId = userId

def isParticipant (conversation : Conversation) (userId : String) : Bool :=
  conversation.participants.any fun p => p.userId = userId

/-- `participantOf(conversation, userId)?.clearedAt ?? null`. -/
def clearedAtOf (conversation : Conversation) (userId : String) : Option Int :=
  (participantOf conversation userId).bind fun p => p.clearedAt

/-- `message.createdAt.getTime() > lastReadAt.getTime()`. -/
def isUnread (message : Message) (lastReadAt : Option Date) : Bool :=
  match lastReadAt with
  | none => true
  | some lastReadAt => lastReadAt.before (Date.of message.createdAt)

/-- The user ids of a conversation, in order. -/
def Conversation.userIds (conversation : Conversation) : List String :=
  conversation.participants.map fun p => p.userId

theorem isParticipant_iff {conversation : Conversation} {userId : String} :
    isParticipant conversation userId = true ↔ userId ∈ conversation.userIds := by
  simp [isParticipant, Conversation.userIds]

theorem participantOf_isSome {conversation : Conversation} {userId : String}
    (h : isParticipant conversation userId = true) :
    (participantOf conversation userId).isSome := by
  simpa [participantOf, List.find?_isSome, isParticipant] using h

end Jiffy
