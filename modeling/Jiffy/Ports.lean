-- SUMMARY: The ports the core is written against, as one interface of requests.
import Jiffy.Lib.Proc
import Jiffy.Domain
import Jiffy.Core.Errors

/-!
# Ports

Everything `MessagingService` asks of the outside: the two stores, the gate,
the message bus, the notifier and the clock.
-/

namespace Jiffy

open Js Async

structure NewMessage where
  conversationId : String
  senderId : String
  body : String
deriving DecidableEq, Repr

structure ListMessagesOptions where
  limit : Option Number := none
  before : Option Date := none
  after : Option Date := none
deriving DecidableEq

/-- One element of the `Promise.all` in `listConversations`: the query it
awaits and what its closure holds on to. -/
structure PreviewQuery where
  conversation : Conversation
  clearedAt : Option Int
  options : ListMessagesOptions
deriving DecidableEq

inductive PortCall where
  /-- `gate.canCreateConversation` -/
  | canCreateConversation (requesterId : String) (participantIds : List String)
  /-- `conversations.create` -/
  | createConversation (participantIds : List String)
  /-- `conversations.findById` -/
  | findConversation (id : String)
  /-- `conversations.findByParticipant` -/
  | findByParticipant (userId : String)
  /-- `conversations.markRead` -/
  | markRead (conversationId userId : String) (at_ : Date)
  /-- `conversations.clear` -/
  | clear (conversationId userId : String) (at_ : Int)
  /-- `messages.create` -/
  | createMessage (input : NewMessage)
  /-- `messages.findById` -/
  | findMessage (id : String)
  /-- `messages.listByConversation` -/
  | listByConversation (conversationId : String) (options : ListMessagesOptions)
  /-- `Promise.all` over `messages.listByConversation`, one call for each query -/
  | listPreviews (queries : List PreviewQuery)
  /-- `messages.softDelete` -/
  | softDelete (id : String) (at_ : Int)
  /-- a promise that already holds a conversation -/
  | settled (conversation : Conversation)
  /-- `new Date()` -/
  | newDate
  /-- `messageBus.publish` -/
  | publish (message : Message)
  /-- `notifier.notify` -/
  | notify (message : Message) (recipientIds : List String)

@[reducible] def PortCall.Resp : PortCall → Type
  | .canCreateConversation _ _ => Bool
  | .createConversation _ => Conversation
  | .findConversation _ => Option Conversation
  | .findByParticipant _ => List Conversation
  | .markRead _ _ _ => Unit
  | .clear _ _ _ => Unit
  | .createMessage _ => Message
  | .findMessage _ => Option Message
  | .listByConversation _ _ => List Message
  | .listPreviews _ => List (PreviewQuery × List Message)
  | .softDelete _ _ => Message
  | .settled _ => Conversation
  | .newDate => Int
  | .publish _ => Unit
  | .notify _ _ => Unit

/-- The interface of the core. -/
abbrev ports : Interface := ⟨PortCall, PortCall.Resp⟩

/-- A method of the core. -/
abbrev Service (α : Type) : Type := Proc ports Failure α

/-- `await` of a port call. -/
abbrev request (call : PortCall) : Service call.Resp := @Proc.request ports Failure call

/-- A port call whose answer the same turn uses or drops. -/
abbrev perform (call : PortCall) : Service call.Resp := @Proc.perform ports Failure call

end Jiffy
