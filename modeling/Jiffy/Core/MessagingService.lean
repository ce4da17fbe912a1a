-- SUMMARY: MessagingService: the eight operations of the core over its ports.
import Jiffy.Ports

/-!
# MessagingService

`src/core/messaging-service.ts`, method by method.
-/

namespace Jiffy

open Js Async

structure SendMessageInput where
  conversationId : String
  senderId : String
  body : String
deriving DecidableEq, Repr

namespace MessagingService

/-- Throws unless the conversation exists and the user is in it. -/
def requireParticipant (conversationId userId : String) : Service Conversation := do
  let found ← request (.findConversation conversationId)
  match found with
  | none => throw (.core (.conversationNotFound conversationId))
  | some conversation =>
    if isParticipant conversation userId then
      return conversation
    else
      throw (.core (.notAParticipant conversationId userId))

/-- `await this.requireParticipant(..)`: the awaited promise carries the
conversation object, which is read again when the caller goes on. -/
def awaitParticipant (conversationId userId : String) : Service Conversation := do
  let conversation ← requireParticipant conversationId userId
  request (.settled conversation)

def createConversation (requesterId : String) (participantIds : List String) :
    Service Conversation := do
  let allowed ← request (.canCreateConversation requesterId participantIds)
  if allowed then
    request (.createConversation participantIds)
  else
    throw (.core (.conversationNotAllowed requesterId participantIds))

def getConversation (conversationId requesterId : String) : Service Conversation :=
  awaitParticipant conversationId requesterId

/-- `{ ...options, ...(clearedAt ? { after: clearedAt } : {}) }`. -/
def withCleared (options : ListMessagesOptions) (clearedAt : Option Int) : ListMessagesOptions :=
  match clearedAt with
  | some at_ => { options with after := some (Date.of at_) }
  | none => options

/-- The query for one conversation's preview. -/
def previewQuery (userId : String) (conversation : Conversation) : PreviewQuery :=
  let clearedAt := clearedAtOf conversation userId
  { conversation, clearedAt, options := withCleared { limit := some (.finite 1) } clearedAt }

/-- The conversations that stay in the list, each with its last message. -/
def withPreviews (previews : List (PreviewQuery × List Message)) : List Conversation :=
  previews.filterMap fun (query, messages) =>
    let lastMessage := messages.head?
    if query.clearedAt = none ∨ lastMessage ≠ none then
      some { query.conversation with lastMessage := some lastMessage }
    else
      none

def listConversations (userId : String) : Service (List Conversation) := do
  let conversations ← request (.findByParticipant userId)
  let previews ← request (.listPreviews (conversations.map (previewQuery userId)))
  return withPreviews previews

def sendMessage (input : SendMessageInput) : Service Message := do
  if trim input.body = "" then
    throw (.core .emptyMessage)
  else
    let conversation ← awaitParticipant input.conversationId input.senderId
    let participantIds := conversation.participants.map fun p => p.userId
    let allowed ← request (.canCreateConversation input.senderId participantIds)
    if allowed then
      let message ← request (.createMessage ⟨conversation.id, input.senderId, input.body⟩)
      perform (.publish message)
      let recipientIds := participantIds.filter fun id => id ≠ input.senderId
      perform (.notify message recipientIds)
      return message
    else
      throw (.core (.conversationNotAllowed input.senderId participantIds))

def listMessages (conversationId requesterId : String) (options : ListMessagesOptions) :
    Service (List Message) := do
  let conversation ← awaitParticipant conversationId requesterId
  let clearedAt := clearedAtOf conversation requesterId
  request (.listByConversation conversationId (withCleared options clearedAt))

def deleteMessage (conversationId messageId requesterId : String) : Service Message := do
  let _ ← awaitParticipant conversationId requesterId
  let found ← request (.findMessage messageId)
  match found with
  | none => throw (.core (.messageNotFound messageId))
  | some message =>
    if message.conversationId ≠ conversationId then
      throw (.core (.messageNotFound messageId))
    else if message.senderId ≠ requesterId then
      throw (.core (.notMessageAuthor messageId requesterId))
    else if message.deletedAt ≠ none then
      return message
    else
      let now ← perform .newDate
      let deleted ← request (.softDelete messageId now)
      perform (.publish deleted)
      return deleted

def deleteConversation (conversationId requesterId : String) : Service Unit := do
  let _ ← awaitParticipant conversationId requesterId
  let now ← perform .newDate
  request (.clear conversationId requesterId now)

def markRead (conversationId userId : String) (at_ : Date) : Service Unit := do
  let _ ← awaitParticipant conversationId userId
  request (.markRead conversationId userId at_)

end MessagingService

/-- A call of one of the service's operations. -/
inductive Op where
  | createConversation (requesterId : String) (participantIds : List String)
  | getConversation (conversationId requesterId : String)
  | listConversations (userId : String)
  | sendMessage (input : SendMessageInput)
  | listMessages (conversationId requesterId : String) (options : ListMessagesOptions)
  | deleteMessage (conversationId messageId requesterId : String)
  | deleteConversation (conversationId requesterId : String)
  | markRead (conversationId userId : String) (at_ : Date)
deriving DecidableEq

/-- What a call resolves with. -/
inductive Reply where
  | conversation (conversation : Conversation)
  | conversations (conversations : List Conversation)
  | message (message : Message)
  | messages (messages : List Message)
  | done
deriving DecidableEq

/-- The method an operation calls. -/
def Op.program : Op → Service Reply
  | .createConversation requesterId participantIds => do
    return .conversation (← MessagingService.createConversation requesterId participantIds)
  | .getConversation conversationId requesterId => do
    return .conversation (← MessagingService.getConversation conversationId requesterId)
  | .listConversations userId => do
    return .conversations (← MessagingService.listConversations userId)
  | .sendMessage input => do
    return .message (← MessagingService.sendMessage input)
  | .listMessages conversationId requesterId options => do
    return .messages (← MessagingService.listMessages conversationId requesterId options)
  | .deleteMessage conversationId messageId requesterId => do
    return .message (← MessagingService.deleteMessage conversationId messageId requesterId)
  | .deleteConversation conversationId requesterId => do
    MessagingService.deleteConversation conversationId requesterId
    return .done
  | .markRead conversationId userId at_ => do
    MessagingService.markRead conversationId userId at_
    return .done

end Jiffy
