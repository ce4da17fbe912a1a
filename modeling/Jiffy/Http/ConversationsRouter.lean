-- SUMMARY: The eight REST routes over the service, and the error handler behind them.
import Jiffy.Core.MessagingService
import Jiffy.Lib.Json

/-!
# The conversations router

`src/http/conversations-router.ts` and `src/http/error-handler.ts`. A request
arrives authenticated and routed: what is left of it is the caller's id and what
the handler of its route reads.
-/

namespace Jiffy

open Js Async

-- ---------------------------------------------------------------------------
-- Requests
-- ---------------------------------------------------------------------------

/-- `req.body?.name`, of the body as `express.json()` leaves it. Only objects have
the fields the routes read. -/
def bodyField (body : Option Json) (name : String) : Option Json :=
  match body with
  | some (.object fields) => (fields.find? fun field => field.1 = name).map Prod.snd
  | _ => none

/-- The string, unless `typeof value !== 'string'`. -/
def Json.asString : Json → Option String
  | .string s => some s
  | _ => none

/-- A query parameter: a string, or an array of strings when it is repeated. -/
inductive QueryValue where
  | one (text : String)
  | many (texts : List String)
deriving DecidableEq, Repr

/-- `String(value)`. -/
def QueryValue.text : QueryValue → String
  | .one text => text
  | .many texts => String.intercalate "," texts

/-- A route with what its handler reads of the request. -/
inductive Route where
  /-- `POST /conversations` -/
  | createConversation (body : Option Json)
  /-- `GET /conversations` -/
  | listConversations
  /-- `GET /conversations/:id` -/
  | getConversation (id : String)
  /-- `POST /conversations/:id/messages` -/
  | sendMessage (id : String) (body : Option Json)
  /-- `GET /conversations/:id/messages` -/
  | listMessages (id : String) (limit before : Option QueryValue)
  /-- `POST /conversations/:id/read` -/
  | markRead (id : String)
  /-- `DELETE /conversations/:id/messages/:messageId` -/
  | deleteMessage (id messageId : String)
  /-- `DELETE /conversations/:id` -/
  | deleteConversation (id : String)

/-- A request past the auth middleware, which set `res.locals.userId`. -/
structure Request where
  userId : String
  route : Route

-- ---------------------------------------------------------------------------
-- Responses
-- ---------------------------------------------------------------------------

structure ParticipantResponse where
  userId : String
  lastReadAt : Option Date
deriving DecidableEq, Repr

structure ConversationResponse where
  id : String
  participants : List ParticipantResponse
  createdAt : Int
  lastMessage : Option (Option Message)
deriving DecidableEq, Repr

/-- Strips `clearedAt` from every participant. -/
def toConversationResponse (conversation : Conversation) : ConversationResponse where
  id := conversation.id
  participants := conversation.participants.map fun p => ⟨p.userId, p.lastReadAt⟩
  createdAt := conversation.createdAt
  lastMessage := conversation.lastMessage

/-- What a response carries; `res.json` stringifies all but the empty one. -/
inductive ResponseBody where
  | error (message : String)
  | conversation (conversation : ConversationResponse)
  | conversations (conversations : List ConversationResponse)
  | message (message : Message)
  | messages (messages : List Message)
  | empty
deriving DecidableEq, Repr

structure Response where
  status : Nat
  body : ResponseBody
deriving DecidableEq, Repr

/-- `res.status(status).json({ error: message })`. -/
def Response.failed (status : Nat) (message : String) : Response := ⟨status, .error message⟩

/-- The last handler of the app: what an error turns into. -/
def errorHandler : Failure → Response
  | .core error =>
    match error with
    | .conversationNotFound _ | .messageNotFound _ => .failed 404 error.message
    | .notMessageAuthor _ _ | .notAParticipant _ _ | .conversationNotAllowed _ _ =>
      .failed 403 error.message
    | .emptyMessage => .failed 400 error.message
  | .port _ => .failed 500 "Internal server error"

-- ---------------------------------------------------------------------------
-- Handlers
-- ---------------------------------------------------------------------------

namespace ConversationsRouter

def maxParticipants : Nat := 50

/-- The array of strings that `participantIds` has to be. -/
def participantIdsOf (body : Option Json) : Option (List String) :=
  match bodyField body "participantIds" with
  | some (.array elements) => elements.mapM Json.asString
  | _ => none

def createConversation (userId : String) (body : Option Json) : Service Response :=
  match participantIdsOf body with
  | none => return .failed 400 "participantIds must be an array of strings"
  | some participantIds =>
    if participantIds.length > maxParticipants then
      return .failed 400 s!"participantIds cannot exceed {maxParticipants} entries"
    else if !participantIds.contains userId then
      return .failed 403 "Cannot create a conversation you are not part of"
    else do
      let conversation ← MessagingService.createConversation userId participantIds
      return ⟨201, .conversation (toConversationResponse conversation)⟩

def listConversations (userId : String) : Service Response := do
  let conversations ← MessagingService.listConversations userId
  return ⟨200, .conversations (conversations.map toConversationResponse)⟩

def getConversation (userId id : String) : Service Response := do
  let conversation ← MessagingService.getConversation id userId
  return ⟨200, .conversation (toConversationResponse conversation)⟩

def sendMessage (userId id : String) (body : Option Json) : Service Response :=
  match (bodyField body "body").bind Json.asString with
  | none => return .failed 400 "body must be a string"
  | some body => do
    let message ← MessagingService.sendMessage ⟨id, userId, body⟩
    return ⟨201, .message message⟩

/-- `Number.isInteger(limit) && limit > 0`. -/
def isPositiveInteger : Number → Bool
  | .finite q => q.den = 1 && 0 < q.num
  | _ => false

def listMessages (reader : TextReader) (userId id : String) (rawLimit rawBefore : Option QueryValue) :
    Service Response :=
  let limit := rawLimit.map fun raw => reader.number raw.text
  let before := rawBefore.map fun raw => reader.date raw.text
  if limit.any (fun n => !isPositiveInteger n) then
    return .failed 400 "limit must be a positive integer"
  else if before.any (fun date => date.time.isNone) then
    return .failed 400 "before must be a valid date"
  else do
    let messages ← MessagingService.listMessages id userId { limit, before }
    return ⟨200, .messages messages⟩

def markRead (userId id : String) : Service Response := do
  let now ← perform .newDate
  MessagingService.markRead id userId (Date.of now)
  return ⟨204, .empty⟩

def deleteMessage (userId id messageId : String) : Service Response := do
  let message ← MessagingService.deleteMessage id messageId userId
  return ⟨200, .message message⟩

def deleteConversation (userId id : String) : Service Response := do
  MessagingService.deleteConversation id userId
  return ⟨204, .empty⟩

/-- The handler of a route, before its `catch`. -/
def dispatch (reader : TextReader) (request : Request) : Service Response :=
  match request.route with
  | .createConversation body => createConversation request.userId body
  | .listConversations => listConversations request.userId
  | .getConversation id => getConversation request.userId id
  | .sendMessage id body => sendMessage request.userId id body
  | .listMessages id limit before => listMessages reader request.userId id limit before
  | .markRead id => markRead request.userId id
  | .deleteMessage id messageId => deleteMessage request.userId id messageId
  | .deleteConversation id => deleteConversation request.userId id

/-- A request from its route to its response: whatever the handler catches goes
to `next(error)`. -/
def handle (reader : TextReader) (request : Request) : Service Response :=
  tryCatch (dispatch reader request) fun error => return errorHandler error

end ConversationsRouter

end Jiffy
