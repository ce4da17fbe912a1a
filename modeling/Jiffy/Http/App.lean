-- SUMMARY: A request with its body still in bytes: the JSON parser in front of the router, and what the router and the core call malformed.
import Jiffy.Http.ConversationsRouter

/-!
# The HTTP app

`src/http/app.ts`, for a request that its rate limiters let through and whose
token is verified. `express.json()` stands in front of the router; what it
cannot parse goes to `next(error)`, as any error of a handler does.
-/

namespace Jiffy

open Js Async

-- ---------------------------------------------------------------------------
-- Requests as they arrive
-- ---------------------------------------------------------------------------

/-- A route with its path ids and its query, before the body is parsed. -/
inductive Endpoint where
  | createConversation
  | listConversations
  | getConversation (id : String)
  | sendMessage (id : String)
  | listMessages (id : String) (limit before : Option QueryValue)
  | markRead (id : String)
  | deleteMessage (id messageId : String)
  | deleteConversation (id : String)

def Endpoint.route (body : Option Json) : Endpoint → Route
  | .createConversation => .createConversation body
  | .listConversations => .listConversations
  | .getConversation id => .getConversation id
  | .sendMessage id => .sendMessage id body
  | .listMessages id limit before => .listMessages id limit before
  | .markRead id => .markRead id
  | .deleteMessage id messageId => .deleteMessage id messageId
  | .deleteConversation id => .deleteConversation id

structure RawRequest where
  userId : String
  endpoint : Endpoint
  body : List UInt8

namespace HttpApp

/-- `express.json()`: what it leaves in `req.body`, or the error it passes on. -/
abbrev BodyParser : Type := List UInt8 → Except String (Option Json)

def handle (json : BodyParser) (reader : TextReader) (request : RawRequest) : Service Response :=
  match json request.body with
  | .error e => return errorHandler (.port e)
  | .ok body => ConversationsRouter.handle reader ⟨request.userId, request.endpoint.route body⟩

end HttpApp

-- ---------------------------------------------------------------------------
-- Outcomes
-- ---------------------------------------------------------------------------

/-- The status that an outcome of a handler ends up with. -/
def statusOf : Except Failure Response → Nat
  | .ok response => response.status
  | .error e => (errorHandler e).status

open ConversationsRouter in
/-- Input that the router or the core rejects for what it is. -/
def Request.malformed (reader : TextReader) (request : Request) : Bool :=
  match request.route with
  | .createConversation body => (participantIdsOf body).all fun ids => maxParticipants < ids.length
  | .sendMessage _ body => ((bodyField body "body").bind Json.asString).all fun text => trim text = ""
  | .listMessages _ limit before =>
    limit.any (fun raw => !isPositiveInteger (reader.number raw.text)) ||
      before.any fun raw => (reader.date raw.text).time.isNone
  | _ => false

/-- The conversation that the path names. -/
def Route.conversationId : Route → Option String
  | .createConversation _ | .listConversations => none
  | .getConversation id | .sendMessage id _ | .listMessages id _ _ | .markRead id
  | .deleteMessage id _ | .deleteConversation id => some id

/-- The message that the path names. -/
def Route.messageId : Route → Option String
  | .deleteMessage _ messageId => some messageId
  | _ => none

variable {σ ι : Type}

/-- Whatever the handler does, the caller gets a response. -/
theorem ConversationsRouter.run_handle (A : Adapter ports Failure σ ι) (i : ι) (reader : TextReader)
    (request : Request) (s : σ) : ∃ response s', A.run i (handle reader request) s = (.ok response, s') ∧
      response.status = statusOf (A.run i (dispatch reader request) s).1 := by
  unfold handle
  rw [Proc.tryCatch_eq_catching, Adapter.run_catching]
  cases A.run i (dispatch reader request) s with
  | mk x s' =>
    cases x with
    | ok response => exact ⟨response, s', rfl, rfl⟩
    | error e => exact ⟨errorHandler e, s', rfl, rfl⟩

namespace ConversationsRouter

variable {reader : TextReader} {u c : String} {body : Option Json}

/-- Malformed input gets a 400, before any port is asked. -/
theorem dispatch_malformed (A : Adapter ports Failure σ ι) (i : ι) {request : Request} (s : σ)
    (h : request.malformed reader = true) : statusOf (A.run i (dispatch reader request) s).1 = 400 := by
  cases request with
  | mk u route =>
    cases route with
    | createConversation body =>
      simp only [Request.malformed] at h
      cases hids : participantIdsOf body with
      | none =>
        simp only [dispatch, createConversation, hids]
        rfl
      | some ids =>
        simp only [hids, Option.all_some, decide_eq_true_eq] at h
        simp only [dispatch, createConversation, hids, if_pos (show ids.length > maxParticipants from h)]
        rfl
    | sendMessage c body =>
      simp only [Request.malformed] at h
      cases htext : (bodyField body "body").bind Json.asString with
      | none =>
        simp only [dispatch, sendMessage, htext]
        rfl
      | some text =>
        simp only [htext, Option.all_some, decide_eq_true_eq] at h
        simp only [dispatch, sendMessage, htext, MessagingService.sendMessage, h, if_true]
        rfl
    | listMessages c limit before =>
      simp only [Request.malformed, Bool.or_eq_true] at h
      unfold dispatch listMessages
      simp only [Option.any_map]
      split
      · rfl
      · next hlimit =>
        rw [if_pos (h.resolve_left hlimit)]
        rfl
    | listConversations | getConversation | markRead | deleteMessage | deleteConversation => cases h

/-- A body of at most the allowed number of participants. -/
theorem createConversation_wellFormed
    (h : Request.malformed reader ⟨u, .createConversation body⟩ = false) :
    ∃ ids, participantIdsOf body = some ids ∧ ids.length ≤ maxParticipants := by
  simp only [Request.malformed] at h
  cases hids : participantIdsOf body with
  | none =>
    rw [hids] at h
    cases h
  | some ids =>
    simp only [hids, Option.all_some, decide_eq_false_iff_not, Nat.not_lt] at h
    exact ⟨ids, rfl, h⟩

/-- A body with something in it. -/
theorem sendMessage_wellFormed (h : Request.malformed reader ⟨u, .sendMessage c body⟩ = false) :
    ∃ text, (bodyField body "body").bind Json.asString = some text ∧ trim text ≠ "" := by
  simp only [Request.malformed] at h
  cases htext : (bodyField body "body").bind Json.asString with
  | none =>
    rw [htext] at h
    cases h
  | some text =>
    simp only [htext, Option.all_some, decide_eq_false_iff_not] at h
    exact ⟨text, rfl, h⟩

/-- A positive integer, if there is a limit, and a date, if there is a `before`. -/
theorem listMessages_wellFormed {limit before : Option QueryValue}
    (h : Request.malformed reader ⟨u, .listMessages c limit before⟩ = false) :
    (∃ n : Option Int, limit.map (fun raw => reader.number raw.text) = n.map fun z => .finite z) ∧
      listMessages reader u c limit before = (do
        let messages ← MessagingService.listMessages c u
          { limit := limit.map fun raw => reader.number raw.text,
            before := before.map fun raw => reader.date raw.text }
        return ⟨200, .messages messages⟩) := by
  simp only [Request.malformed, Bool.or_eq_false_iff] at h
  obtain ⟨hlimit, hbefore⟩ := h
  constructor
  · cases limit with
    | none => exact ⟨none, rfl⟩
    | some raw =>
      simp only [Option.any_some, Bool.not_eq_false'] at hlimit
      cases hnumber : reader.number raw.text with
      | finite q =>
        rw [hnumber] at hlimit
        simp only [isPositiveInteger, Bool.and_eq_true, decide_eq_true_eq] at hlimit
        refine ⟨some q.num, ?_⟩
        simp only [Option.map_some, hnumber]
        rw [← Rat.coe_int_num_of_den_eq_one hlimit.1]
        rfl
      | _ =>
        rw [hnumber] at hlimit
        cases hlimit
  · unfold listMessages
    simp only [Option.any_map, hlimit, hbefore, Bool.false_eq_true, if_false]

end ConversationsRouter

end Jiffy
