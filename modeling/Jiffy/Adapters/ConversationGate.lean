-- SUMMARY: HttpConversationGate: what it makes of whatever the host answers.
import Jiffy.Core.Errors
import Jiffy.Lib.Json
import Jiffy.Lib.Proc

/-!
# HTTP conversation gate

`src/adapters/conversation-gate/http-conversation-gate.ts`. Each of the two
awaits has a `try` of its own; the field access at the end has none.
-/

namespace Jiffy

open Js Async

/-- What `fetch` is given besides the URL. -/
structure FetchInit where
  method : String
  headers : List (String × String)
  body : Value
  /-- `AbortSignal.timeout` -/
  timeoutMs : Number

/-- A response: its status, and how reading its body as text settles. -/
structure HostResponse where
  status : Nat
  text : Except String String

/-- `response.ok`. -/
def HostResponse.ok (response : HostResponse) : Bool := decide (200 ≤ response.status ∧ response.status ≤ 299)

/-- What the gate asks for. -/
inductive GateCall where
  | fetch (url : String) (init : FetchInit)
  /-- `response.json()` -/
  | json (response : HostResponse)

@[reducible] def GateCall.Resp : GateCall → Type
  | .fetch _ _ => HostResponse
  | .json _ => Json

abbrev gateCalls : Interface := ⟨GateCall, GateCall.Resp⟩

/-- The options, with their default. -/
structure HttpConversationGate where
  url : String
  secret : String
  timeoutMs : Number := .finite (5000 : ℤ)

namespace HttpConversationGate

variable (gate : HttpConversationGate)

/-- `body.allowed`. -/
def allowedOf : Json → Except Failure (Option Json)
  | .null => .error (.port "Cannot read properties of null (reading 'allowed')")
  | .object fields => .ok ((fields.find? fun field => field.1 = "allowed").map Prod.snd)
  | _ => .ok none

/-- `value === true`. -/
def isTrue : Option Json → Bool
  | some (.bool true) => true
  | _ => false

def init (requesterId : String) (participantIds : List String) : FetchInit where
  method := "POST"
  headers := [("content-type", "application/json"), ("authorization", "Bearer " ++ gate.secret)]
  body := .object [("requesterId", .string requesterId),
    ("participantIds", .array (participantIds.map Value.string))]
  timeoutMs := gate.timeoutMs

def canCreateConversation (requesterId : String) (participantIds : List String) :
    Proc gateCalls Failure Bool := do
  let response ← Proc.settle
    (@Proc.request gateCalls Failure (.fetch gate.url (gate.init requesterId participantIds)))
  match response with
  | .error _ => return false
  | .ok response =>
    if !response.ok then return false
    else do
      let body ← Proc.settle (@Proc.request gateCalls Failure (.json response))
      match body with
      | .error _ => return false
      | .ok body => do
        let allowed ← Proc.ofExcept (allowedOf body)
        return isTrue allowed

-- ---------------------------------------------------------------------------
-- The host
-- ---------------------------------------------------------------------------

/-- The host's endpoint: what comes of a request to it, which may time out. -/
structure Host where
  fetch : String → FetchInit → Except String HostResponse
  reader : TextReader

/-- The body of a response as `response.json()` settles. -/
def Host.json (host : Host) (response : HostResponse) : Except Failure Json := do
  let text ← response.text.mapError Failure.port
  match Json.parse host.reader.number text with
  | none => throw (.port "SyntaxError")
  | some body => return body

def answer (host : Host) : (call : GateCall) → Unit → Except Failure call.Resp × Unit
  | .fetch url init, s => ((host.fetch url init).mapError Failure.port, s)
  | .json response, s => (host.json response, s)

def adapter : Adapter gateCalls Failure Unit Host where
  perform := answer
  refresh _ _ x := x
  admissible _ _ := true
  tick _ s := s

/-- How a call settles. -/
def settled (host : Host) (requesterId : String) (participantIds : List String) : Except Failure Bool :=
  (adapter.run host (gate.canCreateConversation requesterId participantIds) ()).1

-- ---------------------------------------------------------------------------
-- Failing closed
-- ---------------------------------------------------------------------------

variable (host : Host) (requesterId : String) (participantIds : List String)

/-- The response to the gate's request, if it got one with a 2xx status, and
that has a body that parses. -/
def Answered (response : HostResponse) (body : Json) : Prop :=
  host.fetch gate.url (gate.init requesterId participantIds) = .ok response ∧
    response.ok = true ∧ host.json response = .ok body

/-- The host allows the conversation in so many words. -/
def Allows : Prop :=
  ∃ response fields, Answered gate host requesterId participantIds response (.object fields) ∧
    (fields.find? fun field => field.1 = "allowed").map Prod.snd = some (.bool true)

/-- The call resolves, and to `true` only when the host allows it. -/
def FailsClosed : Prop :=
  ∃ allowed, gate.settled host requesterId participantIds = .ok allowed ∧
    (allowed = true ↔ Allows gate host requesterId participantIds)

variable {gate host requesterId participantIds}

theorem isTrue_iff {value : Option Json} : isTrue value = true ↔ value = some (.bool true) := by
  unfold isTrue
  split <;> simp_all

theorem Answered.body_eq {response response' : HostResponse} {body body' : Json}
    (h : Answered gate host requesterId participantIds response body)
    (h' : Answered gate host requesterId participantIds response' body') : body = body' := by
  obtain ⟨hfetch, -, hjson⟩ := h
  obtain ⟨hfetch', -, hjson'⟩ := h'
  rw [hfetch] at hfetch'
  cases hfetch'
  rw [hjson] at hjson'
  cases hjson'
  rfl

theorem run_fetch (url : String) (init : FetchInit) :
    adapter.run host (Proc.settle (@Proc.request gateCalls Failure (.fetch url init))) () =
      (.ok ((host.fetch url init).mapError Failure.port), ()) := by
  rw [Adapter.run_settle, Adapter.run_request]
  rfl

theorem run_json (response : HostResponse) :
    adapter.run host (Proc.settle (@Proc.request gateCalls Failure (.json response))) () =
      (.ok (host.json response), ()) := by
  rw [Adapter.run_settle, Adapter.run_request]
  rfl

/-- A call whose request has been answered settles with the body's field. -/
theorem settled_answered {response : HostResponse} {body : Json}
    (h : Answered gate host requesterId participantIds response body) :
    gate.settled host requesterId participantIds = (allowedOf body).map isTrue := by
  obtain ⟨hfetch, hok, hjson⟩ := h
  unfold settled canCreateConversation
  simp only [Proc.bind_eq_bind, Adapter.run_bind]
  rw [run_fetch, hfetch]
  simp only [Except.mapError, hok, Bool.not_true, Bool.false_eq_true, if_false, Adapter.run_bind]
  rw [run_json, hjson]
  simp only [Adapter.run_bind, Adapter.run_ofExcept]
  cases allowedOf body <;> rfl

/-- Any other call resolves to `false`. -/
theorem settled_unanswered
    (h : ∀ response body, ¬ Answered gate host requesterId participantIds response body) :
    gate.settled host requesterId participantIds = .ok false := by
  unfold settled canCreateConversation
  simp only [Proc.bind_eq_bind, Adapter.run_bind]
  rw [run_fetch]
  cases hfetch : host.fetch gate.url (gate.init requesterId participantIds) with
  | error reason => rfl
  | ok response =>
    simp only [Except.mapError]
    cases hok : response.ok with
    | false => rfl
    | true =>
      simp only [Bool.not_true, Bool.false_eq_true, if_false, Adapter.run_bind]
      rw [run_json]
      cases hjson : host.json response with
      | error e => rfl
      | ok body => exact absurd ⟨hfetch, hok, hjson⟩ (h response body)

/-- The gate fails closed exactly when it is not answered the JSON value
`null`. -/
theorem fails_closed_iff (gate : HttpConversationGate) (host : Host) (requesterId : String)
    (participantIds : List String) : FailsClosed gate host requesterId participantIds ↔
      ∀ response, ¬ Answered gate host requesterId participantIds response .null := by
  constructor
  · rintro ⟨allowed, hsettled, -⟩ response hnull
    rw [settled_answered hnull] at hsettled
    cases hsettled
  · intro hnull
    by_cases hanswered : ∃ response body, Answered gate host requesterId participantIds response body
    · obtain ⟨response, body, hanswered⟩ := hanswered
      have hsettled := settled_answered hanswered
      have hallows : Allows gate host requesterId participantIds ↔ ∃ fields, body = .object fields ∧
          (fields.find? fun field => field.1 = "allowed").map Prod.snd = some (.bool true) := by
        constructor
        · rintro ⟨response', fields, hanswered', hallowed⟩
          exact ⟨fields, hanswered.body_eq hanswered', hallowed⟩
        · rintro ⟨fields, rfl, hallowed⟩
          exact ⟨response, fields, hanswered, hallowed⟩
      cases body with
      | null => exact absurd hanswered (hnull response)
      | object fields =>
        refine ⟨_, hsettled, isTrue_iff.trans ?_⟩
        rw [hallows]
        constructor
        · exact fun h => ⟨fields, rfl, h⟩
        · rintro ⟨_, heq, h⟩
          cases heq
          exact h
      | bool _ | number _ | string _ | array _ =>
        refine ⟨false, hsettled, ?_⟩
        rw [hallows]
        exact ⟨nofun, fun ⟨_, heq, _⟩ => by cases heq⟩
    · refine ⟨false, settled_unanswered fun response body h => hanswered ⟨response, body, h⟩, ?_⟩
      constructor
      · exact nofun
      · rintro ⟨response, fields, h, -⟩
        exact absurd ⟨response, _, h⟩ hanswered

/-- An endpoint that answers every request alike. -/
def hostOf (status : Nat) (text : String) : Host where
  fetch _ _ := .ok ⟨status, .ok text⟩
  reader := TextReader.iso fun _ => .nan

/-- The host answers 200 with the body `null`: the call rejects. -/
theorem rejects_on_null :
    (HttpConversationGate.mk "http://host/gate" "secret" (.finite (5000 : ℤ))).settled
      (hostOf 200 "null") "ann" ["ann", "bob"] =
        .error (.port "Cannot read properties of null (reading 'allowed')") ∧
    ¬ FailsClosed (HttpConversationGate.mk "http://host/gate" "secret" (.finite (5000 : ℤ)))
      (hostOf 200 "null") "ann" ["ann", "bob"] := by
  have hsettled : (HttpConversationGate.mk "http://host/gate" "secret" (.finite (5000 : ℤ))).settled
      (hostOf 200 "null") "ann" ["ann", "bob"] =
        .error (.port "Cannot read properties of null (reading 'allowed')") := rfl
  refine ⟨hsettled, ?_⟩
  rintro ⟨allowed, h, -⟩
  rw [hsettled] at h
  cases h

end HttpConversationGate

end Jiffy
