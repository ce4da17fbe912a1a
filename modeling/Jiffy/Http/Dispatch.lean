-- SUMMARY: What a route asks of the service: one operation at most, on behalf of the user who asks, within a few turns.
import Jiffy.Http.Middlewares

/-!
# Dispatch

A handler refuses a request for what it is, or calls one operation of the
service. Who is asking comes from the verified token alone, so whatever the
operation does it does for that user.
-/

namespace Jiffy

open Js Async

/-- A call made in the name of `userId`. -/
def PortCall.ActsFor (userId : String) : PortCall → Prop
  | .canCreateConversation requesterId _ => requesterId = userId
  | .createConversation participantIds => userId ∈ participantIds
  | .findByParticipant id => id = userId
  | .markRead _ id _ => id = userId
  | .clear _ id _ => id = userId
  | .createMessage input => input.senderId = userId
  | _ => True

def Op.ActsFor (userId : String) : Op → Prop
  | .createConversation requesterId participantIds => requesterId = userId ∧ userId ∈ participantIds
  | .getConversation _ requesterId | .listMessages _ requesterId _ | .deleteMessage _ _ requesterId
  | .deleteConversation _ requesterId => requesterId = userId
  | .listConversations id | .markRead _ id _ => id = userId
  | .sendMessage input => input.senderId = userId

theorem PortCall.Checks.actsFor {conversationId userId : String} {call : PortCall}
    (h : call.Checks conversationId) : call.ActsFor userId := by
  rcases h with rfl | ⟨conversation, rfl⟩ <;> trivial

/-- An operation calls its ports for the user that it acts for. -/
theorem Op.Uses.actsFor {userId : String} {op : Op} {call : PortCall} (h : op.Uses call)
    (hop : op.ActsFor userId) : call.ActsFor userId := by
  cases op with
  | createConversation requesterId participantIds =>
    rcases h with rfl | rfl
    · exact hop.1
    · exact hop.2
  | getConversation c u => exact PortCall.Checks.actsFor h
  | listConversations u =>
    rcases h with rfl | ⟨queries, rfl⟩
    · exact hop
    · trivial
  | sendMessage input =>
    rcases h with h | ⟨ids, rfl⟩ | ⟨c, rfl⟩ | ⟨message, rfl⟩ | ⟨message, ids, rfl⟩
    · exact PortCall.Checks.actsFor h
    · exact hop
    · exact hop
    · trivial
    · trivial
  | listMessages c u options =>
    rcases h with h | ⟨options, rfl⟩
    · exact PortCall.Checks.actsFor h
    · trivial
  | deleteMessage c messageId u =>
    rcases h with h | rfl | rfl | ⟨at_, rfl⟩ | ⟨message, rfl⟩
    · exact PortCall.Checks.actsFor h
    all_goals trivial
  | deleteConversation c u =>
    rcases h with h | rfl | ⟨at_, rfl⟩
    · exact PortCall.Checks.actsFor h
    · trivial
    · exact hop
  | markRead c u at_ =>
    rcases h with h | rfl
    · exact PortCall.Checks.actsFor h
    · exact hop

/-- So does the method behind it. -/
theorem Op.ActsFor.only {userId : String} {op : Op} {α : Type} {method : Service α} {reply : α → Reply}
    (hby : op.ActsFor userId) (hop : op.program = method.bind fun a => .ret (reply a)) :
    method.Only (PortCall.ActsFor userId) := by
  have hprogram := op.program_only.mono fun call hcall => Op.Uses.actsFor hcall hby
  rw [hop] at hprogram
  exact .of_bind hprogram

-- ---------------------------------------------------------------------------
-- Turns
-- ---------------------------------------------------------------------------

namespace MessagingService

theorem awaitParticipant_within (c u : String) : (awaitParticipant c u).Within 2 := by
  refine Proc.Within.bind (m := 1) (n := 1) (Proc.Within.bind (m := 1) (n := 0) ?_ fun found => ?_) fun _ => ?_
  · exact .request Nat.one_pos
  · cases found with
    | none => trivial
    | some conversation =>
      simp only
      split <;> trivial
  · exact .request Nat.one_pos

end MessagingService

/-- No operation waits more than four times. -/
theorem Op.program_within (op : Op) : op.program.Within 4 := by
  cases op with
  | createConversation requesterId participantIds =>
    refine Proc.Within.bind (m := 2) (n := 2) (Proc.Within.bind (m := 1) (n := 1) ?_ fun allowed => ?_) fun _ =>
      trivial
    · exact .request Nat.one_pos
    · split
      · exact .request Nat.one_pos
      · trivial
  | getConversation c u =>
    exact Proc.Within.bind (m := 2) (n := 2) (MessagingService.awaitParticipant_within c u) fun _ => trivial
  | listConversations u =>
    refine Proc.Within.bind (m := 2) (n := 2) (Proc.Within.bind (m := 1) (n := 1) ?_ fun _ => ?_) fun _ => trivial
    · exact .request Nat.one_pos
    · exact Proc.Within.bind (m := 1) (n := 0) (.request Nat.one_pos) fun _ => trivial
  | sendMessage input =>
    refine Proc.Within.bind (m := 4) (n := 0) ?_ fun _ => trivial
    unfold MessagingService.sendMessage
    split
    · trivial
    refine Proc.Within.bind (m := 2) (n := 2) (MessagingService.awaitParticipant_within _ _) fun _ => ?_
    refine Proc.Within.bind (m := 1) (n := 1) (.request Nat.one_pos) fun allowed => ?_
    split
    · refine Proc.Within.bind (m := 1) (n := 0) (.request Nat.one_pos) fun message => ?_
      refine Proc.Within.bind (m := 0) (n := 0) (.perform _ _) fun _ => ?_
      exact Proc.Within.bind (m := 0) (n := 0) (.perform _ _) fun _ => trivial
    · trivial
  | listMessages c u options =>
    refine Proc.Within.bind (m := 3) (n := 1) (Proc.Within.bind (m := 2) (n := 1) ?_ fun _ => ?_) fun _ => trivial
    · exact MessagingService.awaitParticipant_within c u
    · exact .request Nat.one_pos
  | deleteMessage c messageId u =>
    refine Proc.Within.bind (m := 4) (n := 0) (Proc.Within.bind (m := 2) (n := 2) ?_ fun _ => ?_) fun _ => trivial
    · exact MessagingService.awaitParticipant_within c u
    refine Proc.Within.bind (m := 1) (n := 1) (.request Nat.one_pos) fun found => ?_
    cases found with
    | none => trivial
    | some message =>
      simp only
      split
      · trivial
      split
      · trivial
      split
      · trivial
      refine Proc.Within.bind (m := 0) (n := 1) (.perform _ _) fun now => ?_
      refine Proc.Within.bind (m := 1) (n := 0) (.request Nat.one_pos) fun deleted => ?_
      exact Proc.Within.bind (m := 0) (n := 0) (.perform _ _) fun _ => trivial
  | deleteConversation c u =>
    refine Proc.Within.bind (m := 3) (n := 1) (Proc.Within.bind (m := 2) (n := 1) ?_ fun _ => ?_) fun _ => trivial
    · exact MessagingService.awaitParticipant_within c u
    exact Proc.Within.bind (m := 0) (n := 1) (.perform _ _) fun now => .request Nat.one_pos
  | markRead c u at_ =>
    refine Proc.Within.bind (m := 3) (n := 1) (Proc.Within.bind (m := 2) (n := 1) ?_ fun _ => ?_) fun _ => trivial
    · exact MessagingService.awaitParticipant_within c u
    · exact .request Nat.one_pos

-- ---------------------------------------------------------------------------
-- Handlers
-- ---------------------------------------------------------------------------

/-- The statuses that the app answers with. -/
def statuses : List Nat := [200, 201, 204, 400, 401, 403, 404, 429, 500, 503]

/-- What becomes of a request: it is refused on the spot, or it goes to one
operation for the user, perhaps with the time that it is. -/
inductive Dispatched (userId : String) : Service Response → Prop where
  | refused {response : Response} (h : response.status ∈ statuses) : Dispatched userId (.ret response)
  | called {α : Type} (op : Op) {method : Service α} {reply : α → Reply} {render : α → Response}
    (hop : op.program = method.bind fun a => .ret (reply a)) (hby : op.ActsFor userId)
    (hrender : ∀ a, (render a).status ∈ statuses) :
    Dispatched userId (method.bind fun a => .ret (render a))
  | timed {handler : Int → Service Response} (h : ∀ now, Dispatched userId (handler now)) :
    Dispatched userId ((perform .newDate).bind handler)

namespace ConversationsRouter

theorem createConversation_dispatched (u : String) (body : Option Json) :
    Dispatched u (createConversation u body) := by
  unfold createConversation
  cases participantIdsOf body with
  | none => exact .refused (by decide : 400 ∈ statuses)
  | some ids =>
    simp only
    split
    · exact .refused (by decide : 400 ∈ statuses)
    split
    · exact .refused (by decide : 403 ∈ statuses)
    · next hmember =>
      have hids : u ∈ ids := by simpa using hmember
      exact .called (.createConversation u ids) rfl ⟨rfl, hids⟩ fun _ => (by decide : 201 ∈ statuses)

theorem dispatch_dispatched (reader : TextReader) (request : Request) :
    Dispatched request.userId (dispatch reader request) := by
  have hok : 200 ∈ statuses := by decide
  have hcreated : 201 ∈ statuses := by decide
  have hempty : 204 ∈ statuses := by decide
  have hmalformed : 400 ∈ statuses := by decide
  obtain ⟨u, route⟩ := request
  cases route with
  | createConversation body => exact createConversation_dispatched u body
  | listConversations => exact .called (.listConversations u) rfl rfl fun _ => hok
  | getConversation id => exact .called (.getConversation id u) rfl rfl fun _ => hok
  | sendMessage id body =>
    simp only [dispatch]
    unfold sendMessage
    cases (bodyField body "body").bind Json.asString with
    | none => exact .refused hmalformed
    | some text => exact .called (.sendMessage ⟨id, u, text⟩) rfl rfl fun _ => hcreated
  | listMessages id limit before =>
    simp only [dispatch]
    unfold listMessages
    simp only
    split
    · exact .refused hmalformed
    split
    · exact .refused hmalformed
    · exact .called (.listMessages id u _) rfl rfl fun _ => hok
  | markRead id =>
    exact .timed fun now => .called (.markRead id u (Date.of now)) rfl rfl fun _ => hempty
  | deleteMessage id messageId => exact .called (.deleteMessage id messageId u) rfl rfl fun _ => hok
  | deleteConversation id => exact .called (.deleteConversation id u) rfl rfl fun _ => hempty

end ConversationsRouter

namespace Dispatched

variable {userId : String} {p : Service Response}

theorem onSpot (h : Dispatched userId p) : p.OnSpot PortCall.Unawaited := by
  induction h with
  | refused h => trivial
  | @called α op method reply render hop hby hrender =>
    have hprogram := op.program_onSpot
    rw [hop] at hprogram
    exact Proc.OnSpot.bind (.of_bind hprogram) fun _ => trivial
  | timed _ ih => exact Proc.OnSpot.bind (.perform trivial) ih

theorem within (h : Dispatched userId p) : p.Within 4 := by
  induction h with
  | refused h => trivial
  | @called α op method reply render hop hby hrender =>
    have hprogram := op.program_within
    rw [hop] at hprogram
    exact Proc.Within.bind (n := 0) (.of_bind hprogram) fun _ => trivial
  | timed _ ih => exact Proc.Within.bind (m := 0) (n := 4) (.perform _ _) ih

end Dispatched

end Jiffy
