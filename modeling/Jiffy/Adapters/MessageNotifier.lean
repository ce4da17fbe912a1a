-- SUMMARY: HttpMessageNotifier: the webhooks that the service posts to its host, over whole runs.
import Jiffy.Core.Effects
import Jiffy.Adapters.ConversationGate
import Jiffy.InMemory.Stores
import Jiffy.Lib.Transcript

/-!
# HTTP message notifier

`src/adapters/message-notifier`. A `notify` posts its request in the turn that
calls it, and whatever the host answers ends up in the log.
-/

namespace Jiffy

open Js Async

/-- What the notifier asks for. -/
inductive NotifyCall where
  | fetch (url : String) (init : FetchInit)
  /-- `logger.warn` -/
  | warn (status : Nat) (messageId url text : String)
  /-- `logger.error` -/
  | error (reason : Failure) (messageId url text : String)

@[reducible] def NotifyCall.Resp : NotifyCall → Type
  | .fetch _ _ => HostResponse
  | .warn _ _ _ _ => Unit
  | .error _ _ _ _ => Unit

abbrev notifyCalls : Interface := ⟨NotifyCall, NotifyCall.Resp⟩

/-- The options, with their default. -/
structure HttpMessageNotifier where
  url : String
  secret : String
  timeoutMs : Number := .finite (5000 : ℤ)

namespace HttpMessageNotifier

variable (notifier : HttpMessageNotifier)

def init (message : Message) (recipientIds : List String) : FetchInit where
  method := "POST"
  headers := [("content-type", "application/json"), ("authorization", "Bearer " ++ notifier.secret)]
  body := .object [("messageId", .string message.id), ("conversationId", .string message.conversationId),
    ("senderId", .string message.senderId), ("recipientIds", .array (recipientIds.map Value.string)),
    ("body", .string message.body), ("createdAt", .date (Date.of message.createdAt))]
  timeoutMs := notifier.timeoutMs

def notify (message : Message) (recipientIds : List String) : Proc notifyCalls Failure Unit :=
  if recipientIds = [] then
    return ()
  else
    tryCatch
      (do
        let response ← @Proc.request notifyCalls Failure (.fetch notifier.url (notifier.init message recipientIds))
        if !response.ok then
          @Proc.perform notifyCalls Failure (.warn response.status message.id notifier.url
            "message notify webhook rejected the request"))
      fun error =>
        @Proc.perform notifyCalls Failure (.error error message.id notifier.url
          "message notify webhook unreachable")

-- ---------------------------------------------------------------------------
-- The host
-- ---------------------------------------------------------------------------

/-- What comes of a request to the host, which may time out. -/
abbrev Host : Type := String → FetchInit → Except String HostResponse

/-- What the notifier has done: the requests it posted, and what it logged. -/
structure Account where
  posted : List (String × FetchInit)
  logged : List NotifyCall

def answer (host : Host) : (call : NotifyCall) → Account → Except Failure call.Resp × Account
  | .fetch url init, account =>
    ((host url init).mapError Failure.port, { account with posted := account.posted ++ [(url, init)] })
  | .warn status messageId url text, account =>
    (.ok (), { account with logged := account.logged ++ [.warn status messageId url text] })
  | .error reason messageId url text, account =>
    (.ok (), { account with logged := account.logged ++ [.error reason messageId url text] })

def adapter : Adapter notifyCalls Failure Account Host where
  perform := answer
  refresh _ _ x := x
  admissible _ _ := true
  tick _ account := account

/-- The requests for one message: none when nobody else is there to be told. -/
def requests (message : Message) (recipientIds : List String) : List (String × FetchInit) :=
  if recipientIds = [] then [] else [(notifier.url, notifier.init message recipientIds)]

theorem run_fetch (host : Host) (url : String) (init : FetchInit) (account : Account) :
    adapter.run host (@Proc.request notifyCalls Failure (.fetch url init)) account =
      ((host url init).mapError Failure.port, { account with posted := account.posted ++ [(url, init)] }) :=
  adapter.run_request host _ account

/-- Whatever the host does, the notification resolves, with its request posted. -/
theorem run_notify (host : Host) (message : Message) (recipientIds : List String) (account : Account) :
    ∃ lines, adapter.run host (notifier.notify message recipientIds) account =
      (.ok (), ⟨account.posted ++ notifier.requests message recipientIds, account.logged ++ lines⟩) := by
  unfold notify requests
  split
  · exact ⟨[], by simp⟩
  rw [Proc.tryCatch_eq_catching, Adapter.run_catching, Proc.bind_eq_bind, Adapter.run_bind, run_fetch]
  cases host notifier.url (notifier.init message recipientIds) with
  | error reason => exact ⟨[_], rfl⟩
  | ok response =>
    simp only [Except.mapError]
    cases response.ok with
    | true => exact ⟨[], by simp⟩
    | false => exact ⟨[_], rfl⟩

-- ---------------------------------------------------------------------------
-- The service
-- ---------------------------------------------------------------------------

variable {σ ι : Type} (A : Adapter ports Failure σ ι)

/-- A port call, with this notifier behind the port. -/
def performNotifying (i : ι × Host) :
    (call : PortCall) → σ × Account → Except Failure call.Resp × (σ × Account)
  | .notify message recipientIds, s =>
    let (settled, account) := adapter.run i.2 (notifier.notify message recipientIds) s.2
    (settled, s.1, account)
  | call, s =>
    let (answer, state) := A.perform i.1 call s.1
    (answer, state, s.2)

/-- The service over any adapter, with this notifier. -/
def system : System ports Failure Reply (σ × Account) (ι × Host) Op where
  perform := performNotifying notifier A
  refresh s := A.refresh s.1
  admissible i s := A.admissible i.1 s.1
  tick i s := (A.tick i.1 s.1, s.2)
  program := Op.program
  arrive _ s := some s

/-- The requests that one port call posts. -/
def requestsOf : ports.Event Failure → List (String × FetchInit)
  | ⟨.notify message recipientIds, _⟩ => notifier.requests message recipientIds
  | _ => []

/-- The requests posted on behalf of a call. -/
def posts (h : List (ports.Event Failure)) : List (String × FetchInit) := h.flatMap notifier.requestsOf

/-- The requests behind an effect. -/
def requestsFor : Effect → List (String × FetchInit)
  | .notified message recipientIds => notifier.requests message recipientIds
  | _ => []

theorem posts_eq (h : List (ports.Event Failure)) :
    notifier.posts h = (effects h).flatMap notifier.requestsFor := by
  unfold posts effects
  induction h with
  | nil => rfl
  | cons e h ih =>
    have hone : notifier.requestsOf e = (effectOf e).toList.flatMap notifier.requestsFor := by
      obtain ⟨r, x⟩ := e
      cases r with
      | notify message recipientIds => exact (List.append_nil _).symm
      | createMessage input => cases x <;> rfl
      | softDelete id at_ => cases x <;> rfl
      | _ => rfl
    rw [List.flatMap_cons, ih, hone]
    cases heffect : effectOf e with
    | none => rw [List.filterMap_cons_none heffect]; rfl
    | some effect => rw [List.filterMap_cons_some heffect, List.flatMap_cons]; simp

variable {A}

theorem fits (hA : Effects.rules.Fits A) : Effects.rules.Fits (notifier.system A).toAdapter := by
  constructor
  · intro i r s
    cases r with
    | notify message recipientIds =>
      obtain ⟨lines, hrun⟩ := notifier.run_notify i.2 message recipientIds s.2
      exact congrArg Prod.fst hrun
    | _ => exact hA.answers i.1 _ s.1
  · exact fun s r a => hA.becomes s.1 r a

/-- The account grows by what the calls post. -/
theorem posted_perform (i : ι × Host) (r : PortCall) (s : σ × Account) :
    ((notifier.system A).perform i r s).2.2.posted =
      s.2.posted ++ notifier.requestsOf ⟨r, ((notifier.system A).perform i r s).1⟩ := by
  cases r with
  | notify message recipientIds =>
    obtain ⟨lines, hrun⟩ := notifier.run_notify i.2 message recipientIds s.2
    exact congrArg (fun result => result.2.posted) hrun
  | _ => exact (List.append_nil _).symm

-- ---------------------------------------------------------------------------
-- Webhooks of whole runs
-- ---------------------------------------------------------------------------

/-- A send that resolved, as it stands in a run. -/
def Resolved (c : Config ports Failure Reply (σ × Account) Op) (id : Nat) (input : SendMessageInput)
    (message : Message) (h : List (ports.Event Failure)) : Prop :=
  c.calls id = some ⟨.sendMessage input, h, .settled (.ok (.message message))⟩

/-- The users to be told of a message: those that the gate allowed its sender,
without the sender. -/
def Recipients (input : SendMessageInput) (h : List (ports.Event Failure)) (recipientIds : List String) :
    Prop :=
  ∃ participantIds, ⟨.canCreateConversation input.senderId participantIds, .ok true⟩ ∈ h ∧
    recipientIds = participantIds.filter fun id => id ≠ input.senderId

/-- The requests of one call: for a send that resolved those of its message,
stored and published before, and for any other call none. -/
structure Told (c : Config ports Failure Reply (σ × Account) Op) (id : Nat)
    (h : List (ports.Event Failure)) : Prop where
  sent : ∀ input message, Resolved c id input message h → ∃ stored recipientIds,
    stored.id = message.id ∧ Recipients input h recipientIds ∧
    effects h = [.stored stored, .published message, .notified message recipientIds] ∧
    notifier.posts h = notifier.requests message recipientIds
  silent : (∀ input message, ¬ Resolved c id input message h) → notifier.posts h = []

theorem posts_of_unsent {h : List (ports.Event Failure)} (hh : Effects.Unsent h) : notifier.posts h = [] := by
  rw [posts_eq]
  rcases hh with hnone | ⟨message, hstored⟩
  · rw [hnone]; rfl
  · rw [hstored]; rfl

theorem posts_of_withdrawn {message : Message} {h : List (ports.Event Failure)}
    (hh : Effects.Withdrawn message h) : notifier.posts h = [] := by
  rcases hh with hnone | ⟨stored, -, hstored⟩
  · exact notifier.posts_of_unsent (.inl hnone)
  · rw [posts_eq, hstored]; rfl

/-- A call that ended otherwise than as a send that resolved posts nothing. -/
theorem posts_of_effected {op : Op} {x : Except Failure Reply} {h : List (ports.Event Failure)}
    (hx : Effects.Effected op x h) (hop : ∀ input message, op = .sendMessage input → x ≠ .ok (.message message)) :
    notifier.posts h = [] := by
  unfold Effects.Effected at hx
  split at hx
  · next input message => exact absurd rfl (hop input message rfl)
  · exact notifier.posts_of_withdrawn hx
  · exact notifier.posts_of_unsent (.inl hx)

theorem told_of_covers {c : Config ports Failure Reply (σ × Account) Op} {id : Nat} {op : Op}
    {h : List (ports.Event Failure)} {st : Status ports Failure Reply (σ × Account)}
    (hcall : c.calls id = some ⟨op, h, st⟩) (hc : Effects.rules.Covers (Effects.Effected op) h st) :
    notifier.Told c id h := by
  constructor
  · intro input message hresolved
    cases hcall.symm.trans hresolved
    obtain ⟨stored, participantIds, hid, hgate, heffects⟩ := hc.settled _ rfl
    refine ⟨stored, _, hid, ⟨participantIds, hgate, rfl⟩, heffects, ?_⟩
    rw [posts_eq, heffects]
    exact List.append_nil _
  · intro hnone
    cases st with
    | suspended k => exact notifier.posts_of_unsent (hc.waiting k rfl)
    | settled x =>
      apply notifier.posts_of_effected (hc.settled x rfl)
      rintro input message rfl rfl
      exact hnone input message hcall

/-- The webhooks of a run with the transcript `es`. -/
structure Webhooks (c : Config ports Failure Reply (σ × Account) Op) (es : List (Nat × ports.Event Failure)) :
    Prop where
  /-- What was posted is what the `notify` calls of the run ask for, each once and in
  their order. -/
  posted : c.world.2.posted = es.flatMap fun e => notifier.requestsOf e.2
  /-- The run has these port calls, in this order. -/
  performed : ∀ id, System.ofCall id es = c.history id
  told : ∀ id call, c.calls id = some call → notifier.Told c id call.history
  /-- Nothing was posted but for a send that resolved. -/
  accounted : ∀ request ∈ c.world.2.posted, ∃ id input message h recipientIds,
    Resolved c id input message h ∧ Recipients input h recipientIds ∧
      request ∈ notifier.requests message recipientIds

/-- In every run, whatever the host does, the webhook of a message is posted by
the send that resolved with it, once, and by nothing else. -/
theorem webhook_per_send (hA : Effects.rules.Fits A) {ls : List (Label (ι × Host) Op)} {s : σ}
    {c : Config ports Failure Reply (σ × Account) Op}
    (hruns : (notifier.system A).runs (.idle (s, ⟨[], []⟩)) ls = some c) :
    notifier.Webhooks c ((notifier.system A).transcript (.idle (s, ⟨[], []⟩)) ls) := by
  have hcovered := System.runs_covered (fun _ => notifier.fits hA) Effects.program_keeps hruns
  have htold : ∀ id call, c.calls id = some call → notifier.Told c id call.history := fun id call hcall =>
    notifier.told_of_covers hcall (hcovered id _ _ _ hcall)
  refine ⟨?_, fun id => ?_, htold, fun request hrequest => ?_⟩
  · have hposted := System.runs_log (S := notifier.system A) (L := fun s => s.2.posted) (fun _ _ => rfl)
      (fun harrive => by cases harrive; rfl) notifier.posted_perform hruns
    exact hposted
  · exact (System.runs_history hruns id).symm
  obtain ⟨id, call, hcall, e, he, hposted⟩ := System.runs_accounted (S := notifier.system A)
    (L := fun s => s.2.posted) (fun _ _ => rfl) (fun harrive => by cases harrive; rfl) notifier.posted_perform
    rfl hruns hrequest
  have hmem : request ∈ notifier.posts call.history := List.mem_flatMap.mpr ⟨e, he, hposted⟩
  by_cases hresolved : ∃ input message, Resolved c id input message call.history
  · obtain ⟨input, message, hresolved⟩ := hresolved
    obtain ⟨stored, recipientIds, -, hrecipients, -, hposts⟩ := (htold id call hcall).sent _ _ hresolved
    exact ⟨id, input, message, call.history, recipientIds, hresolved, hrecipients, hposts ▸ hmem⟩
  · have hnone := (htold id call hcall).silent fun input message h => hresolved ⟨input, message, h⟩
    rw [hnone] at hmem
    cases hmem

theorem inMemory_fits : Effects.rules.Fits InMemory.adapter := by
  constructor
  · intro i r w
    cases r <;> trivial
  · intro w r a
    cases r with
    | createMessage input => exact (World.liveMessage_id w a).symm
    | softDelete id at_ => exact (World.liveMessage_id w a).symm
    | canCreateConversation requesterId participantIds => rfl
    | _ => trivial

/-- A turn at reading 1 under `ALLOW_ALL_GATE`, with a host that is down. -/
def hostDown (uuid : String) : Input × Host := (.allowAll 1 uuid, fun _ _ => .error "ECONNREFUSED")

/-- Ann creates a conversation with Bob, and sends him a message. -/
def annWritesBob : List (Label (Input × Host) Op) :=
  Label.turns 0 (.createConversation "ann" ["ann", "bob"]) (hostDown "c") 1 ++ [.resume 0 (hostDown "x")] ++
    Label.turns 1 (.sendMessage ⟨"c", "ann", "hello"⟩) (hostDown "m") 3 ++ [.resume 1 (hostDown "x")]

/-- A notifier with its default timeout. -/
def hostNotifier : HttpMessageNotifier := { url := "http://host/notify", secret := "secret" }

/-- The host is asked once for Bob, and Ann's message stands without it. -/
theorem webhook_per_send_host_down :
    ∃ c : Config ports Failure Reply (World × Account) Op,
      (hostNotifier.system InMemory.adapter).runs (.idle (World.init 0, ⟨[], []⟩)) annWritesBob = some c ∧
      c.world.2.posted.map Prod.fst = ["http://host/notify"] ∧ c.world.2.logged.length = 1 ∧
      hostNotifier.Webhooks c ((hostNotifier.system InMemory.adapter).transcript (.idle (World.init 0, ⟨[], []⟩))
        annWritesBob) := by
  have hruns : (hostNotifier.system InMemory.adapter).runs (.idle (World.init 0, ⟨[], []⟩)) annWritesBob = some _ :=
    rfl
  exact ⟨_, hruns, rfl, rfl, webhook_per_send _ inMemory_fits hruns⟩

end HttpMessageNotifier

end Jiffy
