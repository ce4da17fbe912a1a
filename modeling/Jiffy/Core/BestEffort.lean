-- SUMMARY: Best-effort delivery: what becomes of a durable write, however the bus and the notifier behave.
import Jiffy.Core.PortCalls
import Jiffy.Adapters.InMemory
import Jiffy.Lib.Interleaving

/-!
# Best-effort delivery

`void this.messageBus.publish(message).catch(() => {})`, and the same for the
notifier: the call returns a promise or throws before it does, and `catch`
handles the promise on the spot. Everything else the core asks for goes to some
adapter, whatever it answers.
-/

namespace Jiffy

open Js Async

/-- A call of the bus or the notifier. -/
inductive Delivery where
  /-- `messageBus.publish` -/
  | publish (message : Message)
  /-- `notifier.notify` -/
  | notify (message : Message) (recipientIds : List String)

/-- What the core asks for, with the promises of the bus and the notifier. -/
inductive DeliveryCall where
  | port (call : PortCall)
  /-- a delivery, which returns a promise -/
  | deliver (delivery : Delivery)
  /-- `promise.catch(() => {})` -/
  | catchAll (promise : Nat)

@[reducible] def DeliveryCall.Resp : DeliveryCall → Type
  | .port call => call.Resp
  | .deliver _ => Nat
  | .catchAll _ => Unit

abbrev deliveryCalls : Interface := ⟨DeliveryCall, DeliveryCall.Resp⟩

namespace BestEffort

/-- A call whose answer the same turn uses or drops. -/
abbrev perform (call : DeliveryCall) : Proc deliveryCalls Failure call.Resp :=
  @Proc.perform deliveryCalls Failure call

/-- `void delivery.catch(() => {})`. -/
def detached (delivery : Delivery) : Proc deliveryCalls Failure Unit := do
  let promise ← perform (.deliver delivery)
  perform (.catchAll promise)

/-- How the core makes each of its calls. -/
def expression : (call : PortCall) → Proc deliveryCalls Failure call.Resp
  | .publish message => detached (.publish message)
  | .notify message recipientIds => detached (.notify message recipientIds)
  | .newDate => perform (.port .newDate)
  | call => @Proc.request deliveryCalls Failure (.port call)

-- ---------------------------------------------------------------------------
-- The collaborators
-- ---------------------------------------------------------------------------

/-- What a call of the bus or the notifier comes to: a promise that resolves or
rejects, or an exception. -/
inductive Attempt where
  | resolves
  | rejects (reason : String)
  | throws (reason : String)

/-- It returns a promise. -/
def Attempt.Returns (a : Attempt) : Prop := ∀ reason, a ≠ .throws reason

/-- A promise: what it rejects with if it does, and whether that is handled. -/
structure Promise where
  rejects : Option String
  handled : Bool

/-- What is behind the ports, with the promises that were returned and the
deliveries that were called for. -/
structure Handed (σ : Type) where
  state : σ
  promises : List Promise
  deliveries : List Delivery

/-- What the environment supplies to a turn. -/
structure Collaborators (ι : Type) where
  port : ι
  attempt : Delivery → Attempt

variable {σ ι : Type}

/-- Nothing has been handed over. -/
def Handed.init (state : σ) : Handed σ := ⟨state, [], []⟩

/-- The promise that a call comes to, unless it throws. -/
def Handed.attempt (a : Attempt) (s : Handed σ) : Except Failure Nat × Handed σ :=
  match a with
  | .resolves => (.ok s.promises.length, { s with promises := s.promises ++ [⟨none, false⟩] })
  | .rejects reason =>
    (.ok s.promises.length, { s with promises := s.promises ++ [⟨some reason, false⟩] })
  | .throws reason => (.error (.port reason), s)

def Handed.catchAll (promise : Nat) (s : Handed σ) : Handed σ :=
  { s with promises := s.promises.modify promise fun p => { p with handled := true } }

variable (A : Adapter ports Failure σ ι)

def answer (i : Collaborators ι) : (call : DeliveryCall) → Handed σ → Except Failure call.Resp × Handed σ
  | .port call, s =>
    let (answer, state) := A.perform i.port call s.state
    (answer, { s with state })
  | .deliver delivery, s =>
    Handed.attempt (i.attempt delivery) { s with deliveries := s.deliveries ++ [delivery] }
  | .catchAll promise, s => (.ok (), s.catchAll promise)

/-- What the objects in an answer show now. -/
def refresh (s : Handed σ) : (call : DeliveryCall) → call.Resp → call.Resp
  | .port call, x => A.refresh s.state call x
  | .deliver _, x => x
  | .catchAll _, x => x

/-- The service over any adapter, with a bus and a notifier of any behaviour. -/
def system : System deliveryCalls Failure Reply (Handed σ) (Collaborators ι) Op where
  perform := answer A
  refresh := refresh A
  admissible i s := A.admissible i.port s.state
  tick i s := { s with state := A.tick i.port s.state }
  program op := op.program.implement expression
  arrive _ s := some s

-- ---------------------------------------------------------------------------
-- One delivery
-- ---------------------------------------------------------------------------

/-- No promise is left to reject unhandled. -/
def Handed.Handled (s : Handed σ) : Prop := ∀ p ∈ s.promises, p.handled = true

theorem handled_catchAll {s : Handed σ} (h : s.Handled) (p : Promise) :
    Handed.Handled (Handed.catchAll s.promises.length { s with promises := s.promises ++ [p] }) := by
  intro q hq
  obtain ⟨n, hn⟩ := List.mem_iff_getElem?.mp hq
  simp only [Handed.catchAll, List.getElem?_modify, Option.map_eq_map, Option.map_eq_some_iff] at hn
  obtain ⟨q', hq', rfl⟩ := hn
  split
  · rfl
  · next hother =>
    -- every other promise was there before
    have hlt : n < s.promises.length := by
      have hbound := (List.getElem?_eq_some_iff.mp hq').1
      simp only [List.length_append, List.length_singleton] at hbound
      omega
    rw [List.getElem?_append_left hlt] at hq'
    exact h q' (List.mem_of_getElem? hq')

theorem attempt_cases (a : Attempt) (s : Handed σ) :
    (a.Returns ∧ ∃ p, s.attempt a = (.ok s.promises.length, { s with promises := s.promises ++ [p] })) ∨
      ¬ a.Returns ∧ ∃ reason, s.attempt a = (.error (.port reason), s) := by
  cases a with
  | resolves => exact .inl ⟨nofun, _, rfl⟩
  | rejects reason => exact .inl ⟨nofun, _, rfl⟩
  | throws reason => exact .inr ⟨fun h => h reason rfl, reason, rfl⟩

/-- A state after more deliveries. -/
structure Delivered (s : Handed σ) (deliveries : List Delivery) (s' : Handed σ) : Prop where
  deliveries : s'.deliveries = s.deliveries ++ deliveries
  handled : s.Handled → s'.Handled

theorem Delivered.trans {s₁ s₂ s₃ : Handed σ} {ds ds' : List Delivery} (h : Delivered s₁ ds s₂)
    (h' : Delivered s₂ ds' s₃) : Delivered s₁ (ds ++ ds') s₃ :=
  ⟨by rw [h'.deliveries, h.deliveries, List.append_assoc], fun hs => h'.handled (h.handled hs)⟩

theorem advance_sync {r : DeliveryCall} {k : Except Failure r.Resp → Proc deliveryCalls Failure Reply}
    {i : Collaborators ι} {x : Except Failure r.Resp} {s s' : Handed σ} (h : answer A i r s = (x, s'))
    (hist : List (deliveryCalls.Event Failure)) :
    (system A).advance i (.sync r k) hist s = (system A).advance i (k x) (hist ++ [⟨r, x⟩]) s' := by
  have hperform : (system A).perform i r s = (x, s') := h
  rw [Adapter.advance, hperform]

/-- A delivery is called for, and its promise caught, or its exception goes on. -/
theorem advance_detached (d : Delivery) (K : Except Failure Unit → Proc deliveryCalls Failure Reply)
    (i : Collaborators ι) (h : List (deliveryCalls.Event Failure)) (s : Handed σ) :
    ∃ x h' s', (system A).advance i ((detached d).settle.bind K) h s = (system A).advance i (K x) h' s' ∧
      Delivered s [d] s' ∧ (x = .ok () ↔ (i.attempt d).Returns) := by
  let called : Handed σ := { s with deliveries := s.deliveries ++ [d] }
  rcases attempt_cases (i.attempt d) called with ⟨hreturns, p, hattempt⟩ | ⟨hthrows, reason, hattempt⟩
  · refine ⟨.ok (), h ++ [⟨.deliver d, .ok s.promises.length⟩] ++
      [⟨.catchAll s.promises.length, .ok ()⟩], Handed.catchAll called.promises.length
        { called with promises := called.promises ++ [p] }, ?_, ⟨rfl, ?_⟩, iff_of_true rfl hreturns⟩
    · have hanswer : answer A i (.deliver d) s = _ := hattempt
      exact (advance_sync A hanswer h).trans (advance_sync A rfl _)
    · exact fun hs => @handled_catchAll σ called hs p
  · have hanswer : answer A i (.deliver d) s = _ := hattempt
    exact ⟨.error (.port reason), h ++ [⟨.deliver d, .error (.port reason)⟩], called,
      (advance_sync A hanswer h).trans rfl, ⟨rfl, id⟩, iff_of_false nofun hthrows⟩

-- ---------------------------------------------------------------------------
-- After the write
-- ---------------------------------------------------------------------------

/-- The deliveries that follow a write: a deletion is published alone. -/
def following (op : Op) (m : Message) (recipientIds : List String) : List Delivery :=
  match op with
  | .sendMessage _ => [.publish m, .notify m recipientIds]
  | _ => [.publish m]

/-- Each of the deliveries that follow the write returns a promise. -/
def Returned (op : Op) (m : Message) (recipientIds : List String) (i : Collaborators ι) : Prop :=
  ∀ d ∈ following op m recipientIds, (i.attempt d).Returns

/-- The rest of a call whose write resolved settles in its turn: with the
message and with everything called for, exactly when the deliveries return. -/
def Finishes (op : Op) (m : Message) (recipientIds : List String) (p : Proc deliveryCalls Failure Reply) :
    Prop :=
  ∀ i h s, ∃ x, ((system A).advance i p h s).status = .settled x ∧
    (s.Handled → ((system A).advance i p h s).state.Handled) ∧
    (x = .ok (.message m) ∧ ((system A).advance i p h s).state.deliveries =
      s.deliveries ++ following op m recipientIds ↔ Returned op m recipientIds i)

/-- The rest of a send. -/
theorem finishes_send (input : SendMessageInput) (m : Message) (recipientIds : List String) :
    Finishes A (.sendMessage input) m recipientIds ((detached (.publish m)).settle.bind fun x =>
      ((Proc.ofExcept x).bind fun _ => (Jiffy.perform (.notify m recipientIds)).bind fun _ =>
        (.ret (.message m) : Service Reply)).implement expression) := by
  intro i h s
  obtain ⟨x, h₁, s₁, hadvance, hdelivered, hreturns⟩ := advance_detached A (.publish m)
    (fun x => ((Proc.ofExcept x).bind fun _ => (Jiffy.perform (.notify m recipientIds)).bind fun _ =>
      (.ret (.message m) : Service Reply)).implement expression) i h s
  rw [hadvance]
  have hfollowing : Returned (.sendMessage input) m recipientIds i ↔
      (i.attempt (.publish m)).Returns ∧ (i.attempt (.notify m recipientIds)).Returns := by
    simp [Returned, following]
  rw [hfollowing, ← hreturns]
  cases x with
  | error e =>
    refine ⟨.error e, rfl, hdelivered.handled, ?_⟩
    exact iff_of_false (fun hx => by cases hx.1) (fun hx => by cases hx.1)
  | ok _ =>
    obtain ⟨x', h₂, s₂, hadvance', hdelivered', hreturns'⟩ := advance_detached A (.notify m recipientIds)
      (fun x => ((Proc.ofExcept x).bind fun _ => (.ret (.message m) : Service Reply)).implement expression)
      i h₁ s₁
    have hnext : (system A).advance i (((Proc.ofExcept (.ok ())).bind fun _ =>
        (Jiffy.perform (.notify m recipientIds)).bind fun _ =>
          (.ret (.message m) : Service Reply)).implement expression) h₁ s₁ = _ := hadvance'
    have hboth := hdelivered.trans hdelivered'
    rw [hnext, ← hreturns']
    cases x' with
    | error e =>
      refine ⟨.error e, rfl, hboth.handled, ?_⟩
      exact iff_of_false (fun hx => by cases hx.1) (fun hx => by cases hx.2)
    | ok _ => exact ⟨.ok (.message m), rfl, hboth.handled, iff_of_true ⟨rfl, hboth.deliveries⟩ ⟨rfl, rfl⟩⟩

/-- The rest of a deletion. -/
theorem finishes_delete {op : Op} (hop : ∀ input, op ≠ .sendMessage input) (m : Message)
    (recipientIds : List String) : Finishes A op m recipientIds ((detached (.publish m)).settle.bind fun x =>
      ((Proc.ofExcept x).bind fun _ => (.ret (.message m) : Service Reply)).implement expression) := by
  intro i h s
  obtain ⟨x, h₁, s₁, hadvance, hdelivered, hreturns⟩ := advance_detached A (.publish m)
    (fun x => ((Proc.ofExcept x).bind fun _ =>
      (.ret (.message m) : Service Reply)).implement expression) i h s
  have hfollowing : following op m recipientIds = [.publish m] := by
    unfold following
    split
    · next input => exact absurd rfl (hop input)
    · rfl
  have hreturned : Returned op m recipientIds i ↔ (i.attempt (.publish m)).Returns := by
    simp [Returned, hfollowing]
  rw [hadvance, hreturned, hfollowing, ← hreturns]
  cases x with
  | error e =>
    refine ⟨.error e, rfl, hdelivered.handled, ?_⟩
    exact iff_of_false (fun hx => by cases hx.1) (fun hx => by cases hx)
  | ok _ => exact ⟨.ok (.message m), rfl, hdelivered.handled, iff_of_true ⟨rfl, hdelivered.deliveries⟩ rfl⟩

-- ---------------------------------------------------------------------------
-- Where the operations wait
-- ---------------------------------------------------------------------------

/-- Up to its next await the program leaves the bus and the notifier alone. -/
def Plain : Proc deliveryCalls Failure Reply → Prop
  | .sync (.port _) k => ∀ x, Plain (k x)
  | .sync _ _ => False
  | .await (.port _) _ => True
  | .await _ _ => False
  | _ => True

theorem advance_plain {p : Proc deliveryCalls Failure Reply} (hp : Plain p) (i : Collaborators ι)
    (h : List (deliveryCalls.Event Failure)) (s : Handed σ) :
    ((system A).advance i p h s).state.promises = s.promises := by
  induction p generalizing h s with
  | ret a => rfl
  | throw e => rfl
  | sync r k ih =>
    cases r with
    | port call => exact ih _ (hp _) _ _
    | deliver d => cases hp
    | catchAll promise => cases hp
  | await r k ih =>
    cases r with
    | port call => rfl
    | deliver d => cases hp
    | catchAll promise => cases hp
  | pause p ih => rfl

/-- The recipients of a message: those that the gate was asked about, without
the sender. -/
def Recipients (op : Op) (h : List (deliveryCalls.Event Failure)) (recipientIds : List String) : Prop :=
  ∀ input, op = .sendMessage input → ∃ participantIds x,
    ⟨.port (.canCreateConversation input.senderId participantIds), x⟩ ∈ h ∧
      recipientIds = participantIds.filter fun id => id ≠ input.senderId

/-- Where a call of `op` awaits, and how it goes on: past a write that resolved
it finishes, otherwise it leaves the bus and the notifier alone. -/
def Awaits (op : Op) : Awaiting deliveryCalls Failure Reply
  | h, .port (.createMessage _), k => (∀ e, Plain (k (.error e))) ∧
    ∃ recipientIds, Recipients op h recipientIds ∧ ∀ m, Finishes A op m recipientIds (k (.ok m))
  | h, .port (.softDelete _ _), k => (∀ e, Plain (k (.error e))) ∧
    ∃ recipientIds, Recipients op h recipientIds ∧ ∀ m, Finishes A op m recipientIds (k (.ok m))
  | _, _, k => ∀ x, Plain (k x)

/-- The program of an operation past a history, with its deliveries spelled
out. -/
structure Careful (op : Op) (h : List (deliveryCalls.Event Failure)) (p : Service Reply) : Prop where
  plain : Plain (p.implement expression)
  awaits : (p.implement expression).AwaitsAll (Awaits A op) h

/-- The calls that are neither the write of a message nor a delivery. -/
def Quiet : PortCall → Prop
  | .createMessage _ | .softDelete _ _ | .publish _ | .notify _ _ => False
  | _ => True

theorem expression_quiet {call : PortCall} (h : Quiet call) :
    expression call = @Proc.request deliveryCalls Failure (.port call) ∨
      expression call = @Proc.perform deliveryCalls Failure (.port call) := by
  cases call with
  | newDate => exact .inr rfl
  | createMessage _ => cases h
  | softDelete _ _ => cases h
  | publish _ => cases h
  | notify _ _ => cases h
  | _ => exact .inl rfl

theorem awaits_quiet {op : Op} {call : PortCall} (hquiet : Quiet call)
    {h : List (deliveryCalls.Event Failure)} {k : Except Failure call.Resp → Proc deliveryCalls Failure Reply}
    (hk : ∀ x, Plain (k x)) : Awaits A op h (.port call) k := by
  cases call with
  | createMessage _ => cases hquiet
  | softDelete _ _ => cases hquiet
  | publish _ => cases hquiet
  | notify _ _ => cases hquiet
  | _ => exact hk

namespace Careful

variable {A} {op : Op} {h : List (deliveryCalls.Event Failure)} {β : Type}

theorem ret (reply : Reply) : Careful A op h (.ret reply) := ⟨trivial, trivial⟩

theorem throw (e : Failure) : Careful A op h (.throw e) := ⟨trivial, trivial⟩

theorem ofExcept (x : Except Failure β) {f : β → Service Reply} (hf : ∀ b, Careful A op h (f b)) :
    Careful A op h ((Proc.ofExcept x).bind f) := by
  cases x with
  | ok b => exact hf b
  | error e => exact throw e

/-- One quiet call, awaited or not. -/
theorem quiet {r : PortCall} (hr : Quiet r) {k : Except Failure r.Resp → Service Reply}
    (hk : ∀ x y, Careful A op (h ++ [⟨.port r, x⟩]) (k y)) :
    Careful A op h (.await r k) ∧ Careful A op h (.sync r k) := by
  suffices hboth : Plain ((expression r).settle.bind fun x => (k x).implement expression) ∧
      ((expression r).settle.bind fun x => (k x).implement expression).AwaitsAll (Awaits A op) h from
    ⟨⟨hboth.1, hboth.2⟩, ⟨hboth.1, hboth.2⟩⟩
  rcases expression_quiet hr with heq | heq
  · rw [heq, Proc.settle_request]
    exact ⟨trivial, awaits_quiet A hr fun y => (hk y y).plain, fun x y => (hk x y).awaits⟩
  · rw [heq, Proc.settle_perform]
    exact ⟨fun x => (hk x x).plain, fun x => (hk x x).awaits⟩

theorem request {r : PortCall} (hr : Quiet r) {f : r.Resp → Service Reply}
    (hf : ∀ x b, Careful A op (h ++ [⟨.port r, x⟩]) (f b)) : Careful A op h ((Jiffy.request r).bind f) :=
  (quiet hr fun x y => ofExcept y (hf x)).1

theorem perform {r : PortCall} (hr : Quiet r) {f : r.Resp → Service Reply}
    (hf : ∀ x b, Careful A op (h ++ [⟨.port r, x⟩]) (f b)) : Careful A op h ((Jiffy.perform r).bind f) :=
  (quiet hr fun x y => ofExcept y (hf x)).2

theorem awaitParticipant (c u : String) {f : Conversation → Service Reply}
    (hf : ∀ h conversation, Careful A op h (f conversation)) :
    Careful A op h ((MessagingService.awaitParticipant c u).bind f) := by
  unfold MessagingService.awaitParticipant MessagingService.requireParticipant
  simp only [Proc.bind_eq_bind, Proc.bind_assoc]
  refine request (r := .findConversation c) trivial fun x found => ?_
  cases found with
  | none => exact throw _
  | some conversation =>
    simp only
    split
    · exact request (r := .settled conversation) trivial fun x => hf _
    · exact throw _

/-- The write of a message that is sent. -/
theorem createMessage {input : SendMessageInput} (new : NewMessage) {recipientIds : List String}
    (hrecipients : Recipients (.sendMessage input) h recipientIds) :
    Careful A (.sendMessage input) h ((Jiffy.request (.createMessage new)).bind fun m =>
      (Jiffy.perform (.publish m)).bind fun _ => (Jiffy.perform (.notify m recipientIds)).bind fun _ =>
        .ret (.message m)) := by
  refine ⟨trivial, ⟨fun e => trivial, recipientIds, hrecipients,
    fun m => finishes_send A input m recipientIds⟩, ?_⟩
  intro _ y
  cases y with
  | error e => trivial
  | ok m =>
    intro x
    cases x with
    | error e => trivial
    | ok promise =>
      intro x
      cases x with
      | error e => trivial
      | ok _ =>
        intro x
        cases x with
        | error e => trivial
        | ok promise =>
          intro x
          cases x <;> trivial

/-- The write of a deletion. -/
theorem softDelete (hop : ∀ input, op ≠ .sendMessage input) (id : String) (at_ : Int) :
    Careful A op h ((Jiffy.request (.softDelete id at_)).bind fun m =>
      (Jiffy.perform (.publish m)).bind fun _ => .ret (.message m)) := by
  refine ⟨trivial, ⟨fun e => trivial, [], fun input heq => absurd heq (hop input),
    fun m => finishes_delete A hop m []⟩, ?_⟩
  intro _ y
  cases y with
  | error e => trivial
  | ok m =>
    intro x
    cases x with
    | error e => trivial
    | ok promise =>
      intro x
      cases x <;> trivial

end Careful

theorem program_careful (op : Op) : Careful A op [] op.program := by
  cases op with
  | createConversation requesterId participantIds =>
    unfold Op.program MessagingService.createConversation
    simp only [Proc.bind_eq_bind, Proc.bind_assoc]
    refine .request (r := .canCreateConversation requesterId participantIds) trivial fun x allowed => ?_
    split
    · exact .request (r := .createConversation participantIds) trivial fun _ _ => .ret _
    · exact .throw _
  | getConversation c u => exact .awaitParticipant c u fun _ _ => .ret _
  | listConversations u =>
    unfold Op.program MessagingService.listConversations
    simp only [Proc.bind_eq_bind, Proc.bind_assoc]
    refine .request (r := .findByParticipant u) trivial fun x conversations => ?_
    exact .request (r := .listPreviews _) trivial fun _ _ => .ret _
  | sendMessage input =>
    show Careful A _ _ ((MessagingService.sendMessage input).bind fun m => .ret (.message m))
    unfold MessagingService.sendMessage
    split
    · exact .throw _
    simp only [Proc.bind_eq_bind, Proc.bind_assoc]
    refine .awaitParticipant _ _ fun h conversation => ?_
    refine .request (r := .canCreateConversation _ _) trivial fun x allowed => ?_
    split
    · simp only [Proc.bind_assoc]
      refine .createMessage _ fun input' heq => ?_
      cases heq
      exact ⟨_, x, List.mem_append_right _ (List.mem_singleton.mpr rfl), rfl⟩
    · exact .throw _
  | listMessages c u options =>
    unfold Op.program MessagingService.listMessages
    simp only [Proc.bind_eq_bind, Proc.bind_assoc]
    refine .awaitParticipant c u fun h conversation => ?_
    exact .request (r := .listByConversation c _) trivial fun _ _ => .ret _
  | deleteMessage c messageId u =>
    unfold Op.program MessagingService.deleteMessage
    simp only [Proc.bind_eq_bind, Proc.bind_assoc]
    refine .awaitParticipant c u fun h conversation => ?_
    refine .request (r := .findMessage messageId) trivial fun x found => ?_
    cases found with
    | none => exact .throw _
    | some message =>
      simp only
      split
      · exact .throw _
      split
      · exact .throw _
      split
      · exact .ret _
      simp only [Proc.bind_assoc]
      refine .perform (r := .newDate) trivial fun x now => ?_
      exact .softDelete (fun input heq => by cases heq) messageId now
  | deleteConversation c u =>
    unfold Op.program MessagingService.deleteConversation
    simp only [Proc.bind_eq_bind, Proc.bind_assoc]
    refine .awaitParticipant c u fun h conversation => ?_
    refine .perform (r := .newDate) trivial fun x now => ?_
    exact .request (r := .clear c u now) trivial fun _ _ => .ret _
  | markRead c u at_ =>
    unfold Op.program MessagingService.markRead
    simp only [Proc.bind_eq_bind, Proc.bind_assoc]
    refine .awaitParticipant c u fun h conversation => ?_
    exact .request (r := .markRead c u at_) trivial fun _ _ => .ret _

-- ---------------------------------------------------------------------------
-- Reported writes
-- ---------------------------------------------------------------------------

/-- A program that goes on from where it waits leaves no promise unhandled. -/
theorem Awaits.handled {op : Op} {h : List (deliveryCalls.Event Failure)} {r : DeliveryCall}
    {k : Except Failure r.Resp → Proc deliveryCalls Failure Reply} (hk : Awaits A op h r k)
    (x : Except Failure r.Resp) (i : Collaborators ι) (hist : List (deliveryCalls.Event Failure))
    {s : Handed σ} (hs : s.Handled) : ((system A).advance i (k x) hist s).state.Handled := by
  have hplain : Plain (k x) → ((system A).advance i (k x) hist s).state.Handled := by
    intro hplain p hp
    rw [advance_plain A hplain] at hp
    exact hs p hp
  unfold Awaits at hk
  split at hk
  · cases x with
    | error e => exact hplain (hk.1 e)
    | ok m =>
      obtain ⟨-, recipientIds, -, hfinishes⟩ := hk
      obtain ⟨_, -, hhandled, -⟩ := hfinishes m i hist s
      exact hhandled hs
  · cases x with
    | error e => exact hplain (hk.1 e)
    | ok m =>
      obtain ⟨-, recipientIds, -, hfinishes⟩ := hk
      obtain ⟨_, -, hhandled, -⟩ := hfinishes m i hist s
      exact hhandled hs
  · exact hplain (hk x)

variable {c c' : Config deliveryCalls Failure Reply (Handed σ) Op}

theorem step_handled {l : Label (Collaborators ι) Op} (hwaits : System.Waits (system A) (Awaits A) c)
    (hc : c.world.Handled) (h : (system A).step c l = some c') : c'.world.Handled := by
  obtain ⟨τ⟩ := (system A).step_turn h
  rw [τ.world]
  rcases τ.origin with ⟨-, -, -, hp, harrive⟩ | ⟨-, hstate, k, hcall, hp⟩
  · have hstate : (system A).tick τ.input c.world = τ.state := Option.some.inj harrive
    have hplain : Plain ((system A).program τ.op) := (program_careful A τ.op).plain
    rw [hp, ← hstate]
    intro p hmem
    rw [advance_plain A hplain] at hmem
    exact hc p hmem
  · obtain ⟨w⟩ := hwaits hcall
    rw [hp, w.resumes, hstate]
    exact Awaits.handled A w.awaited _ _ _ hc

/-- Nothing that the bus or the notifier rejects with is ever unhandled. -/
theorem runs_handled {s : σ} {ls : List (Label (Collaborators ι) Op)}
    (h : (system A).runs (.idle (.init s)) ls = some c) :
    System.Waits (system A) (Awaits A) c ∧ c.world.Handled := by
  have hprog : ∀ op, ((system A).program op).AwaitsAll (Awaits A op) [] := fun op =>
    (program_careful A op).awaits
  suffices hall : ∀ ls {c c' : Config deliveryCalls Failure Reply (Handed σ) Op},
      System.Waits (system A) (Awaits A) c ∧ c.world.Handled → (system A).runs c ls = some c' →
        System.Waits (system A) (Awaits A) c' ∧ c'.world.Handled from
    hall ls ⟨System.waits_idle _, fun p hp => by cases hp⟩ h
  intro ls
  induction ls with
  | nil =>
    intro c c' hc h
    cases h
    exact hc
  | cons l ls ih =>
    intro c c' hc h
    rw [System.runs_cons, Option.bind_eq_some_iff] at h
    obtain ⟨c₁, h₁, h₂⟩ := h
    exact ih ⟨System.step_waits hprog hc.1 h₁, step_handled A hc.1 hc.2 h₁⟩ h₂

/-- The message that a write resolved with, as it shows by now. -/
def stored (s : σ) : deliveryCalls.Event Failure → Option Message
  | ⟨.port (.createMessage new), .ok m⟩ => some (A.refresh s (.createMessage new) m)
  | ⟨.port (.softDelete id at_), .ok m⟩ => some (A.refresh s (.softDelete id at_) m)
  | _ => none

/-- Past its write, a call resolves with the message, leaves no rejection
unhandled, and calls for every delivery. -/
structure Reported (op : Op) (m : Message) (recipientIds : List String) (id : Nat)
    (c c' : Config deliveryCalls Failure Reply (Handed σ) Op) : Prop where
  resolved : c'.Settled id op (.ok (.message m))
  handled : c'.world.Handled
  delivered : c'.world.deliveries = c.world.deliveries ++ following op m recipientIds

/-- A call that waits for a write finishes with what the write resolved with. -/
theorem Awaits.finishes {op : Op} {h : List (deliveryCalls.Event Failure)} {r : DeliveryCall}
    {k : Except Failure r.Resp → Proc deliveryCalls Failure Reply} (hk : Awaits A op h r k)
    {x : Except Failure r.Resp} {s : Handed σ} {m : Message} (hm : stored A s.state ⟨r, x⟩ = some m) :
    ∃ recipientIds, Recipients op h recipientIds ∧
      Finishes A op m recipientIds (k (x.map ((system A).refresh s r))) := by
  cases r with
  | deliver d => cases hm
  | catchAll promise => cases hm
  | port call =>
    cases call with
    | createMessage new =>
      cases x with
      | error e => cases hm
      | ok m' =>
        cases hm
        obtain ⟨-, recipientIds, hrecipients, hfinishes⟩ := hk
        exact ⟨recipientIds, hrecipients, hfinishes _⟩
    | softDelete id at_ =>
      cases x with
      | error e => cases hm
      | ok m' =>
        cases hm
        obtain ⟨-, recipientIds, hrecipients, hfinishes⟩ := hk
        exact ⟨recipientIds, hrecipients, hfinishes _⟩
    | _ => cases hm

/-- A durable write is reported as a success exactly when each of the calls that
follow it returns a promise, whatever becomes of the promise. -/
theorem write_reported_iff {s₀ : σ} {ls : List (Label (Collaborators ι) Op)}
    (hruns : (system A).runs (.idle (.init s₀)) ls = some c) {id : Nat} {op : Op}
    {hist : List (deliveryCalls.Event Failure)} {e : deliveryCalls.Event Failure}
    {k : Handed σ → Proc deliveryCalls Failure Reply}
    (hcall : c.calls id = some ⟨op, hist ++ [e], .suspended k⟩) {i : Collaborators ι}
    (hstep : (system A).step c (.resume id i) = some c') {m : Message}
    (hm : stored A ((system A).tick i c.world).state e = some m) :
    ∃ recipientIds, Recipients op hist recipientIds ∧
      (Reported op m recipientIds id c c' ↔ Returned op m recipientIds i) := by
  obtain ⟨hwaits, hhandled⟩ := runs_handled A hruns
  obtain ⟨w⟩ := hwaits hcall
  obtain ⟨τ⟩ := (system A).step_turn hstep
  -- the call goes on from where it waits
  rcases τ.origin with ⟨hl, -⟩ | ⟨hl, hstate, k', hcall', hprogram⟩
  · cases hl
  have hinput : i = τ.input := τ.input_eq
  obtain ⟨hop, hhist, hk⟩ := Call.mk.inj (Option.some.inj (hcall.symm.trans hcall'))
  cases hk
  obtain ⟨hbefore, hlast⟩ := List.append_inj' w.history rfl
  have hlast : e = ⟨w.request, w.answer⟩ := List.singleton_inj.mp hlast
  rw [hlast] at hm
  obtain ⟨recipientIds, hrecipients, hfinishes⟩ := Awaits.finishes A w.awaited hm
  refine ⟨recipientIds, hbefore ▸ hrecipients, ?_⟩
  obtain ⟨x, hstatus, hkept, hiff⟩ := hfinishes i τ.history ((system A).tick i c.world)
  have hresume : k ((system A).tick i c.world) =
      w.follow (w.answer.map ((system A).refresh ((system A).tick i c.world) w.request)) :=
    congrFun w.resumes _
  have hown := τ.own
  have hworld := τ.world
  rw [hprogram, hstate, ← hinput, hresume] at hown hworld
  rw [← hop, hstatus] at hown
  rw [← hiff, ← hworld]
  constructor
  · intro h
    obtain ⟨hist', hsettled⟩ := h.resolved
    cases hown.symm.trans hsettled
    exact ⟨rfl, h.delivered⟩
  · rintro ⟨rfl, hdelivered⟩
    exact ⟨⟨_, hown⟩, hworld ▸ hkept hhandled, hdelivered⟩

/-- A turn at reading 1 under `ALLOW_ALL_GATE`, with this bus and notifier. -/
def behaving (uuid : String) (attempt : Delivery → Attempt) : Collaborators Input :=
  ⟨.allowAll 1 uuid, attempt⟩

/-- Ann creates a conversation with Bob and sends a message up to its write. -/
def upToWrite : List (Label (Collaborators Input) Op) :=
  Label.turns 0 (.createConversation "ann" ["ann", "bob"]) (behaving "c" fun _ => .resolves) 1 ++
  [.resume 0 (behaving "x" fun _ => .resolves)] ++
  Label.turns 1 (.sendMessage ⟨"c", "ann", "hello"⟩) (behaving "m" fun _ => .resolves) 3

/-- The bus is down, and says so through its promise. -/
def busRejects : Delivery → Attempt
  | .publish _ => .rejects "bus unavailable"
  | .notify _ _ => .resolves

/-- The bus throws. -/
def busThrows : Delivery → Attempt
  | .publish _ => .throws "bus unavailable"
  | .notify _ _ => .resolves

/-- The rejection of the bus is not the sender's. -/
theorem write_reported_rejecting_bus :
    ∃ (c c' : Config deliveryCalls Failure Reply (Handed World) Op) (m : Message)
      (recipientIds : List String),
      (system InMemory.adapter).runs (.idle (.init (World.init 0))) upToWrite = some c ∧
      (system InMemory.adapter).step c (.resume 1 (behaving "x" busRejects)) = some c' ∧
      Reported (.sendMessage ⟨"c", "ann", "hello"⟩) m recipientIds 1 c c' := by
  have hruns : (system InMemory.adapter).runs (.idle (.init (World.init 0))) upToWrite = some _ := rfl
  obtain ⟨recipientIds, -, hiff⟩ := @write_reported_iff World Input InMemory.adapter _ _ _ _ hruns 1
    (.sendMessage ⟨"c", "ann", "hello"⟩) [_, _, _] _ _ rfl (behaving "x" busRejects) rfl _ rfl
  refine ⟨_, _, _, recipientIds, hruns, rfl, hiff.mpr fun d _ reason => ?_⟩
  cases d with
  | publish m => exact fun h => by cases h
  | notify m ids => exact fun h => by cases h

/-- The message is stored, its sender is told that it failed, and the notifier
is not called. -/
theorem stored_not_reported :
    ∃ (c c' : Config deliveryCalls Failure Reply (Handed World) Op) (m : Message),
      (system InMemory.adapter).runs (.idle (.init (World.init 0))) upToWrite = some c ∧
      (system InMemory.adapter).step c (.resume 1 (behaving "x" busThrows)) = some c' ∧
      c'.world.state.messages.findById "m" = some m ∧
      c'.Settled 1 (.sendMessage ⟨"c", "ann", "hello"⟩) (.error (.port "bus unavailable")) ∧
      c'.world.deliveries.length = 1 :=
  ⟨_, _, _, rfl, rfl, rfl, ⟨_, rfl⟩, rfl⟩

end BestEffort

end Jiffy
