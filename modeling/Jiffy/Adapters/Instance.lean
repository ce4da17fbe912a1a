-- SUMMARY: The WebSocket layer of one instance of a deployment, over messages of any kind.
import Jiffy.Lib.Json
import Jiffy.WebSocket.Delivery

/-!
# One instance

What `attachWebSocketServer` does in one process of several that share a store.
What the bus hands over is a message where the bus is in the process, and a
revived value where it came over a channel.
-/

namespace Jiffy

open Js Async

variable {μ : Type}

/-- What the WebSocket layer of an instance asks for. -/
inductive InstanceCall (μ : Type) where
  /-- `conversations.findById` -/
  | findConversation (id : Option Value)
  /-- `wss.handleUpgrade` -/
  | handleUpgrade
  /-- `registry.add` -/
  | register (userId : String) (socket : Nat)
  /-- `registry.remove` -/
  | unregister (userId : String) (socket : Nat)
  /-- `registry.get` -/
  | socketsOf (userId : String)
  /-- `socket.readyState === socket.OPEN` -/
  | isOpen (socket : Nat)
  /-- `socket.send(JSON.stringify(message))` -/
  | send (socket : Nat) (message : μ)

@[reducible] def InstanceCall.Resp : InstanceCall μ → Type
  | .findConversation _ => Option Conversation
  | .handleUpgrade => Nat
  | .register _ _ => Unit
  | .unregister _ _ => Unit
  | .socketsOf _ => List Nat
  | .isOpen _ => Bool
  | .send _ _ => Unit

abbrev instanceCalls (μ : Type) : Interface := ⟨InstanceCall μ, InstanceCall.Resp⟩

/-- What the environment supplies to an instance: the number of the next
socket, and how the conversation store answers. -/
structure InstanceInput where
  next : Nat
  findById : Option Value → Except Failure (Option Conversation)

namespace Instance

def perform (i : InstanceInput) : (call : InstanceCall μ) → Sockets μ →
    Except Failure call.Resp × Sockets μ
  | .findConversation id, s => (i.findById id, s)
  | .handleUpgrade, s => (.ok i.next, { s with opened := s.opened ++ [i.next], next := i.next + 1 })
  | .register userId socket, s => (.ok (), { s with registry := s.registry.add userId socket })
  | .unregister userId socket, s => (.ok (), { s with registry := s.registry.remove userId socket })
  | .socketsOf userId, s => (.ok (s.registry.get userId), s)
  | .isOpen socket, s => (.ok (decide (socket ∈ s.opened)), s)
  | .send socket message, s => (.ok (), { s with frames := s.frames ++ [⟨socket, message⟩] })

def adapter (μ : Type) : Adapter (instanceCalls μ) Failure (Sockets μ) InstanceInput where
  perform := perform
  refresh _ _ x := x
  admissible _ _ := true
  tick _ s := s

/-- A call whose answer the same turn uses or drops. -/
abbrev syncCall (call : InstanceCall μ) : Proc (instanceCalls μ) Failure call.Resp :=
  @Proc.perform (instanceCalls μ) Failure call

/-- The WebSocket layer of an instance, given how `message.conversationId` reads. -/
def live (conversationIdOf : μ → Except Failure (Option Value)) :
    LiveConnections (instanceCalls μ) μ where
  findConversation message := do
    let id ← Proc.ofExcept (conversationIdOf message)
    @Proc.request (instanceCalls μ) Failure (.findConversation id)
  handleUpgrade := syncCall .handleUpgrade
  add userId socket := syncCall (.register userId socket)
  remove userId socket := syncCall (.unregister userId socket)
  get userId := syncCall (.socketsOf userId)
  isOpen socket := syncCall (.isOpen socket)
  send socket message := syncCall (.send socket message)

variable (conversationIdOf : μ → Except Failure (Option Value))

/-- The sockets of an instance. -/
def host : SocketHost (adapter μ) (live conversationIdOf) where
  sockets := id
  send s frame := { s with frames := s.frames ++ [frame] }
  get _ _ _ := rfl
  isOpen _ _ _ := rfl
  run_send _ _ _ _ := rfl
  sockets_send _ _ := rfl

/-- The subscriber's handler for one message, run to its end. -/
def handOver (i : InstanceInput) (message : μ) (s : Sockets μ) : Except Failure Unit × Sockets μ :=
  (adapter μ).run i ((live conversationIdOf).deliverToParticipants message) s

/-- An upgrade that was verified for a user. -/
def upgrade (i : InstanceInput) (userId : String) (s : Sockets μ) : Sockets μ :=
  let opened := do
    let socket ← (live conversationIdOf).handleUpgrade
    (live conversationIdOf).add userId socket
  ((adapter μ).run i opened s).2

/-- A socket leaves `OPEN`. -/
def closing (socket : Nat) (s : Sockets μ) : Sockets μ :=
  { s with opened := s.opened.filter fun t => t ≠ socket }

/-- The listener of a user's socket for `close`. -/
def closed (i : InstanceInput) (userId : String) (socket : Nat) (s : Sockets μ) : Sockets μ :=
  ((adapter μ).run i ((live conversationIdOf).remove userId socket) s).2

/-- The frames of one message. -/
def framesOf (s : Sockets μ) (message : μ) (conversation : Conversation) : List (Frame μ) :=
  (s.recipients conversation.participants).map fun socket => ⟨socket, message⟩

/-- A delivery fails as its lookup does, or sends the frames of the
conversation that it finds. -/
theorem handOver_eq (i : InstanceInput) (message : μ) (s : Sockets μ) :
    handOver conversationIdOf i message s =
      match conversationIdOf message >>= i.findById with
      | .error e => (.error e, s)
      | .ok found => (.ok (), { s with
          frames := s.frames ++ found.elim [] (framesOf s message) }) := by
  have hfound : (adapter μ).run i ((live conversationIdOf).findConversation message) s =
      (conversationIdOf message >>= i.findById, s) := by
    simp only [live, Proc.bind_eq_bind, Adapter.run_bind, Adapter.run_ofExcept]
    cases conversationIdOf message with
    | error e => rfl
    | ok id => exact (adapter μ).run_request i (.findConversation id) s
  unfold handOver
  cases hresult : conversationIdOf message >>= i.findById with
  | error e =>
    rw [hresult] at hfound
    simp only [LiveConnections.deliverToParticipants, Proc.bind_eq_bind, Adapter.run_bind, hfound]
  | ok found =>
    rw [hresult] at hfound
    rw [(host conversationIdOf).run_deliverToParticipants i message hfound]
    cases found with
    | none => simp
    | some conversation =>
      exact congrArg (Prod.mk _) ((host conversationIdOf).sockets_sendAll message _ s)

end Instance

end Jiffy
