-- SUMMARY: Two deployments over one store: any number of instances behind Redis, and a single instance with the in-process bus.
import Jiffy.Adapters.InProcess
import Jiffy.Adapters.Redis

/-!
# Deployments

The same events against two deployments. Every event, with the deliveries it
triggers, ends before the next one begins, and Redis hands every payload to
every instance once.
-/

namespace Jiffy

open Js RedisMessageBus

/-- A store behind calls from outside, as far as live delivery goes: a call may
publish messages, and a delivery looks conversations up. -/
structure SharedStore (α β : Type) where
  State : Type
  call : Input → α → State → Option (β × State × List Message)
  findById : State → String → Option Conversation
  /-- `createdAt` is a `Date`. -/
  dated : ∀ {i a s b s' messages}, call i a s = some (b, s', messages) →
    ∀ m ∈ messages, IsTime m.createdAt

namespace SharedStore

variable {α β : Type} (store : SharedStore α β)

/-- The lookup of a delivery. -/
def lookup (s : store.State) : Option Value → Except Failure (Option Conversation)
  | some (.string id) => .ok (store.findById s id)
  | _ => .ok none

-- ---------------------------------------------------------------------------
-- A single instance
-- ---------------------------------------------------------------------------

/-- The store, and the sockets of the one instance. -/
structure Single where
  state : store.State
  sockets : Sockets Message

/-- `message.conversationId`, of a message. -/
def conversationIdOfMessage (m : Message) : Except Failure (Option Value) :=
  .ok (some (.string m.conversationId))

/-- The in-process bus emits a message to its subscriber on the spot. -/
def emit (state : store.State) (sockets : Sockets Message) (m : Message) : Sockets Message :=
  (Instance.handOver conversationIdOfMessage ⟨sockets.next, store.lookup state⟩ m sockets).2

/-- What happens to a single instance. -/
def single : Machine store.Single (Input × Happening α) (Option β) where
  step x p :=
    match x.2 with
    | .call a => (store.call x.1 a p.state).map fun (answer, state, messages) =>
      (some answer, ⟨state, messages.foldl (store.emit state) p.sockets⟩)
    | .upgraded userId =>
      let i := ⟨p.sockets.next, store.lookup p.state⟩
      some (none, ⟨p.state, Instance.upgrade conversationIdOfMessage i userId p.sockets⟩)
    | .closing socket =>
      if socket ∈ p.sockets.opened then
        some (none, ⟨p.state, Instance.closing socket p.sockets⟩)
      else none
    | .closed userId socket =>
      let i := ⟨p.sockets.next, store.lookup p.state⟩
      if socket ∈ p.sockets.registry.get userId ∧ socket ∉ p.sockets.opened then
        some (none, ⟨p.state, Instance.closed conversationIdOfMessage i userId socket p.sockets⟩)
      else none

-- ---------------------------------------------------------------------------
-- Instances behind Redis
-- ---------------------------------------------------------------------------

variable (engine : Engine) (n : Nat)

/-- The store, the instances, and which of them each socket belongs to. -/
structure Cluster where
  state : store.State
  nodes : Fin n → Redis.Node
  owners : List (Fin n)

/-- A payload arrives at an instance, and its delivery ends. -/
def arrive (state : store.State) (p : Redis.Node) (payload : String) : Redis.Node :=
  let p := p.receive engine channel payload
  p.pending.foldl (fun p message =>
    p.deliver (conversationIdOf message >>= store.lookup state) message) { p with pending := [] }

variable {store n} in
/-- Something happens to the sockets of one instance. -/
def Cluster.onNode (c : store.Cluster n) (k : Fin n) (f : Sockets Value → Sockets Value) :
    store.Cluster n :=
  { c with nodes := Function.update c.nodes k { c.nodes k with sockets := f (c.nodes k).sockets } }

/-- What happens to the instance that it is assigned to; what a call publishes
goes to all of them. -/
def cluster : Machine (store.Cluster n) (Fin n × Input × Happening α) (Option β) where
  step x c :=
    let k := x.1
    let i := ⟨c.owners.length, store.lookup c.state⟩
    let sockets := (c.nodes k).sockets
    match x.2.2 with
    | .call a => (store.call x.2.1 a c.state).map fun (answer, state, messages) =>
      let nodes := fun j => (messages.map (payloadOf engine)).foldl (store.arrive engine state) (c.nodes j)
      (some answer, { c with state, nodes })
    | .upgraded userId =>
      let c' := c.onNode k (Instance.upgrade conversationIdOf i userId)
      some (none, { c' with owners := c.owners ++ [k] })
    | .closing socket =>
      if socket ∈ sockets.opened then some (none, c.onNode k (Instance.closing socket)) else none
    | .closed userId socket =>
      if socket ∈ sockets.registry.get userId ∧ socket ∉ sockets.opened then
        some (none, c.onNode k (Instance.closed conversationIdOf i userId socket))
      else none

variable {store n}

/-- Nobody connected yet. -/
def Single.init (state : store.State) : store.Single := ⟨state, .empty⟩

/-- Every instance subscribed, and nobody connected yet. -/
def Cluster.init (state : store.State) : store.Cluster n := ⟨state, fun _ => .init, []⟩

end SharedStore

/-- The texts of the frames that went out on a socket, in order. -/
def Sockets.textsOn {μ : Type} (text : μ → String) (sockets : Sockets μ) (socket : Nat) : List String :=
  (sockets.frames.filter fun f => f.socket = socket).map fun f => text f.message

end Jiffy
