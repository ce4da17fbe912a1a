-- SUMMARY: One process: the in-memory stores, the in-process bus and the live connections, with what happens to it one event after another.
import Jiffy.Adapters.InMemory
import Jiffy.Http.ConversationsRouter
import Jiffy.Lib.Machine
import Jiffy.WebSocket.Delivery

/-!
# One process

`src/adapters/in-process/message-bus.ts` with `attachWebSocketServer` as its
subscriber, over the in-memory stores. The bus emits a published message to the
subscriber on the spot; here every event, with the deliveries it triggers, ends
before the next one begins.
-/

namespace Jiffy

open Js Async

/-- What the service and the WebSocket layer ask of the process. -/
inductive ProcessCall where
  | port (call : PortCall)
  /-- `wss.handleUpgrade` -/
  | handleUpgrade
  /-- `registry.add` -/
  | register (userId : String) (socket : Nat)
  /-- `registry.remove` -/
  | unregister (userId : String) (socket : Nat)
  /-- `registry.get` -/
  | socketsOf (userId : String)
  /-- `socket.readyState === socket.OPEN` -/
  | isOpen (socket : Nat)
  /-- `socket.send(JSON.stringify(message))` -/
  | send (socket : Nat) (message : Message)

@[reducible] def ProcessCall.Resp : ProcessCall → Type
  | .port call => call.Resp
  | .handleUpgrade => Nat
  | .register _ _ => Unit
  | .unregister _ _ => Unit
  | .socketsOf _ => List Nat
  | .isOpen _ => Bool
  | .send _ _ => Unit

abbrev process : Interface := ⟨ProcessCall, ProcessCall.Resp⟩

/-- The stores with everything behind the ports, and the live connections. -/
structure Process where
  world : World
  sockets : Sockets Message

/-- Nothing stored and nobody connected, at time `clock`. -/
def Process.init (clock : Int) : Process := ⟨.init clock, .empty⟩

/-- Something that happens to the process. -/
inductive Happening (α : Type) where
  /-- a call from outside, with the deliveries it triggers -/
  | call (a : α)
  /-- an upgrade that was verified for a user -/
  | upgraded (userId : String)
  /-- a socket that leaves `OPEN`, whoever closes it -/
  | closing (socket : Nat)
  /-- the `close` event of a user's socket -/
  | closed (userId : String) (socket : Nat)

namespace InProcess

def perform (i : Input) : (call : ProcessCall) → Process → Except Failure call.Resp × Process
  | .port call, p =>
    let (answer, world) := InMemory.perform i call p.world
    (answer, { p with world })
  | .handleUpgrade, p =>
    let s := p.sockets
    (.ok s.next, { p with sockets := { s with opened := s.opened ++ [s.next], next := s.next + 1 } })
  | .register userId socket, p =>
    (.ok (), { p with sockets := { p.sockets with registry := p.sockets.registry.add userId socket } })
  | .unregister userId socket, p =>
    (.ok (), { p with sockets := { p.sockets with registry := p.sockets.registry.remove userId socket } })
  | .socketsOf userId, p => (.ok (p.sockets.registry.get userId), p)
  | .isOpen socket, p => (.ok (decide (socket ∈ p.sockets.opened)), p)
  | .send socket message, p =>
    (.ok (), { p with sockets := { p.sockets with frames := p.sockets.frames ++ [⟨socket, message⟩] } })

/-- What the objects in an answer show now. -/
def refresh (p : Process) : (call : ProcessCall) → call.Resp → call.Resp
  | .port call, x => InMemory.refresh p.world call x
  | .handleUpgrade, x => x
  | .register _ _, x => x
  | .unregister _ _, x => x
  | .socketsOf _, x => x
  | .isOpen _, x => x
  | .send _ _, x => x

def adapter : Adapter process Failure Process Input where
  perform := perform
  refresh := refresh
  admissible i p := InMemory.admissible i p.world
  tick i p := { p with world := InMemory.adapter.tick i p.world }

/-- A call whose answer the same turn uses or drops. -/
abbrev syncCall (call : ProcessCall) : Proc process Failure call.Resp :=
  @Proc.perform process Failure call

/-- The WebSocket layer over the process. -/
def live : LiveConnections process Message where
  findConversation message := @Proc.request process Failure (.port (.findConversation message.conversationId))
  handleUpgrade := syncCall .handleUpgrade
  add userId socket := syncCall (.register userId socket)
  remove userId socket := syncCall (.unregister userId socket)
  get userId := syncCall (.socketsOf userId)
  isOpen socket := syncCall (.isOpen socket)
  send socket message := syncCall (.send socket message)

/-- The subscriber's handler for one message, run to its end. -/
def handOver (i : Input) (p : Process) (message : Message) : Process :=
  (adapter.run i (live.deliverToParticipants message) p).2

/-- What calls from outside do to the stores. -/
abbrev Server (α β : Type) : Type := Input → α → World → β × World

/-- A call, and then the deliveries of what it published. -/
def call (server : Server α β) (i : Input) (a : α) (p : Process) : β × Process :=
  let (answer, world) := server i a p.world
  (answer, (world.published.drop p.world.published.length).foldl (handOver i) { p with world })

/-- What happens to the process, one event after another. -/
def machine (server : Server α β) : Machine Process (Input × Happening α) (Option β) where
  step x p :=
    match x.2 with
    | .call a =>
      if InMemory.admissible x.1 p.world then
        let (answer, p') := call server x.1 a p
        some (some answer, p')
      else none
    | .upgraded userId =>
      let opened := do
        let socket ← live.handleUpgrade
        live.add userId socket
      some (none, (adapter.run x.1 opened p).2)
    | .closing socket =>
      some (none, { p with sockets :=
        { p.sockets with opened := p.sockets.opened.filter fun s => s ≠ socket } })
    | .closed userId socket =>
      if socket ∈ p.sockets.registry.get userId ∧ socket ∉ p.sockets.opened then
        some (none, (adapter.run x.1 (live.remove userId socket) p).2)
      else none

/-- Calls of the service. -/
def service : Server Op (Except Failure Reply) := InMemory.serve

/-- Requests to the HTTP app. -/
def httpApp (reader : TextReader) : Server Request (Except Failure Response) := fun i request w =>
  InMemory.adapter.run i (ConversationsRouter.handle reader request) (InMemory.adapter.tick i w)

end InProcess

end Jiffy
