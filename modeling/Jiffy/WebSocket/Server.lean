-- SUMMARY: The WebSocket layer: delivering a message that the bus hands over to the sockets of its participants.
import Jiffy.Core.MessagingService
import Jiffy.WebSocket.ConnectionRegistry

/-!
# WebSocket server

`src/websocket/websocket-server.ts` past the upgrade: what runs for a message
from the bus, and when sockets come and go.
-/

namespace Jiffy

open Js Async

/-- What the WebSocket layer is given, over an interface of requests: the
conversation store, its registry, the sockets, and messages as the bus hands
them over. -/
structure LiveConnections (P : Interface) (μ : Type) where
  /-- `conversations.findById(message.conversationId)` -/
  findConversation : μ → Proc P Failure (Option Conversation)
  /-- `wss.handleUpgrade`, which yields a socket -/
  handleUpgrade : Proc P Failure Nat
  /-- `registry.add` -/
  add : String → Nat → Proc P Failure Unit
  /-- `registry.remove` -/
  remove : String → Nat → Proc P Failure Unit
  /-- `registry.get` -/
  get : String → Proc P Failure (List Nat)
  /-- `socket.readyState === socket.OPEN` -/
  isOpen : Nat → Proc P Failure Bool
  /-- `socket.send(JSON.stringify(message))` -/
  send : Nat → μ → Proc P Failure Unit

namespace LiveConnections

variable {P : Interface} {μ : Type} (live : LiveConnections P μ)

/-- The inner loop: the sockets of one participant. -/
def sendToSockets (message : μ) : List Nat → Proc P Failure Unit
  | [] => return ()
  | socket :: sockets => do
    let isOpen ← live.isOpen socket
    if isOpen then do
      live.send socket message
      sendToSockets message sockets
    else
      sendToSockets message sockets

/-- The outer loop. -/
def sendToParticipants (message : μ) : List ConversationParticipant → Proc P Failure Unit
  | [] => return ()
  | participant :: participants => do
    let sockets ← live.get participant.userId
    live.sendToSockets message sockets
    sendToParticipants message participants

def deliverToParticipants (message : μ) : Proc P Failure Unit := do
  let found ← live.findConversation message
  match found with
  | none => return ()
  | some conversation => live.sendToParticipants message conversation.participants

end LiveConnections

/-- What the process is made to do. -/
inductive Task where
  /-- a call of the service -/
  | service (op : Op)
  /-- the bus hands over the `n`th published message -/
  | deliver (n : Nat) (message : Message)
  /-- an upgrade that was verified for a user -/
  | upgraded (userId : String)
  /-- a socket that leaves `OPEN`, whoever closes it -/
  | closing (socket : Nat)
  /-- the `close` event of a user's socket -/
  | closed (userId : String) (socket : Nat)
deriving DecidableEq

/-- The program of a task, given the service's. -/
def Task.program {P : Interface} (service : Op → Proc P Failure Reply) (live : LiveConnections P Message) :
    Task → Proc P Failure Reply
  | .service op => service op
  | .deliver _ message => do
    live.deliverToParticipants message
    return .done
  | .upgraded userId => do
    let socket ← live.handleUpgrade
    live.add userId socket
    return .done
  | .closing _ => return .done
  | .closed userId socket => do
    live.remove userId socket
    return .done

end Jiffy
