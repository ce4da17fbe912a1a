-- SUMMARY: The connection registry, and the sockets the process holds with the frames it sent.
import Jiffy.Domain
import Jiffy.Lib.OrderedMap

/-!
# Connections

`src/websocket/connection-registry.ts`. A socket is a number that no other
socket has.
-/

namespace Jiffy

/-- Open sockets per user id, each `Set` in the order of its elements. -/
structure ConnectionRegistry where
  connections : OrderedMap String (List Nat)

namespace ConnectionRegistry

def empty : ConnectionRegistry := ⟨.empty⟩

def add (registry : ConnectionRegistry) (userId : String) (socket : Nat) : ConnectionRegistry :=
  let sockets := (registry.connections.get userId).getD []
  ⟨registry.connections.set userId (if socket ∈ sockets then sockets else sockets ++ [socket])⟩

def remove (registry : ConnectionRegistry) (userId : String) (socket : Nat) : ConnectionRegistry :=
  match registry.connections.get userId with
  | none => registry
  | some sockets =>
    let sockets := sockets.filter fun s => s ≠ socket
    if sockets = [] then
      ⟨registry.connections.delete userId⟩
    else
      ⟨registry.connections.set userId sockets⟩

def get (registry : ConnectionRegistry) (userId : String) : List Nat :=
  (registry.connections.get userId).getD []

end ConnectionRegistry

/-- A frame: the socket it went out on, and the message its text holds. -/
structure Frame (μ : Type) where
  socket : Nat
  message : μ
deriving DecidableEq, Repr

/-- The registry, the sockets whose `readyState` is `OPEN`, the number of the
next one, and every frame sent so far. -/
structure Sockets (μ : Type) where
  registry : ConnectionRegistry
  opened : List Nat
  next : Nat
  frames : List (Frame μ)

namespace Sockets

variable {μ : Type}

def empty : Sockets μ := ⟨.empty, [], 0, []⟩

/-- The sockets that a message to these participants goes out on, in order. -/
def recipients (sockets : Sockets μ) (participants : List ConversationParticipant) : List Nat :=
  participants.flatMap fun p => (sockets.registry.get p.userId).filter fun s => s ∈ sockets.opened

end Sockets

end Jiffy
