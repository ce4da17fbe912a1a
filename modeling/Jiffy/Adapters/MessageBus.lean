-- SUMMARY: Both message buses with the handlers registered at them, one call after another.
import Jiffy.Adapters.Redis
import Jiffy.Lib.EventEmitter
import Jiffy.Lib.Machine

/-!
# Message buses

`onMessage` of `src/adapters/in-process/message-bus.ts` and
`src/adapters/redis/message-bus.ts`. A handler may call the bus itself; since
`emit` goes by the listeners it finds, such a call counts as made after it.
-/

namespace Jiffy

open Js

variable {H : Type} [DecidableEq H]

-- ---------------------------------------------------------------------------
-- The buses
-- ---------------------------------------------------------------------------

structure InProcessMessageBus (H : Type) where
  emitter : EventEmitter H

namespace InProcessMessageBus

def new : InProcessMessageBus H := ⟨.new⟩

/-- The handlers that are called, each with the message. -/
def publish (bus : InProcessMessageBus H) (message : Message) : List (H × Message) :=
  bus.emitter.emit message

/-- The bus afterwards, and the function that is returned. -/
def onMessage (bus : InProcessMessageBus H) (handler : H) :
    InProcessMessageBus H × (InProcessMessageBus H → InProcessMessageBus H) :=
  ({ bus with emitter := bus.emitter.on handler }, fun bus =>
    { bus with emitter := bus.emitter.off handler })

end InProcessMessageBus

structure RedisMessageBus (H : Type) where
  emitter : EventEmitter H
  subscribed : Bool
  /-- The channels that the subscriber was told to subscribe to. -/
  channels : List String

namespace RedisMessageBus

def new : RedisMessageBus H := ⟨.new, false, []⟩

/-- The handlers that a payload calls, each with the message it revives. -/
def receive (engine : Engine) (bus : RedisMessageBus H) (channel' payload : String) :
    Except Failure (List (H × Value)) :=
  (listener engine channel' payload).map fun message => message.elim [] bus.emitter.emit

/-- The bus afterwards, and the function that is returned. -/
def onMessage (bus : RedisMessageBus H) (handler : H) :
    RedisMessageBus H × (RedisMessageBus H → RedisMessageBus H) :=
  let bus := if bus.subscribed then bus else ⟨bus.emitter, true, bus.channels ++ [channel]⟩
  ({ bus with emitter := bus.emitter.on handler }, fun bus =>
    { bus with emitter := bus.emitter.off handler })

end RedisMessageBus

-- ---------------------------------------------------------------------------
-- Calls
-- ---------------------------------------------------------------------------

/-- A call of a bus, or what arrives at it. -/
inductive BusCall (H P : Type) where
  | onMessage (handler : H)
  /-- the function that the `registration`-th `onMessage` returned -/
  | unsubscribe (registration : Nat)
  | arrive (message : P)

/-- A bus whose handlers are functions `H`, called with `V` when `P` arrives. -/
structure MessageBus (H B P V : Type) where
  new : B
  onMessage : B → H → B × (B → B)
  arrive : B → P → Except Failure (List (H × V))

/-- A bus, and the functions it returned so far. -/
structure Subscribing (B : Type) where
  bus : B
  returned : List (B → B)

namespace MessageBus

variable {B P V : Type}

/-- A call, with the handlers it calls. -/
def machine (M : MessageBus H B P V) :
    Machine (Subscribing B) (BusCall H P) (Except Failure (List (H × V))) where
  step call s :=
    match call with
    | .onMessage handler =>
      let (bus, unsubscribe) := M.onMessage s.bus handler
      some (.ok [], ⟨bus, s.returned ++ [unsubscribe]⟩)
    | .unsubscribe registration =>
      s.returned[registration]?.map fun unsubscribe => (.ok [], { s with bus := unsubscribe s.bus })
    | .arrive message => some (M.arrive s.bus message, s)

/-- What a bus does with its emitter: `emitted` is what it makes of what arrives. -/
structure OnEmitter (M : MessageBus H B P V) (emitter : B → EventEmitter H)
    (emitted : P → Except Failure (Option V)) : Prop where
  new : emitter M.new = .new
  on (bus : B) (handler : H) : emitter (M.onMessage bus handler).1 = (emitter bus).on handler
  off (bus bus' : B) (handler : H) :
    emitter ((M.onMessage bus handler).2 bus') = (emitter bus').off handler
  emit {bus : B} {message : P} {value : V} (h : emitted message = .ok (some value)) :
    M.arrive bus message = .ok ((emitter bus).emit value)

end MessageBus

/-- The in-process bus, at which messages are published. -/
def InProcessMessageBus.calls : MessageBus H (InProcessMessageBus H) Message Message where
  new := .new
  onMessage := InProcessMessageBus.onMessage
  arrive bus message := .ok (bus.publish message)

/-- The Redis bus, at which payloads arrive on channels. -/
def RedisMessageBus.calls (engine : Engine) :
    MessageBus H (RedisMessageBus H) (String × String) Value where
  new := .new
  onMessage := RedisMessageBus.onMessage
  arrive bus message := bus.receive engine message.1 message.2

theorem InProcessMessageBus.onEmitter :
    (InProcessMessageBus.calls (H := H)).OnEmitter (fun bus => bus.emitter) (fun m => .ok (some m)) where
  new := rfl
  on _ _ := rfl
  off _ _ _ := rfl
  emit h := by
    cases h
    rfl

theorem RedisMessageBus.onEmitter (engine : Engine) :
    (RedisMessageBus.calls (H := H) engine).OnEmitter (fun bus => bus.emitter)
      (fun p => listener engine p.1 p.2) where
  new := rfl
  on bus handler := by
    unfold calls RedisMessageBus.onMessage
    dsimp only
    split <;> rfl
  off _ _ _ := rfl
  emit h := by
    show Except.map _ (listener engine _ _) = _
    rw [h]
    rfl

end Jiffy
