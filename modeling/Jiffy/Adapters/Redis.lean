-- SUMMARY: The Redis message bus: payloads, what an instance revives from whatever arrives on the channel, and its deliveries.
import Jiffy.Adapters.Instance

/-!
# Redis adapter

`src/adapters/redis/message-bus.ts`. A message crosses the channel as JSON
text, and each instance revives it from there; what it revives need not be a
message, since anything can arrive on a channel.
-/

namespace Jiffy

open Js

/-- What the language leaves to its engine: how text is read, and how numbers
and dates are written as text. -/
structure Engine extends TextReader where
  numberText : Number → String
  dateText : Date → String

-- ---------------------------------------------------------------------------
-- Payloads
-- ---------------------------------------------------------------------------

namespace RedisMessageBus

def channel : String := "jiffy-messaging:messages"

/-- A message as `JSON.stringify` walks it. -/
def messageValue (m : Message) : Value :=
  .object [
    ("id", .string m.id),
    ("conversationId", .string m.conversationId),
    ("senderId", .string m.senderId),
    ("body", .string m.body),
    ("createdAt", .date (Date.of m.createdAt)),
    ("deletedAt", m.deletedAt.elim .null fun t => .date (Date.of t))]

variable (engine : Engine)

/-- What `publish` sends on the channel. -/
def payloadOf (m : Message) : String := (messageValue m).stringify engine.numberText

mutual

/-- `String(value)`. Of the objects that JSON text can give, those with a field
`toString` have no primitive value. -/
def stringOf : Value → Except Failure String
  | .null => .ok "null"
  | .bool b => .ok (if b then "true" else "false")
  | .number n => .ok (engine.numberText n)
  | .string s => .ok s
  | .date d => .ok (engine.dateText d)
  | .array elements => do
    let texts ← elementStrings elements
    return String.intercalate "," texts
  | .object fields =>
    if fields.any fun field => field.1 = "toString" then
      .error (.port "Cannot convert object to primitive value")
    else
      .ok "[object Object]"

/-- The elements as `join` writes them: `null` is empty. -/
def elementStrings : List Value → Except Failure (List String)
  | [] => .ok []
  | v :: vs => do
    let text ← stringOf v
    let texts ← elementStrings vs
    return (match v with | .null => "" | _ => text) :: texts

end

/-- Whole milliseconds that a `Date` can hold. -/
def timeClip : Number → Date
  | .finite q => if IsTime (q.num.tdiv q.den) then ⟨some (q.num.tdiv q.den)⟩ else ⟨none⟩
  | _ => ⟨none⟩

/-- `new Date(value)`. -/
def newDate : Value → Except Failure Date
  | .null => .ok (Date.of 0)
  | .bool b => .ok (Date.of (if b then 1 else 0))
  | .number n => .ok (timeClip n)
  | .date d => .ok d
  | v => (stringOf engine v).map engine.date

/-- The reviver of `parseMessage`. -/
def reviver (key : String) (value : Value) : Except Failure Value :=
  if key = "createdAt" then (newDate engine value).map .date else .ok value

def parseMessage (payload : String) : Except Failure Value :=
  match Json.parse engine.number payload with
  | none => .error (.port "SyntaxError")
  | some value => value.revive (reviver engine) ""

/-- What the listener for the subscriber's messages emits. -/
def listener (channel' payload : String) : Except Failure (Option Value) :=
  if channel' ≠ channel then .ok none else (parseMessage engine payload).map some

/-- `message.conversationId`, of whatever was revived: absent but in objects
that have it. -/
def conversationIdOf : Value → Except Failure (Option Value)
  | .null => .error (.port "Cannot read properties of null (reading 'conversationId')")
  | .object fields => .ok ((fields.find? fun field => field.1 = "conversationId").map Prod.snd)
  | _ => .ok none

end RedisMessageBus

-- ---------------------------------------------------------------------------
-- One subscribed instance
-- ---------------------------------------------------------------------------

namespace Redis

open RedisMessageBus

/-- A process with its deliveries that wait for a lookup. `down` is the failure
that terminated it. -/
structure Node where
  sockets : Sockets Value
  pending : List Value
  down : Option Failure

def Node.init : Node := ⟨.empty, [], none⟩

/-- The listener throws, drops the message, or hands it to the handler, whose
delivery then rejects at once or waits for its lookup. -/
def Node.receive (engine : Engine) (channel' payload : String) (p : Node) : Node :=
  match listener engine channel' payload with
  | .error e => { p with down := some e }
  | .ok none => p
  | .ok (some message) =>
    match conversationIdOf message with
    | .error e => { p with down := some e }
    | .ok _ => { p with pending := p.pending ++ [message] }

/-- The rest of a delivery whose lookup settled. -/
def Node.deliver (outcome : Except Failure (Option Conversation)) (message : Value) (p : Node) : Node :=
  match Instance.handOver conversationIdOf ⟨p.sockets.next, fun _ => outcome⟩ message p.sockets with
  | (.ok (), sockets) => { p with sockets }
  | (.error e, sockets) => { p with sockets, down := some e }

end Redis

end Jiffy
