-- SUMMARY: The life of a live connection: the callback of its upgrade, its expiry timer and its `close` event, over time.
import Jiffy.Lib.Machine
import Jiffy.WebSocket.Delivery
import Jiffy.WebSocket.Upgrade

/-!
# Connections over time

What `attachWebSocketServer` does with a socket from the callback of
`handleUpgrade` on, with the gauge, the clock and the timers. Node's timers fire
on time: the clock does not pass a pending one.
-/

namespace Jiffy

open Js Async

/-- What the WebSocket layer asks of its process. -/
inductive ConnectionCall where
  /-- `conversations.findById` -/
  | findConversation (id : String)
  /-- `wss.handleUpgrade`, which yields a socket -/
  | handleUpgrade
  /-- `registry.add` -/
  | register (userId : String) (socket : Nat)
  /-- `registry.remove` -/
  | unregister (userId : String) (socket : Nat)
  /-- `registry.get` -/
  | socketsOf (userId : String)
  /-- `socket.readyState === socket.OPEN` -/
  | isOpen (socket : Nat)
  /-- `socket.send(JSON.stringify(message))` -/
  | send (socket : Nat) (message : Message)
  /-- `websocketConnectionsActive.inc()` -/
  | inc
  /-- `websocketConnectionsActive.dec()` -/
  | dec
  /-- `Date.now()` -/
  | now
  /-- `setTimeout` of the socket's expiry, which yields a timer; no delay for `NaN` -/
  | setTimeout (socket : Nat) (delay : Option Int)
  /-- `clearTimeout` -/
  | clearTimeout (timer : Nat)
  /-- `socket.close(code, reason)` -/
  | close (socket : Nat) (code : Nat) (reason : String)
  /-- `socket.on('close', ..)`, with what the listener holds on to -/
  | onClose (socket : Nat) (userId : String) (expiryTimer : Option Nat)

@[reducible] def ConnectionCall.Resp : ConnectionCall → Type
  | .findConversation _ => Option Conversation
  | .handleUpgrade => Nat
  | .register _ _ => Unit
  | .unregister _ _ => Unit
  | .socketsOf _ => List Nat
  | .isOpen _ => Bool
  | .send _ _ => Unit
  | .inc => Unit
  | .dec => Unit
  | .now => Int
  | .setTimeout _ _ => Nat
  | .clearTimeout _ => Unit
  | .close _ _ _ => Unit
  | .onClose _ _ _ => Unit

abbrev connectionCalls : Interface := ⟨ConnectionCall, ConnectionCall.Resp⟩

-- ---------------------------------------------------------------------------
-- The handlers
-- ---------------------------------------------------------------------------

namespace WebSocketServer

/-- A call whose answer the same turn uses or drops. -/
abbrev perform (call : ConnectionCall) : Proc connectionCalls Failure call.Resp :=
  @Proc.perform connectionCalls Failure call

/-- The timer of a verified identity, if it reports an `expiresAt`. -/
def startExpiryTimer (identity : VerifiedIdentity) (socket : Nat) :
    Proc connectionCalls Failure (Option Nat) :=
  match identity.expiresAt with
  | none => return none
  | some expiresAt => do
    let now ← perform .now
    let msUntilExpiry := expiresAt.time.map fun t => t - now
    let timer ← perform (.setTimeout socket (msUntilExpiry.map fun ms => max ms 0))
    return some timer

/-- The callback of `handleUpgrade`. -/
def opened (identity : VerifiedIdentity) (socket : Nat) : Proc connectionCalls Failure Unit := do
  perform (.register identity.userId socket)
  perform .inc
  let expiryTimer ← startExpiryTimer identity socket
  perform (.onClose socket identity.userId expiryTimer)

/-- The callback of the expiry timer. -/
def expired (socket : Nat) : Proc connectionCalls Failure Unit :=
  perform (.close socket 4401 "token expired")

/-- `if (expiryTimer) clearTimeout(expiryTimer)`. -/
def clearExpiryTimer : Option Nat → Proc connectionCalls Failure Unit
  | none => return ()
  | some timer => perform (.clearTimeout timer)

/-- The listener of a socket's `close` event. -/
def closed (userId : String) (socket : Nat) (expiryTimer : Option Nat) :
    Proc connectionCalls Failure Unit := do
  clearExpiryTimer expiryTimer
  perform (.unregister userId socket)
  perform .dec

/-- What the deliveries are given. -/
def live : LiveConnections connectionCalls Message where
  findConversation message :=
    @Proc.request connectionCalls Failure (.findConversation message.conversationId)
  handleUpgrade := perform .handleUpgrade
  add userId socket := perform (.register userId socket)
  remove userId socket := perform (.unregister userId socket)
  get userId := perform (.socketsOf userId)
  isOpen socket := perform (.isOpen socket)
  send socket message := perform (.send socket message)

end WebSocketServer

-- ---------------------------------------------------------------------------
-- The process
-- ---------------------------------------------------------------------------

/-- A pending timer: whose socket it closes, and when it fires. -/
structure ExpiryTimer where
  id : Nat
  socket : Nat
  firesAt : Int

/-- The listener of a socket's `close` event. -/
structure CloseListener where
  socket : Nat
  userId : String
  expiryTimer : Option Nat

/-- A closing that the server began. -/
structure ServerClose where
  socket : Nat
  code : Nat
  reason : String
  time : Int

/-- The sockets, the gauge, the timers and the listeners of the process, with
every closing it began. -/
structure Connections where
  sockets : Sockets Message
  /-- `websocketConnectionsActive` -/
  active : Int
  timers : List ExpiryTimer
  nextTimer : Nat
  listeners : List CloseListener
  closes : List ServerClose
  clock : Int

/-- Nobody connected yet. -/
def Connections.init (clock : Int) : Connections := ⟨.empty, 0, [], 0, [], [], clock⟩

namespace WebSocketServer

/-- After how long a timer fires: a delay out of Node's range counts as 1. -/
def timerDelay : Option Int → Int
  | some delay => if 1 ≤ delay ∧ delay ≤ 2147483647 then delay else 1
  | none => 1

/-- What the store answers to `findById`. -/
abbrev Lookup : Type := String → Except Failure (Option Conversation)

def answer (find : Lookup) : (call : ConnectionCall) → Connections →
    Except Failure call.Resp × Connections
  | .findConversation id, p => (find id, p)
  | .handleUpgrade, p =>
    let s := p.sockets
    (.ok s.next, { p with sockets := { s with opened := s.opened ++ [s.next], next := s.next + 1 } })
  | .register userId socket, p =>
    (.ok (), { p with sockets := { p.sockets with registry := p.sockets.registry.add userId socket } })
  | .unregister userId socket, p =>
    (.ok (), { p with sockets := { p.sockets with registry := p.sockets.registry.remove userId socket } })
  | .socketsOf userId, p => (.ok (p.sockets.registry.get userId), p)
  | .isOpen socket, p => (.ok (decide (socket ∈ p.sockets.opened)), p)
  | .send socket message, p =>
    (.ok (), { p with sockets := { p.sockets with frames := p.sockets.frames ++ [⟨socket, message⟩] } })
  | .inc, p => (.ok (), { p with active := p.active + 1 })
  | .dec, p => (.ok (), { p with active := p.active - 1 })
  | .now, p => (.ok p.clock, p)
  | .setTimeout socket delay, p =>
    let timer := ⟨p.nextTimer, socket, p.clock + timerDelay delay⟩
    (.ok p.nextTimer, { p with timers := p.timers ++ [timer], nextTimer := p.nextTimer + 1 })
  | .clearTimeout timer, p => (.ok (), { p with timers := p.timers.filter fun t => t.id ≠ timer })
  | .close socket code reason, p =>
    -- a socket that is no longer open is left alone
    if socket ∈ p.sockets.opened then
      (.ok (), { p with
        sockets := { p.sockets with opened := p.sockets.opened.filter fun s => s ≠ socket }
        closes := p.closes ++ [⟨socket, code, reason, p.clock⟩] })
    else (.ok (), p)
  | .onClose socket userId expiryTimer, p =>
    (.ok (), { p with listeners := p.listeners ++ [⟨socket, userId, expiryTimer⟩] })

def adapter : Adapter connectionCalls Failure Connections Lookup where
  perform := answer
  refresh _ _ x := x
  admissible _ _ := true
  tick _ p := p

/-- Something that happens to the process. -/
inductive ConnectionEvent where
  /-- an upgrade that was verified -/
  | upgraded (identity : VerifiedIdentity)
  /-- a message from the bus whose lookup has been answered -/
  | message (find : Lookup) (message : Message)
  /-- an open socket that the client closes, or that fails -/
  | closing (socket : Nat)
  /-- the `close` event of a socket -/
  | closed (socket : Nat)
  /-- the clock moves on -/
  | elapsed (clock : Int)
  /-- a timer fires -/
  | fired (timer : Nat)

/-- Nothing is looked up. -/
def noLookup : Lookup := fun _ => .ok none

/-- Run a handler to its end. -/
def turn (program : Proc connectionCalls Failure Unit) (p : Connections) : Connections :=
  (adapter.run noLookup program p).2

/-- What happens to the process, one event after another. -/
def machine : Machine Connections ConnectionEvent Unit where
  step x p :=
    match x with
    | .upgraded identity => some ((), turn (live.handleUpgrade.bind (opened identity)) p)
    | .message find message => some ((), (adapter.run find (live.deliverToParticipants message) p).2)
    | .closing socket =>
      if socket ∈ p.sockets.opened then
        some ((), { p with sockets :=
          { p.sockets with opened := p.sockets.opened.filter fun s => s ≠ socket } })
      else none
    | .closed socket =>
      match p.listeners.find? fun l => l.socket = socket with
      | none => none
      | some listener =>
        if socket ∈ p.sockets.opened then none
        else
          some ((), turn (closed listener.userId socket listener.expiryTimer)
            { p with listeners := p.listeners.filter fun l => l.socket ≠ socket })
    | .elapsed clock =>
      if p.clock ≤ clock ∧ ∀ timer ∈ p.timers, clock ≤ timer.firesAt then some ((), { p with clock })
      else none
    | .fired timer =>
      match p.timers.find? fun t => t.id = timer with
      | none => none
      | some t =>
        if t.firesAt ≤ p.clock then
          some ((), turn (expired t.socket) { p with timers := p.timers.filter fun t => t.id ≠ timer })
        else none

/-- What has happened so far. -/
abbrev Log : Type := List (Machine.Event Connections ConnectionEvent Unit)

-- ---------------------------------------------------------------------------
-- What one event does
-- ---------------------------------------------------------------------------

/-- The process after it sent these frames. -/
def sent (p : Connections) (frames : List (Frame Message)) : Connections :=
  { p with sockets := { p.sockets with frames := p.sockets.frames ++ frames } }

/-- The sockets of the process. -/
def host : SocketHost adapter live where
  sockets := Connections.sockets
  send p frame := sent p [frame]
  get _ _ _ := rfl
  isOpen _ _ _ := rfl
  run_send _ _ _ _ := rfl
  sockets_send _ _ := rfl

theorem sendAll_host (m : Message) (sockets : List Nat) (p : Connections) :
    host.sendAll m sockets p = sent p (sockets.map fun s => ⟨s, m⟩) := by
  induction sockets generalizing p with
  | nil =>
    unfold sent
    rw [List.map_nil, List.append_nil]
    rfl
  | cons s sockets ih =>
    refine (ih (sent p [⟨s, m⟩])).trans ?_
    unfold sent
    simp only [List.append_assoc, List.map_cons, List.cons_append, List.nil_append]

/-- The frames that a message goes out in, given how its lookup settled. -/
def delivered (found : Except Failure (Option Conversation)) (p : Connections) (m : Message) :
    List (Frame Message) :=
  match found with
  | .ok (some conversation) => (p.sockets.recipients conversation.participants).map fun s => ⟨s, m⟩
  | _ => []

theorem run_deliver (find : Lookup) (m : Message) (p : Connections) :
    (adapter.run find (live.deliverToParticipants m) p).2 =
      sent p (delivered (find m.conversationId) p m) := by
  have hnothing : sent p [] = p := by
    unfold sent
    rw [List.append_nil]
  unfold delivered
  cases hfind : find m.conversationId with
  | error e =>
    have hrejected : adapter.run find (live.findConversation m) p = (.error e, p) :=
      (adapter.run_request find _ p).trans (congrArg (·, p) hfind)
    simp only [LiveConnections.deliverToParticipants, Proc.bind_eq_bind, Adapter.run_bind, hrejected]
    exact hnothing.symm
  | ok found =>
    have hfound : adapter.run find (live.findConversation m) p = (.ok found, p) :=
      (adapter.run_request find _ p).trans (congrArg (·, p) hfind)
    rw [host.run_deliverToParticipants find m hfound]
    cases found with
    | none => exact hnothing.symm
    | some conversation => exact sendAll_host m _ p

/-- The timers that an upgrade starts. -/
def startedTimers (identity : VerifiedIdentity) (p : Connections) : List ExpiryTimer :=
  identity.expiresAt.toList.map fun expiresAt => ⟨p.nextTimer, p.sockets.next,
    p.clock + timerDelay (expiresAt.time.map fun t => max (t - p.clock) 0)⟩

/-- The process with a new socket. -/
def withSocket (identity : VerifiedIdentity) (p : Connections) : Connections :=
  { p with
    sockets := { p.sockets with
      registry := p.sockets.registry.add identity.userId p.sockets.next
      opened := p.sockets.opened ++ [p.sockets.next]
      next := p.sockets.next + 1 }
    active := p.active + 1
    timers := p.timers ++ startedTimers identity p
    nextTimer := p.nextTimer + (startedTimers identity p).length
    listeners := p.listeners ++
      [⟨p.sockets.next, identity.userId, (startedTimers identity p).head?.map ExpiryTimer.id⟩] }

/-- The process without the socket of a listener. -/
def withoutSocket (listener : CloseListener) (p : Connections) : Connections :=
  { p with
    sockets := { p.sockets with
      registry := p.sockets.registry.remove listener.userId listener.socket }
    active := p.active - 1
    timers := p.timers.filter fun t => listener.expiryTimer ≠ some t.id
    listeners := p.listeners.filter fun l => l.socket ≠ listener.socket }

/-- The process with a socket that is no longer open. -/
def withClosing (socket : Nat) (p : Connections) : Connections :=
  { p with sockets := { p.sockets with opened := p.sockets.opened.filter fun s => s ≠ socket } }

/-- The closing that a timer brings about. -/
def expiry (timer : ExpiryTimer) (p : Connections) : ServerClose :=
  ⟨timer.socket, 4401, "token expired", p.clock⟩

/-- The process after a timer fired: its socket is closed if it is still open. -/
def withFired (timer : ExpiryTimer) (p : Connections) : Connections :=
  { withClosing timer.socket p with
    timers := p.timers.filter fun t => t.id ≠ timer.id
    closes := if timer.socket ∈ p.sockets.opened then p.closes ++ [expiry timer p] else p.closes }

/-- What one event does. -/
inductive Step (p : Connections) : ConnectionEvent → Connections → Prop where
  | upgraded (identity : VerifiedIdentity) : Step p (.upgraded identity) (withSocket identity p)
  | message (find : Lookup) (m : Message) :
    Step p (.message find m) (sent p (delivered (find m.conversationId) p m))
  | closing {s : Nat} (hopen : s ∈ p.sockets.opened) : Step p (.closing s) (withClosing s p)
  | closed {listener : CloseListener} (hmem : listener ∈ p.listeners)
    (hclosed : listener.socket ∉ p.sockets.opened) :
    Step p (.closed listener.socket) (withoutSocket listener p)
  | elapsed {clock : Int} (hclock : p.clock ≤ clock) (htimers : ∀ t ∈ p.timers, clock ≤ t.firesAt) :
    Step p (.elapsed clock) { p with clock }
  | fired {timer : ExpiryTimer} (hmem : timer ∈ p.timers) (hdue : timer.firesAt ≤ p.clock) :
    Step p (.fired timer.id) (withFired timer p)

theorem turn_upgraded (identity : VerifiedIdentity) (p : Connections) :
    turn (live.handleUpgrade.bind (opened identity)) p = withSocket identity p := by
  unfold withSocket startedTimers turn opened startExpiryTimer
  cases identity.expiresAt with
  | none =>
    simp only [Option.toList_none, List.map_nil, List.append_nil]
    rfl
  | some expiresAt =>
    simp only [Option.toList_some, List.map_cons, List.map_nil]
    cases expiresAt with
    | mk time => cases time <;> rfl

theorem turn_closed (listener : CloseListener) (p : Connections) :
    turn (closed listener.userId listener.socket listener.expiryTimer)
      { p with listeners := p.listeners.filter fun l => l.socket ≠ listener.socket } =
      withoutSocket listener p := by
  unfold withoutSocket turn closed clearExpiryTimer
  cases listener.expiryTimer with
  | none =>
    have hkeep : (p.timers.filter fun t => (none : Option Nat) ≠ some t.id) = p.timers :=
      List.filter_eq_self.mpr fun t _ => rfl
    rw [hkeep]
    rfl
  | some timer =>
    have hfilter : (p.timers.filter fun t => some timer ≠ some t.id) =
        p.timers.filter fun t => t.id ≠ timer := by
      apply List.filter_congr
      intro t _
      simp only [ne_eq, Option.some.injEq, eq_comm]
    rw [hfilter]
    rfl

theorem turn_expired (timer : ExpiryTimer) (p : Connections) :
    turn (expired timer.socket) { p with timers := p.timers.filter fun t => t.id ≠ timer.id } =
      withFired timer p := by
  have hrun : turn (expired timer.socket) { p with timers := p.timers.filter fun t => t.id ≠ timer.id } =
      (answer noLookup (.close timer.socket 4401 "token expired")
        { p with timers := p.timers.filter fun t => t.id ≠ timer.id }).2 :=
    congrArg Prod.snd (adapter.run_perform noLookup _ _)
  rw [hrun]
  unfold withFired withClosing expiry
  simp only [answer]
  split
  · rfl
  · next hclosed =>
    have hkeep : (p.sockets.opened.filter fun s => s ≠ timer.socket) = p.sockets.opened := by
      apply List.filter_eq_self.mpr
      intro s hs
      exact decide_eq_true fun h => hclosed (h ▸ hs)
    rw [hkeep]

theorem machine_step {p p' : Connections} {x : ConnectionEvent} {out : Unit}
    (h : machine.step x p = some (out, p')) : Step p x p' := by
  simp only [machine] at h
  cases x with
  | upgraded identity =>
    cases h
    rw [turn_upgraded]
    exact .upgraded identity
  | message find m =>
    cases h
    rw [run_deliver]
    exact .message find m
  | closing s =>
    simp only at h
    split at h
    · next hopen =>
      cases h
      exact .closing hopen
    · cases h
  | closed s =>
    simp only at h
    split at h
    · cases h
    · next listener hfind =>
      have hmem := List.mem_of_find?_eq_some hfind
      have hsocket : listener.socket = s := by simpa using List.find?_some hfind
      subst hsocket
      split at h
      · cases h
      · next hclosed =>
        cases h
        rw [turn_closed]
        exact .closed hmem hclosed
  | elapsed clock =>
    simp only at h
    split at h
    · next hallowed =>
      cases h
      exact .elapsed hallowed.1 hallowed.2
    · cases h
  | fired id =>
    simp only at h
    split at h
    · cases h
    · next timer hfind =>
      have hmem := List.mem_of_find?_eq_some hfind
      have hid : timer.id = id := by simpa using List.find?_some hfind
      subst hid
      split at h
      · next hdue =>
        cases h
        rw [turn_expired]
        exact .fired hmem hdue
      · cases h

end WebSocketServer

end Jiffy
