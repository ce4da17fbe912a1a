-- SUMMARY: When a failure of live delivery escapes: one subscribed instance, whatever arrives on its channel and however its collaborators answer.
import Jiffy.Lib.Machine
import Jiffy.Redis.Payload

/-!
# Failures in live delivery

The promise of `subscribe` and the promise of every delivery are dropped, and
nothing catches what the channel listener throws. The first failure of any of
them terminates the process.
-/

namespace Jiffy

open Js Async RedisMessageBus

namespace Redis

/-- Something that happens to the process. -/
inductive Arrival where
  /-- the promise of `subscriber.subscribe` settles -/
  | subscribed (outcome : Except Failure Unit)
  /-- the subscriber's `message` event -/
  | message (channel payload : String)
  /-- the lookup of the `n`th pending delivery settles -/
  | found (n : Nat) (outcome : Except Failure (Option Conversation))
  /-- an upgrade that was verified for a user -/
  | upgraded (userId : String)
  /-- a socket that leaves `OPEN`, whoever closes it -/
  | closing (socket : Nat)
  /-- the `close` event of a user's socket -/
  | closed (userId : String) (socket : Nat)

/-- What happens to a process; once it is down nothing does. -/
def node (engine : Engine) : Machine Node Arrival Unit where
  step x p :=
    if p.down ≠ none then some ((), p)
    else
      match x with
      | .subscribed (.ok ()) => some ((), p)
      | .subscribed (.error e) => some ((), { p with down := some e })
      | .message channel' payload => some ((), p.receive engine channel' payload)
      | .found n outcome =>
        match p.pending[n]? with
        | none => none
        | some message =>
          some ((), Node.deliver outcome message { p with pending := p.pending.eraseIdx n })
      | .upgraded userId =>
        let sockets :=
          Instance.upgrade conversationIdOf ⟨p.sockets.next, fun _ => .ok none⟩ userId p.sockets
        some ((), { p with sockets })
      | .closing socket => some ((), { p with sockets := Instance.closing socket p.sockets })
      | .closed userId socket =>
        let sockets :=
          Instance.closed conversationIdOf ⟨p.sockets.next, fun _ => .ok none⟩ userId socket p.sockets
        some ((), { p with sockets })

abbrev NodeEvent : Type := Machine.Event Node Arrival Unit

-- ---------------------------------------------------------------------------
-- One event
-- ---------------------------------------------------------------------------

/-- Nothing about this event fails: the subscription and the lookup resolve, and
a payload on the channel is JSON, not `null`, whose `createdAt`s have text. -/
def Arrival.Fine (engine : Engine) : Arrival → Prop
  | .subscribed outcome => outcome = .ok ()
  | .message channel' payload => channel' = channel → Legible engine payload
  | .found _ outcome => ∃ found, outcome = .ok found
  | _ => True

/-- A message that is not `null` starts a delivery, and a delivery whose lookup
resolves sends its message on every open socket of the participants found. -/
def Handled (engine : Engine) (e : NodeEvent) : Prop :=
  match e.input with
  | .message channel' payload => ∀ value, channel' = channel →
    parseMessage engine payload = .ok value → value ≠ .null →
      e.after.pending = e.before.pending ++ [value]
  | .found n outcome => ∀ found value, outcome = .ok found → e.before.pending[n]? = some value →
    e.after.sockets.frames =
      e.before.sockets.frames ++ found.elim [] (Instance.framesOf e.before.sockets value)
  | _ => True

variable {engine : Engine} {p p' : Node} {x : Arrival}

theorem conversationIdOf_ok_iff {value : Value} :
    (∃ id, conversationIdOf value = .ok id) ↔ value ≠ .null := by
  cases value <;> simp [conversationIdOf]

/-- Pending deliveries are of messages that are not `null`. -/
def Node.Sound (p : Node) : Prop := ∀ value ∈ p.pending, value ≠ .null

/-- What a message event comes to. -/
theorem receive_cases (channel' payload : String) :
    channel' ≠ channel ∧ p.receive engine channel' payload = p ∨
      channel' = channel ∧
        ((∃ value, parseMessage engine payload = .ok value ∧ value ≠ .null ∧
            p.receive engine channel' payload = { p with pending := p.pending ++ [value] }) ∨
          ¬ Legible engine payload ∧ (p.receive engine channel' payload).down ≠ none ∧
            (p.receive engine channel' payload).pending = p.pending) := by
  unfold Node.receive listener
  by_cases hchannel : channel' = channel
  · refine .inr ⟨hchannel, ?_⟩
    rw [if_neg (not_not.mpr hchannel)]
    have hlegible := @parseMessage_iff_legible engine payload
    cases hparse : parseMessage engine payload with
    | error e =>
      refine .inr ⟨fun h => ?_, Option.some_ne_none e, rfl⟩
      obtain ⟨value, hvalue, -⟩ := hlegible.mpr h
      rw [hparse] at hvalue
      cases hvalue
    | ok value =>
      simp only [Except.map]
      cases hid : conversationIdOf value with
      | ok id => exact .inl ⟨value, rfl, conversationIdOf_ok_iff.mp ⟨id, hid⟩, rfl⟩
      | error e =>
        refine .inr ⟨fun h => ?_, Option.some_ne_none e, rfl⟩
        obtain ⟨value', hvalue, hnull⟩ := hlegible.mpr h
        rw [hparse] at hvalue
        cases hvalue
        obtain ⟨id, hid'⟩ := conversationIdOf_ok_iff.mpr hnull
        rw [hid] at hid'
        cases hid'
  · exact .inl ⟨hchannel, by rw [if_pos hchannel]⟩

/-- What a settled lookup comes to. -/
theorem deliver_eq (outcome : Except Failure (Option Conversation)) {value : Value}
    (hvalue : value ≠ .null) (p : Node) : Node.deliver outcome value p =
      match outcome with
      | .error e => { p with down := some e }
      | .ok found => { p with sockets := { p.sockets with
          frames := p.sockets.frames ++ found.elim [] (Instance.framesOf p.sockets value) } } := by
  obtain ⟨id, hid⟩ := conversationIdOf_ok_iff.mpr hvalue
  unfold Node.deliver
  rw [Instance.handOver_eq, hid]
  cases outcome <;> rfl

/-- One event brings a running process down exactly when something about it
fails, and else handles its message. -/
theorem node_step (hp : p.Sound) (hup : p.down = none) (h : (node engine).step x p = some ((), p')) :
    p'.Sound ∧ (p'.down = none ↔ x.Fine engine) ∧ (x.Fine engine → Handled engine ⟨p, x, (), p'⟩) := by
  simp only [node, hup, ne_eq, not_true, if_false] at h
  cases x with
  | subscribed outcome =>
    cases outcome with
    | ok u => cases h; exact ⟨hp, iff_of_true hup rfl, fun _ => trivial⟩
    | error e => cases h; exact ⟨hp, by simp [Arrival.Fine], fun _ => trivial⟩
  | message channel' payload =>
    cases h
    rcases @receive_cases engine p channel' payload with
      ⟨hother, heq⟩ | ⟨rfl, ⟨value, hparse, hnull, heq⟩ | ⟨hillegible, hdown, hpending⟩⟩
    · rw [heq]
      exact ⟨hp, by simp [Arrival.Fine, hup, hother], fun _ _ hchannel => absurd hchannel hother⟩
    · rw [heq]
      refine ⟨?_, ?_, fun _ value' _ hparse' _ => ?_⟩
      · intro v hv
        rcases List.mem_append.mp hv with hv | hv
        · exact hp v hv
        · exact List.mem_singleton.mp hv ▸ hnull
      · exact ⟨fun _ _ => parseMessage_iff_legible.mp ⟨value, hparse, hnull⟩, fun _ => hup⟩
      · rw [hparse] at hparse'
        cases hparse'
        rfl
    · have hnot : ¬ (Arrival.message channel payload).Fine engine := fun hfine => hillegible (hfine rfl)
      exact ⟨fun v hv => hp v (hpending ▸ hv), iff_of_false hdown hnot, fun hfine => absurd hfine hnot⟩
  | found n outcome =>
    simp only at h
    cases hn : p.pending[n]? with
    | none => rw [hn] at h; cases h
    | some value =>
      rw [hn] at h
      have hvalue : value ≠ .null := hp value (List.mem_of_getElem? hn)
      have hrest : ∀ v ∈ p.pending.eraseIdx n, v ≠ .null := fun v hv => hp v (List.mem_of_mem_eraseIdx hv)
      simp only [deliver_eq outcome hvalue, Option.some.injEq, Prod.mk.injEq, true_and] at h
      cases outcome with
      | error e =>
        cases h
        have hnot : ¬ (Arrival.found n (.error e)).Fine engine := by
          rintro ⟨found, hok⟩
          cases hok
        exact ⟨hrest, iff_of_false (Option.some_ne_none e) hnot, fun hfine => absurd hfine hnot⟩
      | ok found =>
        cases h
        refine ⟨hrest, iff_of_true rfl ⟨found, rfl⟩, fun _ found' value' hok hvalue' => ?_⟩
        cases hok
        rw [hn] at hvalue'
        cases hvalue'
        rfl
  | upgraded | closing | closed => cases h; exact ⟨hp, iff_of_true rfl trivial, fun _ => trivial⟩

-- ---------------------------------------------------------------------------
-- Whole runs
-- ---------------------------------------------------------------------------

/-- Nothing escaped, and every message was handled. -/
structure Contained (engine : Engine) (log : List NodeEvent) (p : Node) : Prop where
  up : p.down = none
  handled : ∀ e ∈ log, Handled engine e

/-- Failures of live delivery stay contained exactly when there are none: the
subscription resolves, every payload on the channel is legible, and every lookup
resolves. -/
theorem contained_iff {log : List NodeEvent} (h : (node engine).Run Node.init log p) :
    Contained engine log p ↔ ∀ e ∈ log, e.input.Fine engine := by
  suffices hrun : p.Sound ∧ (p.down = none ↔ ∀ e ∈ log, e.input.Fine engine) ∧
      (p.down = none → ∀ e ∈ log, Handled engine e) by
    obtain ⟨-, hdown, hhandled⟩ := hrun
    exact ⟨fun hc => hdown.mp hc.up, fun hfine => ⟨hdown.mpr hfine, hhandled (hdown.mpr hfine)⟩⟩
  refine h.inv (I := fun log p => p.Sound ∧ (p.down = none ↔ ∀ e ∈ log, e.input.Fine engine) ∧
    (p.down = none → ∀ e ∈ log, Handled engine e)) ?_ ?_
  · exact ⟨by simp [Node.Sound, Node.init], by simp [Node.init], by simp⟩
  · rintro log p x ⟨⟩ p' ⟨hsound, hdown, hhandled⟩ hs
    simp only [List.mem_append, List.mem_singleton]
    cases hup : p.down with
    | some e =>
      have hsame : p' = p := by
        simp only [node, hup, ne_eq, reduceCtorEq, not_false_eq_true, if_true] at hs
        cases hs
        rfl
      subst hsame
      rw [hup] at hdown
      have hnot : ¬ ∀ e ∈ log, e.input.Fine engine := fun hall => by cases hdown.mpr hall
      have hdown' : p'.down ≠ none := by rw [hup]; exact Option.some_ne_none e
      refine ⟨hsound, iff_of_false hdown' fun hall => hnot fun e he => hall e (.inl he), ?_⟩
      exact fun hnone => absurd hnone hdown'
    | none =>
      obtain ⟨hsound', hstep, hevent⟩ := node_step hsound hup hs
      refine ⟨hsound', ?_, ?_⟩
      · rw [hstep]
        constructor
        · rintro hfine e (he | rfl)
          · exact hdown.mp hup e he
          · exact hfine
        · exact fun hall => hall _ (.inr rfl)
      · rintro hnone e (he | rfl)
        · exact hhandled hup e he
        · exact hevent (hstep.mp hnone)

/-- An engine that reads dates in the ISO format and no numbers. -/
def isoEngine : Engine := ⟨TextReader.iso fun _ => .nan, fun _ => "NaN", fun _ => "Invalid Date"⟩

/-- A payload with no more than a delivery reads. -/
def plainPayload : String := "\x7b\"id\":\"m\",\"conversationId\":\"c\"\x7d"

def plainValue : Value := .object [("id", .string "m"), ("conversationId", .string "c")]

theorem parseMessage_plainPayload : parseMessage isoEngine plainPayload = .ok plainValue := by
  have hparse : Json.parse isoEngine.number plainPayload =
      some (.object [("id", .string "m"), ("conversationId", .string "c")]) := rfl
  unfold parseMessage
  rw [hparse]
  rfl

theorem node_plainPayload {p : Node} (hup : p.down = none) :
    (node isoEngine).step (.message channel plainPayload) p =
      some ((), { p with pending := p.pending ++ [plainValue] }) := by
  have hreceive : p.receive isoEngine channel plainPayload =
      { p with pending := p.pending ++ [plainValue] } := by
    unfold Node.receive listener
    rw [if_neg (not_not.mpr rfl), parseMessage_plainPayload]
    rfl
  simp only [node, hup, ne_eq, not_true, if_false, hreceive]

/-- Bob connects, and a message for him arrives and is looked up. -/
theorem contained_iff_delivered : ∃ log p, (node isoEngine).Run Node.init log p ∧ log.length = 4 ∧
    p.sockets.frames.length = 1 ∧ (Contained isoEngine log p ↔ ∀ e ∈ log, e.input.Fine isoEngine) := by
  have hrun := (Machine.Run.nil (M := node isoEngine) (s := Node.init))
    |>.snoc (i := .subscribed (.ok ())) rfl
    |>.snoc (i := .upgraded "bob") rfl
    |>.snoc (node_plainPayload rfl)
    |>.snoc (i := .found 0 (.ok (some ⟨"c", [⟨"bob", none, none⟩], 1, none⟩))) rfl
  exact ⟨_, _, hrun, rfl, rfl, contained_iff hrun⟩

/-- Redis is not there, and `subscribe` rejects: the process is gone, and with
it the delivery of a message that was well formed. -/
theorem not_contained : ∃ log p, (node isoEngine).Run Node.init log p ∧ p.down ≠ none ∧
    (∃ e ∈ log, ∃ value, e.input = .message channel plainPayload ∧
      parseMessage isoEngine plainPayload = .ok value ∧ value ≠ .null ∧ e.after.pending = []) ∧
    ¬ Contained isoEngine log p := by
  have hrun := (Machine.Run.nil (M := node isoEngine) (s := Node.init))
    |>.snoc (i := .subscribed (.error (.port "Connection is closed."))) rfl
    |>.snoc (i := .message channel plainPayload) rfl
  refine ⟨_, _, hrun, by simp, ⟨_, List.mem_append_right _ List.mem_cons_self, plainValue, rfl,
    parseMessage_plainPayload, ?_, rfl⟩, ?_⟩
  · exact fun h => by cases h
  · exact fun h => by cases h.up

example : (Node.init.receive isoEngine channel "null").down.isSome = true := rfl

end Redis

end Jiffy
