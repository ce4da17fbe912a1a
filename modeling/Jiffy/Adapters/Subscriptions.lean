-- SUMMARY: Subscriptions on both message buses: when every active registration gets each message once, whatever is unsubscribed.
import Jiffy.Adapters.MessageBus

/-!
# Subscriptions

Each registration has an unsubscribe function of its own, but the buses look up
what it removes by the handler. The registrations as their callers see them
stand beside the emitter: its listeners are the handlers of the active
registrations, up to order, until one is unsubscribed again while its handler
has another.
-/

namespace Jiffy

open Js

variable {H : Type} [DecidableEq H]

-- ---------------------------------------------------------------------------
-- Registrations
-- ---------------------------------------------------------------------------

/-- The registrations as callers see them: the handler of each, and which of
them are active, that is, had their own unsubscribe function not called yet. -/
structure Registrations (H : Type) where
  handlers : List H
  active : OrderedMap Nat H

namespace Registrations

variable {P : Type}

def empty : Registrations H := ⟨[], .empty⟩

def after (r : Registrations H) : BusCall H P → Registrations H
  | .onMessage handler => ⟨r.handlers ++ [handler], r.active.set r.handlers.length handler⟩
  | .unsubscribe registration => { r with active := r.active.delete registration }
  | .arrive _ => r

/-- Only registrations are active, each with its handler. -/
def Sound (r : Registrations H) : Prop :=
  ∀ n handler, r.active.get n = some handler → r.handlers[n]? = some handler

omit [DecidableEq H] in
theorem Sound.after {r : Registrations H} (h : r.Sound) (call : BusCall H P) : (r.after call).Sound := by
  intro n handler hget
  cases call with
  | onMessage handler' =>
    rw [Registrations.after, OrderedMap.get_set] at hget
    split at hget
    · next hn =>
      cases hget
      rw [hn]
      exact List.getElem?_concat_length
    · have hhandler := h n handler hget
      rw [Registrations.after, List.getElem?_append_left (List.getElem?_eq_some_iff.mp hhandler).1]
      exact hhandler
  | unsubscribe registration =>
    rw [Registrations.after, OrderedMap.get_delete] at hget
    split at hget
    · cases hget
    · exact h n handler hget
  | arrive message => exact h n handler hget

end Registrations

namespace MessageBus

variable {B P V : Type} {M : MessageBus H B P V} {emitter : B → EventEmitter H}
  {emitted : P → Except Failure (Option V)}

abbrev Event (H B P V : Type) :=
  Machine.Event (Subscribing B) (BusCall H P) (Except Failure (List (H × V)))

/-- The registrations after `es`. -/
def registrations (es : List (Event H B P V)) : Registrations H :=
  es.foldl (fun r e => r.after e.input) .empty

/-- What subscribers rely on: a message calls the handler of every active
registration once, and to unsubscribe again takes no listener away. -/
structure Independent (emitter : B → EventEmitter H) (emitted : P → Except Failure (Option V))
    (r : Registrations H) (e : Event H B P V) : Prop where
  delivered {message : P} {value : V} (hcall : e.input = .arrive message)
    (hemitted : emitted message = .ok (some value)) :
    ∃ called, e.output = .ok called ∧ called.Perm (r.active.values.map fun handler => (handler, value))
  again {registration : Nat} (hcall : e.input = .unsubscribe registration)
    (hinactive : r.active.get registration = none) : emitter e.after.bus = emitter e.before.bus

/-- No registration is unsubscribed again while its handler has an active one. -/
def NoTwin (r : Registrations H) (call : BusCall H P) : Prop :=
  ∀ registration handler, call = .unsubscribe registration → r.active.get registration = none →
    r.handlers[registration]? = some handler → handler ∉ r.active.values

/-- Every call of `es` leaves the registrations independent. -/
def IndependentIn (emitter : B → EventEmitter H) (emitted : P → Except Failure (Option V))
    (es : List (Event H B P V)) : Prop :=
  ∀ es₁ e es₂, es = es₁ ++ e :: es₂ → Independent emitter emitted (registrations es₁) e

def NoTwins (es : List (Event H B P V)) : Prop :=
  ∀ es₁ e es₂, es = es₁ ++ e :: es₂ → NoTwin (registrations es₁) e.input

-- ---------------------------------------------------------------------------
-- Runs
-- ---------------------------------------------------------------------------

/-- Every returned function removes the handler of its registration. -/
structure Tracks (emitter : B → EventEmitter H) (r : Registrations H) (s : Subscribing B) : Prop where
  sound : r.Sound
  returned : List.Forall₂ (fun unsubscribe handler =>
    ∀ bus, emitter (unsubscribe bus) = (emitter bus).off handler) s.returned r.handlers

/-- The listeners are the handlers of the active registrations. -/
def InStep (emitter : B → EventEmitter H) (r : Registrations H) (s : Subscribing B) : Prop :=
  (emitter s.bus).listeners.Perm r.active.values

section Step

variable {r : Registrations H} {s s' : Subscribing B} {call : BusCall H P}
  {called : Except Failure (List (H × V))}

/-- A function that was returned removes a listener of its registration's handler. -/
theorem Tracks.unsubscribe (h : Tracks emitter r s) {n : Nat}
    (hstep : M.machine.step (.unsubscribe n) s = some (called, s')) :
    ∃ handler, r.handlers[n]? = some handler ∧ emitter s'.bus = (emitter s.bus).off handler ∧
      s'.returned = s.returned := by
  obtain ⟨unsubscribe, hget, heq⟩ := Option.map_eq_some_iff.mp hstep
  cases heq
  obtain ⟨hlength, hremoves⟩ := List.forall₂_iff_get.mp h.returned
  obtain ⟨hn, rfl⟩ := List.getElem?_eq_some_iff.mp hget
  exact ⟨r.handlers[n], List.getElem?_eq_getElem (hlength ▸ hn),
    hremoves n hn (hlength ▸ hn) s.bus, rfl⟩

theorem Tracks.step (hM : M.OnEmitter emitter emitted) (h : Tracks emitter r s)
    (hstep : M.machine.step call s = some (called, s')) : Tracks emitter (r.after call) s' := by
  refine ⟨h.sound.after call, ?_⟩
  cases call with
  | onMessage handler =>
    cases hstep
    exact List.rel_append h.returned (.cons (fun bus => hM.off s.bus bus handler) .nil)
  | unsubscribe n =>
    obtain ⟨handler, -, -, hreturned⟩ := h.unsubscribe hstep
    rw [hreturned]
    exact h.returned
  | arrive message =>
    cases hstep
    exact h.returned

/-- A listener comes and goes with its registration. -/
theorem InStep.step (hM : M.OnEmitter emitter emitted) (h : Tracks emitter r s) (hin : InStep emitter r s)
    (hstep : M.machine.step call s = some (called, s')) (htwin : NoTwin r call) :
    InStep emitter (r.after call) s' := by
  cases call with
  | onMessage handler =>
    cases hstep
    have hnew : r.active.get r.handlers.length = none := by
      cases hget : r.active.get r.handlers.length with
      | none => rfl
      | some handler' =>
        have hlast := h.sound _ _ hget
        rw [List.getElem?_eq_none (le_refl _)] at hlast
        cases hlast
    unfold InStep
    rw [hM.on, Registrations.after, OrderedMap.values_set_of_none hnew]
    exact hin.append_right _
  | unsubscribe n =>
    obtain ⟨handler, hhandler, hoff, -⟩ := h.unsubscribe hstep
    unfold InStep
    rw [hoff]
    cases hget : r.active.get n with
    | none =>
      -- again, and there is no listener left to take away
      have hnone : handler ∉ (emitter s.bus).listeners := fun hmem =>
        htwin n handler rfl hget hhandler (hin.subset hmem)
      rw [EventEmitter.off_eq_self_iff.mpr hnone, Registrations.after, OrderedMap.delete_of_none hget]
      exact hin
    | some handler' =>
      obtain rfl : handler = handler' := Option.some.inj (hhandler.symm.trans (h.sound _ _ hget))
      exact EventEmitter.off_perm.trans ((hin.erase handler).trans (OrderedMap.values_delete hget).symm)
  | arrive message =>
    cases hstep
    exact hin

/-- While the bus is in step, only a twin makes a call affect another registration. -/
theorem independent_iff_noTwin (hM : M.OnEmitter emitter emitted) (h : Tracks emitter r s)
    (hin : InStep emitter r s) (hstep : M.machine.step call s = some (called, s')) :
    Independent emitter emitted r ⟨s, call, called, s'⟩ ↔ NoTwin r call := by
  cases call with
  | onMessage handler => exact ⟨fun _ => nofun, fun _ => ⟨nofun, nofun⟩⟩
  | unsubscribe n =>
    obtain ⟨handler, hhandler, hoff, -⟩ := h.unsubscribe hstep
    constructor
    · intro hindependent n' handler' hcall hinactive hhandler' hmem
      cases hcall
      obtain rfl : handler = handler' := Option.some.inj (hhandler.symm.trans hhandler')
      have hsame : (emitter s.bus).off handler = emitter s.bus :=
        hoff.symm.trans (hindependent.again rfl hinactive)
      exact EventEmitter.off_eq_self_iff.mp hsame (hin.symm.subset hmem)
    · intro htwin
      refine ⟨nofun, fun hcall hinactive => ?_⟩
      cases hcall
      refine hoff.trans (EventEmitter.off_eq_self_iff.mpr fun hmem => ?_)
      exact htwin n handler rfl hinactive hhandler (hin.subset hmem)
  | arrive message =>
    cases hstep
    refine ⟨fun _ => nofun, fun _ => ⟨fun hcall hemitted => ?_, nofun⟩⟩
    cases hcall
    exact ⟨_, hM.emit hemitted, hin.map _⟩

end Step

section Runs

variable {es : List (Event H B P V)} {s : Subscribing B}

omit [DecidableEq H] in
theorem registrations_concat (e : Event H B P V) :
    registrations (es ++ [e]) = (registrations es).after e.input := by
  rw [registrations, List.foldl_append]
  rfl

omit [DecidableEq H] in
theorem noTwins_concat {e : Event H B P V} :
    NoTwins (es ++ [e]) ↔ NoTwins es ∧ NoTwin (registrations es) e.input :=
  Machine.forall_splits_concat

theorem tracks_run (hM : M.OnEmitter emitter emitted) (h : M.machine.Run ⟨M.new, []⟩ es s) :
    Tracks emitter (registrations es) s := by
  refine h.inv (I := fun es s => Tracks emitter (registrations es) s) ⟨nofun, .nil⟩ ?_
  intro es s call called s' htracks hstep
  rw [registrations_concat]
  exact htracks.step hM hstep

/-- Without twins the bus stays in step. -/
theorem inStep_run (hM : M.OnEmitter emitter emitted) (h : M.machine.Run ⟨M.new, []⟩ es s)
    (htwin : NoTwins es) : InStep emitter (registrations es) s := by
  induction h with
  | nil =>
    unfold InStep
    rw [hM.new]
    exact .nil
  | @snoc es s s' call called hrun hstep ih =>
    obtain ⟨hbefore, hlast⟩ := noTwins_concat.mp htwin
    rw [registrations_concat]
    exact (ih hbefore).step hM (tracks_run hM hrun) hstep hlast

/-- Registrations are independent in exactly the runs without twins. -/
theorem independent_run_iff (hM : M.OnEmitter emitter emitted) (h : M.machine.Run ⟨M.new, []⟩ es s) :
    IndependentIn emitter emitted es ↔ NoTwins es := by
  induction h with
  | nil => simp [IndependentIn, NoTwins]
  | snoc hrun hstep ih =>
    unfold IndependentIn at ih ⊢
    rw [Machine.forall_splits_concat, noTwins_concat, ih]
    apply and_congr_right
    intro htwin
    exact independent_iff_noTwin hM (tracks_run hM hrun) (inStep_run hM hrun htwin) hstep

end Runs

/-- On both buses, registrations are independent in exactly the runs in which
none is unsubscribed again while its handler has an active one. -/
theorem subscriptions_independent_iff :
    (∀ es s, (InProcessMessageBus.calls (H := H)).machine.Run ⟨.new, []⟩ es s →
      (IndependentIn (fun bus => bus.emitter) (fun message => .ok (some message)) es ↔ NoTwins es)) ∧
    ∀ engine es s, (RedisMessageBus.calls (H := H) engine).machine.Run ⟨.new, []⟩ es s →
      (IndependentIn (fun bus => bus.emitter) (fun p => RedisMessageBus.listener engine p.1 p.2) es ↔
        NoTwins es) :=
  ⟨fun _ _ hrun => independent_run_iff InProcessMessageBus.onEmitter hrun,
    fun engine _ _ hrun => independent_run_iff (RedisMessageBus.onEmitter engine) hrun⟩

/-- With two different handlers the first registration may be unsubscribed twice:
the second still gets the message. -/
theorem second_handler_called : ∃ es e s,
    (InProcessMessageBus.calls (H := String)).machine.Run ⟨.new, []⟩ (es ++ [e]) s ∧
      es.map Machine.Event.input =
        [.onMessage "left", .onMessage "right", .unsubscribe 0, .unsubscribe 0] ∧
      (registrations es).active.values = ["right"] ∧
      e.input = .arrive ⟨"m", "c", "ann", "hi", 0, none⟩ ∧
      e.output = .ok [("right", ⟨"m", "c", "ann", "hi", 0, none⟩)] ∧
      IndependentIn (fun bus => bus.emitter) (fun message => .ok (some message)) (es ++ [e]) := by
  have hrun := (Machine.Run.nil (M := (InProcessMessageBus.calls (H := String)).machine)
      (s := ⟨.new, []⟩))
    |>.snoc (i := .onMessage "left") rfl
    |>.snoc (i := .onMessage "right") rfl
    |>.snoc (i := .unsubscribe 0) rfl
    |>.snoc (i := .unsubscribe 0) rfl
    |>.snoc (i := .arrive ⟨"m", "c", "ann", "hi", 0, none⟩) rfl
  refine ⟨_, _, _, hrun, rfl, by decide, rfl, rfl, (subscriptions_independent_iff.1 _ _ hrun).mpr ?_⟩
  refine noTwins_concat.mpr ⟨noTwins_concat.mpr ⟨noTwins_concat.mpr ⟨noTwins_concat.mpr
    ⟨noTwins_concat.mpr ⟨fun _ _ _ hsplit => by simp at hsplit, ?_⟩, ?_⟩, ?_⟩, ?_⟩, ?_⟩
  · exact fun _ _ hcall => by cases hcall
  · exact fun _ _ hcall => by cases hcall
  · intro registration handler hcall hinactive
    cases hcall
    cases hinactive
  · -- the second call: the first registration's handler has no other that is active
    intro registration handler hcall _ hhandler
    cases hcall
    cases hhandler
    decide
  · exact fun _ _ hcall => by cases hcall

/-- A handler is registered twice and the first registration unsubscribed twice:
the second, which is still active, misses the message. -/
theorem twin_misses_message : ∃ es e s,
    (InProcessMessageBus.calls (H := String)).machine.Run ⟨.new, []⟩ (es ++ [e]) s ∧
      es.map Machine.Event.input =
        [.onMessage "handler", .onMessage "handler", .unsubscribe 0, .unsubscribe 0] ∧
      (registrations es).active.values = ["handler"] ∧
      e.input = .arrive ⟨"m", "c", "ann", "hi", 0, none⟩ ∧ e.output = .ok [] ∧
      ¬ IndependentIn (fun bus => bus.emitter) (fun message => .ok (some message)) (es ++ [e]) := by
  have hrun := (Machine.Run.nil (M := (InProcessMessageBus.calls (H := String)).machine)
      (s := ⟨.new, []⟩))
    |>.snoc (i := .onMessage "handler") rfl
    |>.snoc (i := .onMessage "handler") rfl
    |>.snoc (i := .unsubscribe 0) rfl
    |>.snoc (i := .unsubscribe 0) rfl
    |>.snoc (i := .arrive ⟨"m", "c", "ann", "hi", 0, none⟩) rfl
  refine ⟨_, _, _, hrun, rfl, by decide, rfl, rfl, fun hindependent => ?_⟩
  obtain ⟨called, hcalled, hperm⟩ := (hindependent _ _ [] rfl).delivered rfl rfl
  cases hcalled
  exact absurd hperm.length_eq (by decide)

end MessageBus

-- ---------------------------------------------------------------------------
-- Subscribing to the channel
-- ---------------------------------------------------------------------------

/-- The subscriber was told to subscribe if there was a registration, and once;
the functions that were returned leave that as it is. -/
structure RedisMessageBus.SubscribedOnce (s : Subscribing (RedisMessageBus H)) : Prop where
  subscribed : s.bus.subscribed = !s.returned.isEmpty
  channels : s.bus.channels = if s.bus.subscribed then [channel] else []
  returned : ∀ unsubscribe ∈ s.returned, ∀ bus,
    (unsubscribe bus).subscribed = bus.subscribed ∧ (unsubscribe bus).channels = bus.channels

theorem RedisMessageBus.onMessage_subscribed (bus : RedisMessageBus H) (handler : H) :
    (bus.onMessage handler).1.subscribed = true := by
  unfold RedisMessageBus.onMessage
  cases hsubscribed : bus.subscribed <;> simp [hsubscribed]

theorem RedisMessageBus.onMessage_channels {bus : RedisMessageBus H}
    (h : bus.channels = if bus.subscribed then [channel] else []) (handler : H) :
    (bus.onMessage handler).1.channels = [channel] := by
  unfold RedisMessageBus.onMessage
  cases hsubscribed : bus.subscribed <;> simp [hsubscribed, h]

theorem RedisMessageBus.subscribes_once {engine : Engine}
    {es : List (MessageBus.Event H (RedisMessageBus H) (String × String) Value)}
    {s : Subscribing (RedisMessageBus H)} (h : (calls engine).machine.Run ⟨.new, []⟩ es s) :
    SubscribedOnce s := by
  refine h.inv (I := fun _ s => SubscribedOnce s) ⟨rfl, rfl, (fun _ hmem => by cases hmem)⟩ ?_
  rintro - s call called s' hs hstep
  cases call with
  | onMessage handler =>
    cases hstep
    have hsubscribed := onMessage_subscribed s.bus handler
    refine ⟨?_, ?_, ?_⟩
    · exact hsubscribed.trans (by simp)
    · exact (onMessage_channels hs.channels handler).trans (if_pos hsubscribed).symm
    · intro unsubscribe hmem bus
      rcases List.mem_append.mp hmem with hmem | hmem
      · exact hs.returned unsubscribe hmem bus
      · rw [List.mem_singleton.mp hmem]
        exact ⟨rfl, rfl⟩
  | unsubscribe n =>
    obtain ⟨unsubscribe, hget, heq⟩ := Option.map_eq_some_iff.mp hstep
    cases heq
    obtain ⟨hsubscribed, hchannels⟩ := hs.returned unsubscribe (List.mem_of_getElem? hget) s.bus
    exact ⟨hsubscribed.trans hs.subscribed, by rw [hchannels, hsubscribed]; exact hs.channels, hs.returned⟩
  | arrive message =>
    cases hstep
    exact hs

end Jiffy
