-- SUMMARY: When a socket is closed for its token's expiry, against the instant at which the token expires.
import Jiffy.Adapters.TokenVerifier
import Jiffy.WebSocket.Connection

/-!
# Expiry

An upgrade starts one timer for the expiry of its identity. While the client
does not close the socket first, the server closes it when that timer fires, so
the socket lives as long as its token exactly when the timer can wait that long.
-/

namespace Jiffy

open Js Async

namespace WebSocketServer

/-- Socket `s` was opened at `time` for a verified identity. -/
def OpenedAt (log : Log) (s : Nat) (identity : VerifiedIdentity) (time : Int) : Prop :=
  ∃ e ∈ log, e.input = .upgraded identity ∧ e.before.sockets.next = s ∧ e.before.clock = time

/-- The client closed socket `s` while it was open, or it failed. -/
def ClosedByClient (log : Log) (s : Nat) : Prop := ∃ e ∈ log, e.input = .closing s

variable {log : Log} {p p' : Connections} {e : Machine.Event Connections ConnectionEvent Unit}
  {x : ConnectionEvent} {s : Nat}

theorem openedAt_snoc {identity : VerifiedIdentity} {time : Int} :
    OpenedAt (log ++ [e]) s identity time ↔ OpenedAt log s identity time ∨
      e.input = .upgraded identity ∧ e.before.sockets.next = s ∧ e.before.clock = time := by
  unfold OpenedAt
  simp only [List.mem_append, List.mem_singleton, or_and_right, exists_or, exists_eq_left]

theorem closedByClient_snoc :
    ClosedByClient (log ++ [e]) s ↔ ClosedByClient log s ∨ e.input = .closing s := by
  unfold ClosedByClient
  simp only [List.mem_append, List.mem_singleton, or_and_right, exists_or, exists_eq_left]

-- ---------------------------------------------------------------------------
-- Timers and listeners
-- ---------------------------------------------------------------------------

/-- Whose the timers are, and that none is overdue. -/
structure Timed (p : Connections) : Prop where
  pending : ∀ t ∈ p.timers, p.clock ≤ t.firesAt
  id_lt : ∀ t ∈ p.timers, t.id < p.nextTimer
  id_inj : ∀ t ∈ p.timers, ∀ t' ∈ p.timers, t.id = t'.id → t = t'
  socket_lt : ∀ t ∈ p.timers, t.socket < p.sockets.next
  listener_lt : ∀ l ∈ p.listeners, ∀ id, l.expiryTimer = some id → id < p.nextTimer
  listener : ∀ l ∈ p.listeners, ∀ t ∈ p.timers, l.expiryTimer = some t.id → t.socket = l.socket
  opened_lt : ∀ s ∈ p.sockets.opened, s < p.sockets.next
  closes_lt : ∀ c ∈ p.closes, c.socket < p.sockets.next
  closes_closed : ∀ c ∈ p.closes, c.socket ∉ p.sockets.opened

theorem timed_init (clock : Int) : Timed (.init clock) := by
  constructor <;> exact nofun

theorem timerDelay_pos (delay : Option Int) : 1 ≤ timerDelay delay := by
  unfold timerDelay
  split
  · split
    · next h => exact h.1
    · exact le_rfl
  · exact le_rfl

/-- A timer that an upgrade starts. -/
theorem mem_startedTimers {identity : VerifiedIdentity} {t : ExpiryTimer}
    (h : t ∈ startedTimers identity p) : ∃ expiresAt, identity.expiresAt = some expiresAt ∧
      t = ⟨p.nextTimer, p.sockets.next,
        p.clock + timerDelay (expiresAt.time.map fun t => max (t - p.clock) 0)⟩ := by
  unfold startedTimers at h
  obtain ⟨expiresAt, hexpires, rfl⟩ := List.mem_map.mp h
  exact ⟨expiresAt, Option.mem_toList.mp hexpires, rfl⟩

/-- There is one at most. -/
theorem startedTimers_unique {identity : VerifiedIdentity} {t t' : ExpiryTimer}
    (h : t ∈ startedTimers identity p) (h' : t' ∈ startedTimers identity p) : t = t' := by
  obtain ⟨expiresAt, hexpires, rfl⟩ := mem_startedTimers h
  obtain ⟨expiresAt', hexpires', rfl⟩ := mem_startedTimers h'
  rw [hexpires] at hexpires'
  cases hexpires'
  rfl

theorem startedTimers_id_lt {identity : VerifiedIdentity} {t : ExpiryTimer}
    (h : t ∈ startedTimers identity p) : t.id < (withSocket identity p).nextTimer := by
  obtain ⟨_, -, heq⟩ := mem_startedTimers h
  rw [congrArg ExpiryTimer.id heq]
  exact Nat.lt_add_of_pos_right (List.length_pos_of_mem h)

namespace Timed

theorem id_ne_started (h : Timed p) {identity : VerifiedIdentity} {t t' : ExpiryTimer}
    (ht : t ∈ p.timers) (ht' : t' ∈ startedTimers identity p) : t.id ≠ t'.id := by
  obtain ⟨_, -, rfl⟩ := mem_startedTimers ht'
  exact (h.id_lt t ht).ne

theorem upgraded (h : Timed p) (identity : VerifiedIdentity) : Timed (withSocket identity p) := by
  constructor
  · intro t ht
    rcases List.mem_append.mp ht with ht | ht
    · exact h.pending t ht
    · obtain ⟨expiresAt, -, rfl⟩ := mem_startedTimers ht
      have hdelay := timerDelay_pos (expiresAt.time.map fun t => max (t - p.clock) 0)
      simp only [withSocket]
      omega
  · intro t ht
    rcases List.mem_append.mp ht with ht | ht
    · exact Nat.lt_add_right _ (h.id_lt t ht)
    · exact startedTimers_id_lt ht
  · intro t ht t' ht' hid
    rcases List.mem_append.mp ht with ht | ht
    · rcases List.mem_append.mp ht' with ht' | ht'
      · exact h.id_inj t ht t' ht' hid
      · exact absurd hid (h.id_ne_started ht ht')
    · rcases List.mem_append.mp ht' with ht' | ht'
      · exact absurd hid.symm (h.id_ne_started ht' ht)
      · exact startedTimers_unique ht ht'
  · intro t ht
    rcases List.mem_append.mp ht with ht | ht
    · exact Nat.lt_succ_of_lt (h.socket_lt t ht)
    · obtain ⟨_, -, rfl⟩ := mem_startedTimers ht
      exact Nat.lt_succ_self _
  · intro l hl id hid
    rcases List.mem_append.mp hl with hl | hl
    · exact Nat.lt_add_right _ (h.listener_lt l hl id hid)
    · rw [List.mem_singleton.mp hl] at hid
      obtain ⟨t, ht, rfl⟩ := Option.map_eq_some_iff.mp hid
      exact startedTimers_id_lt (List.mem_of_mem_head? ht)
  · intro l hl t ht hid
    rcases List.mem_append.mp hl with hl | hl
    · rcases List.mem_append.mp ht with ht | ht
      · exact h.listener l hl t ht hid
      · obtain ⟨_, -, rfl⟩ := mem_startedTimers ht
        exact absurd (h.listener_lt l hl _ hid) (lt_irrefl _)
    · rw [List.mem_singleton.mp hl] at hid ⊢
      obtain ⟨t', ht', hid⟩ := Option.map_eq_some_iff.mp hid
      rcases List.mem_append.mp ht with ht | ht
      · exact absurd hid.symm (h.id_ne_started ht (List.mem_of_mem_head? ht'))
      · obtain ⟨_, -, rfl⟩ := mem_startedTimers ht
        rfl
  · intro s hs
    rcases List.mem_append.mp hs with hs | hs
    · exact Nat.lt_succ_of_lt (h.opened_lt s hs)
    · rw [List.mem_singleton.mp hs]
      exact Nat.lt_succ_self _
  · intro c hc
    exact Nat.lt_succ_of_lt (h.closes_lt c hc)
  · intro c hc hs
    rcases List.mem_append.mp hs with hs | hs
    · exact h.closes_closed c hc hs
    · exact (h.closes_lt c hc).ne (List.mem_singleton.mp hs)

/-- Sockets and timers go away. -/
theorem shrink (h : Timed p) (hclock : p'.clock = p.clock) (htimers : ∀ t ∈ p'.timers, t ∈ p.timers)
    (hnextTimer : p'.nextTimer = p.nextTimer) (hnext : p'.sockets.next = p.sockets.next)
    (hlisteners : ∀ l ∈ p'.listeners, l ∈ p.listeners)
    (hopened : ∀ s ∈ p'.sockets.opened, s ∈ p.sockets.opened)
    (hcloses : ∀ c ∈ p'.closes, c ∈ p.closes ∨ c.socket < p.sockets.next ∧
      c.socket ∉ p'.sockets.opened) : Timed p' := by
  constructor
  · rw [hclock]
    exact fun t ht => h.pending t (htimers t ht)
  · rw [hnextTimer]
    exact fun t ht => h.id_lt t (htimers t ht)
  · exact fun t ht t' ht' => h.id_inj t (htimers t ht) t' (htimers t' ht')
  · rw [hnext]
    exact fun t ht => h.socket_lt t (htimers t ht)
  · rw [hnextTimer]
    exact fun l hl => h.listener_lt l (hlisteners l hl)
  · exact fun l hl t ht => h.listener l (hlisteners l hl) t (htimers t ht)
  · rw [hnext]
    exact fun s hs => h.opened_lt s (hopened s hs)
  · rw [hnext]
    exact fun c hc => (hcloses c hc).elim (h.closes_lt c) And.left
  · intro c hc hs
    rcases hcloses c hc with hc | ⟨-, hclosed⟩
    · exact h.closes_closed c hc (hopened _ hs)
    · exact hclosed hs

theorem step (h : Timed p) (hs : Step p x p') : Timed p' := by
  cases hs with
  | upgraded identity => exact h.upgraded identity
  | message find m =>
    exact h.shrink rfl (fun _ => id) rfl rfl (fun _ => id) (fun _ => id) fun _ => .inl
  | closing _ =>
    exact h.shrink rfl (fun _ => id) rfl rfl (fun _ => id) (fun _ => List.mem_of_mem_filter)
      fun _ => .inl
  | closed _ _ =>
    exact h.shrink rfl (fun _ => List.mem_of_mem_filter) rfl rfl (fun _ => List.mem_of_mem_filter)
      (fun _ => id) fun _ => .inl
  | elapsed _ htimers => exact { h with pending := htimers }
  | @fired timer hmem _ =>
    refine h.shrink rfl (fun _ => List.mem_of_mem_filter) rfl rfl (fun _ => id)
      (fun _ => List.mem_of_mem_filter) fun c hc => ?_
    simp only [withFired] at hc
    split at hc
    · rcases List.mem_append.mp hc with hc | hc
      · exact .inl hc
      · rw [List.mem_singleton.mp hc]
        exact .inr ⟨h.socket_lt timer hmem, fun hs => of_decide_eq_true (List.mem_filter.mp hs).2 rfl⟩
    · exact .inl hc

end Timed

-- ---------------------------------------------------------------------------
-- One socket and its timer
-- ---------------------------------------------------------------------------

/-- The timer of an open socket is still to fire. -/
structure Waiting (p : Connections) (s : Nat) (firesAt : Int) : Prop where
  opened : s ∈ p.sockets.opened
  timer : ∃ t ∈ p.timers, t.socket = s
  firesAt : ∀ t ∈ p.timers, t.socket = s → t.firesAt = firesAt
  unclosed : ∀ c ∈ p.closes, c.socket ≠ s

/-- The timer of a socket has fired and closed it. -/
structure Expired (p : Connections) (s : Nat) (firesAt : Int) : Prop where
  closed : s ∉ p.sockets.opened
  began : ∃ c ∈ p.closes, c.socket = s
  onTime : ∀ c ∈ p.closes, c.socket = s → c.code = 4401 ∧ c.time = firesAt

/-- A new socket waits for its timer. -/
theorem waiting_upgraded (h : Timed p) {identity : VerifiedIdentity} {expiresAt : Date}
    (hexpires : identity.expiresAt = some expiresAt) : Waiting (withSocket identity p) p.sockets.next
      (p.clock + timerDelay (expiresAt.time.map fun t => max (t - p.clock) 0)) := by
  have hstarted : startedTimers identity p = [⟨p.nextTimer, p.sockets.next,
      p.clock + timerDelay (expiresAt.time.map fun t => max (t - p.clock) 0)⟩] := by
    unfold startedTimers
    rw [hexpires]
    rfl
  refine ⟨List.mem_append_right _ (List.mem_singleton.mpr rfl), ?_, ?_, ?_⟩
  · have hmem := List.mem_append_right p.timers (hstarted ▸ List.mem_singleton.mpr rfl)
    exact ⟨_, hmem, rfl⟩
  · intro t ht hsocket
    rcases List.mem_append.mp ht with ht | ht
    · exact absurd hsocket (h.socket_lt t ht).ne
    · rw [hstarted, List.mem_singleton] at ht
      rw [ht]
  · intro c hc
    exact (h.closes_lt c hc).ne

theorem Waiting.step {firesAt : Int} (h : Waiting p s firesAt) (htimed : Timed p)
    (hclient : x ≠ .closing s) (hs : Step p x p') : Waiting p' s firesAt ∨ Expired p' s firesAt := by
  cases hs with
  | upgraded identity =>
    refine .inl ⟨List.mem_append_left _ h.opened, ?_, ?_, h.unclosed⟩
    · obtain ⟨t, ht, hsocket⟩ := h.timer
      exact ⟨t, List.mem_append_left _ ht, hsocket⟩
    · intro t ht hsocket
      rcases List.mem_append.mp ht with ht | ht
      · exact h.firesAt t ht hsocket
      · obtain ⟨_, -, rfl⟩ := mem_startedTimers ht
        exact absurd hsocket (htimed.opened_lt s h.opened).ne'
  | message find m => exact .inl ⟨h.opened, h.timer, h.firesAt, h.unclosed⟩
  | @closing s' _ =>
    have hother : s ≠ s' := fun heq => hclient (congrArg ConnectionEvent.closing heq.symm)
    exact .inl ⟨List.mem_filter.mpr ⟨h.opened, decide_eq_true hother⟩, h.timer, h.firesAt, h.unclosed⟩
  | @closed listener hmem hclosed =>
    refine .inl ⟨h.opened, ?_, fun t ht => h.firesAt t (List.mem_of_mem_filter ht), h.unclosed⟩
    obtain ⟨t, ht, hsocket⟩ := h.timer
    refine ⟨t, List.mem_filter.mpr ⟨ht, decide_eq_true fun hid => ?_⟩, hsocket⟩
    -- the timer that the listener clears is of its own socket
    have hown := htimed.listener listener hmem t ht hid
    exact hclosed (hown ▸ hsocket ▸ h.opened)
  | elapsed _ _ => exact .inl ⟨h.opened, h.timer, h.firesAt, h.unclosed⟩
  | @fired timer hmem hdue =>
    by_cases hown : timer.socket = s
    · subst hown
      refine .inr ⟨fun hs => of_decide_eq_true (List.mem_filter.mp hs).2 rfl, ?_, ?_⟩
      · refine ⟨expiry timer p, ?_, rfl⟩
        simp only [withFired, if_pos h.opened]
        exact List.mem_append_right _ (List.mem_singleton.mpr rfl)
      · intro c hc hsocket
        simp only [withFired, if_pos h.opened] at hc
        rcases List.mem_append.mp hc with hc | hc
        · exact absurd hsocket (h.unclosed c hc)
        · rw [List.mem_singleton.mp hc]
          have htime := h.firesAt timer hmem rfl
          exact ⟨rfl, le_antisymm (htime ▸ htimed.pending timer hmem) (htime ▸ hdue)⟩
    · refine .inl ⟨List.mem_filter.mpr ⟨h.opened, decide_eq_true (Ne.symm hown)⟩, ?_,
        fun t ht => h.firesAt t (List.mem_of_mem_filter ht), ?_⟩
      · obtain ⟨t, ht, hsocket⟩ := h.timer
        refine ⟨t, List.mem_filter.mpr ⟨ht, decide_eq_true fun hid => ?_⟩, hsocket⟩
        exact hown (htimed.id_inj t ht timer hmem hid ▸ hsocket)
      · intro c hc
        simp only [withFired] at hc
        split at hc
        · rcases List.mem_append.mp hc with hc | hc
          · exact h.unclosed c hc
          · rw [List.mem_singleton.mp hc]
            exact hown
        · exact h.unclosed c hc

theorem Expired.step {firesAt : Int} (h : Expired p s firesAt) (htimed : Timed p) (hs : Step p x p') :
    Expired p' s firesAt := by
  cases hs with
  | upgraded identity =>
    refine ⟨fun hs => ?_, h.began, h.onTime⟩
    rcases List.mem_append.mp hs with hs | hs
    · exact h.closed hs
    · obtain ⟨c, hc, rfl⟩ := h.began
      exact (htimed.closes_lt c hc).ne (List.mem_singleton.mp hs)
  | message find m => exact ⟨h.closed, h.began, h.onTime⟩
  | closing _ => exact ⟨fun hs => h.closed (List.mem_of_mem_filter hs), h.began, h.onTime⟩
  | closed _ _ => exact ⟨h.closed, h.began, h.onTime⟩
  | elapsed _ _ => exact ⟨h.closed, h.began, h.onTime⟩
  | @fired timer _ _ =>
    refine ⟨fun hs => h.closed (List.mem_of_mem_filter hs), ?_, ?_⟩
    · obtain ⟨c, hc, hsocket⟩ := h.began
      refine ⟨c, ?_, hsocket⟩
      simp only [withFired]
      split
      · exact List.mem_append_left _ hc
      · exact hc
    · intro c hc hsocket
      simp only [withFired] at hc
      split at hc
      · next hopen =>
        rcases List.mem_append.mp hc with hc | hc
        · exact h.onTime c hc hsocket
        · rw [List.mem_singleton.mp hc] at hsocket
          exact absurd (hsocket ▸ hopen) h.closed
      · exact h.onTime c hc hsocket

/-- A socket that was opened for an identity that expires waits or has expired,
unless its client closed it. -/
def OnSchedule (log : Log) (p : Connections) : Prop :=
  ∀ s identity time expiresAt, OpenedAt log s identity time → identity.expiresAt = some expiresAt →
    ¬ ClosedByClient log s →
      Waiting p s (time + timerDelay (expiresAt.time.map fun t => max (t - time) 0)) ∨
        Expired p s (time + timerDelay (expiresAt.time.map fun t => max (t - time) 0))

theorem OnSchedule.step (h : OnSchedule log p) (htimed : Timed p) {out : Unit} (hs : Step p x p') :
    OnSchedule (log ++ [⟨p, x, out, p'⟩]) p' := by
  intro s identity time expiresAt hopened hexpires hclient
  rw [closedByClient_snoc, not_or] at hclient
  rcases openedAt_snoc.mp hopened with hopened | ⟨rfl, rfl, rfl⟩
  · rcases h s identity time expiresAt hopened hexpires hclient.1 with hwaiting | hexpired
    · exact hwaiting.step htimed hclient.2 hs
    · exact .inr (hexpired.step htimed hs)
  · cases hs
    exact .inl (waiting_upgraded htimed hexpires)

theorem schedule_run {clock : Int} (h : machine.Run (.init clock) log p) :
    Timed p ∧ OnSchedule log p := by
  refine h.inv (I := fun log p => Timed p ∧ OnSchedule log p) ⟨timed_init clock, ?_⟩ ?_
  · intro s identity time expiresAt hopened
    obtain ⟨e, he, -⟩ := hopened
    cases he
  · intro log p x out p' hI hs
    exact ⟨hI.1.step (machine_step hs), hI.2.step hI.1 (machine_step hs)⟩

-- ---------------------------------------------------------------------------
-- As long as the token
-- ---------------------------------------------------------------------------

/-- The frames that went out on a socket. -/
def framesOn (s : Nat) (p : Connections) : List (Frame Message) :=
  p.sockets.frames.filter fun f => f.socket = s

/-- A socket opened at `time` is closed when its token expires, or at once when
that has passed, up to the granularity of timers; an Invalid Date never comes.
Nothing is sent on it from then on. -/
structure LivesAsLong (expiresAt : Date) (time : Int) (log : Log) (p : Connections) (s : Nat) : Prop where
  closed : ∀ t, expiresAt.time = some t → max time t + 1 < p.clock → ∃ c ∈ p.closes, c.socket = s
  onTime : ∀ c ∈ p.closes, c.socket = s → c.code = 4401 ∧
    ∃ t, expiresAt.time = some t ∧ max time t ≤ c.time ∧ c.time ≤ max time t + 1
  silent : ∀ e ∈ log, (∃ c ∈ e.before.closes, c.socket = s) → framesOn s e.after = framesOn s e.before

/-- A timer started at `time` can wait for a token's expiry. -/
def WithinReach (exp : Number) (time : Int) : Prop :=
  ∃ t, (JwtTokenVerifier.dateOfSeconds exp).time = some t ∧ t - time ≤ 2147483647

/-- No frame goes out on a socket that the server has closed. -/
theorem Timed.silent (h : Timed p) (hs : Step p x p') (hclosed : ∃ c ∈ p.closes, c.socket = s) :
    framesOn s p' = framesOn s p := by
  cases hs with
  | upgraded identity => rfl
  | message find m =>
    obtain ⟨c, hc, rfl⟩ := hclosed
    have hnone : (delivered (find m.conversationId) p m).filter (fun f => f.socket = c.socket) = [] := by
      apply List.filter_eq_nil_iff.mpr
      intro f hf hsocket
      unfold delivered at hf
      split at hf
      · obtain ⟨s, hs, rfl⟩ := List.mem_map.mp hf
        obtain ⟨participant, -, hs⟩ := List.mem_flatMap.mp hs
        have hopen := of_decide_eq_true (List.mem_filter.mp hs).2
        exact h.closes_closed c hc (of_decide_eq_true hsocket ▸ hopen)
      · cases hf
    unfold framesOn sent
    rw [List.filter_append, hnone, List.append_nil]
  | closing _ => rfl
  | closed _ _ => rfl
  | elapsed _ _ => rfl
  | fired _ _ => rfl

/-- A delay that a timer can wait for is waited for; none is a millisecond. -/
theorem timerDelay_within {time t : Int} (h : t - time ≤ 2147483647) :
    max time t ≤ time + timerDelay (some (max (t - time) 0)) ∧
      time + timerDelay (some (max (t - time) 0)) ≤ max time t + 1 := by
  unfold timerDelay
  simp only
  split
  · omega
  · omega

theorem timerDelay_beyond {time t : Int} (h : 2147483647 < t - time) :
    timerDelay (some (max (t - time) 0)) = 1 := by
  unfold timerDelay
  simp only
  rw [if_neg (by omega)]

/-- In reach, a socket that waits or has expired lives as long as its token. -/
theorem OnSchedule.livesAsLong (h : OnSchedule log p) (htimed : Timed p) {identity : VerifiedIdentity}
    {expiresAt : Date} {time t : Int} (hopened : OpenedAt log s identity time)
    (hexpires : identity.expiresAt = some expiresAt) (hclient : ¬ ClosedByClient log s)
    (ht : expiresAt.time = some t) (hreach : t - time ≤ 2147483647)
    (hsilent : ∀ e ∈ log, (∃ c ∈ e.before.closes, c.socket = s) →
      framesOn s e.after = framesOn s e.before) : LivesAsLong expiresAt time log p s := by
  have hwithin := timerDelay_within hreach
  have hschedule := h s identity time expiresAt hopened hexpires hclient
  rw [ht] at hschedule
  simp only [Option.map_some] at hschedule
  refine ⟨fun t' ht' hlate => ?_, fun c hc hsocket => ?_, hsilent⟩
  · cases ht.symm.trans ht'
    rcases hschedule with hwaiting | hexpired
    · obtain ⟨timer, htimer, hsocket⟩ := hwaiting.timer
      have hpending := htimed.pending timer htimer
      rw [hwaiting.firesAt timer htimer hsocket] at hpending
      omega
    · exact hexpired.began
  · rcases hschedule with hwaiting | hexpired
    · exact absurd hsocket (hwaiting.unclosed c hc)
    · obtain ⟨hcode, htime⟩ := hexpired.onTime c hc hsocket
      exact ⟨hcode, t, ht, htime ▸ hwithin⟩

/-- A timer that cannot wait closes its socket a millisecond after it was
opened. -/
theorem closed_early {identity : VerifiedIdentity} {expiresAt : Date} {time : Int}
    (hexpires : identity.expiresAt = some expiresAt)
    (hdelay : timerDelay (expiresAt.time.map fun t => max (t - time) 0) = 1) :
    ∃ log p, machine.Run (.init time) log p ∧ OpenedAt log 0 identity time ∧ ¬ ClosedByClient log 0 ∧
      ∃ c ∈ p.closes, c.socket = 0 ∧ c.time = time + 1 := by
  have htimers : (withSocket identity (.init time)).timers = [⟨0, 0, time + 1⟩] := by
    unfold withSocket startedTimers
    rw [hexpires]
    simp only [Option.toList_some, List.map_cons, List.map_nil, Connections.init, hdelay, Sockets.empty,
      List.nil_append]
  have hupgraded : machine.step (.upgraded identity) (.init time) =
      some ((), withSocket identity (.init time)) := by
    rw [← turn_upgraded]
    rfl
  have helapsed : machine.step (.elapsed (time + 1)) (withSocket identity (.init time)) =
      some ((), { withSocket identity (.init time) with clock := time + 1 }) := by
    simp only [machine]
    rw [if_pos]
    refine ⟨Int.le_add_one le_rfl, fun t ht => ?_⟩
    rw [htimers, List.mem_singleton] at ht
    rw [ht]
  have hfired : machine.step (.fired 0) { withSocket identity (.init time) with clock := time + 1 } =
      some ((), withFired ⟨0, 0, time + 1⟩
        { withSocket identity (.init time) with clock := time + 1 }) := by
    rw [← turn_expired]
    simp only [machine, htimers, List.find?_cons, decide_true, le_refl, if_true]
  have hrun := ((Machine.Run.nil.snoc hupgraded).snoc helapsed).snoc hfired
  refine ⟨_, _, hrun, ⟨_, List.mem_cons_self, rfl, rfl, rfl⟩, ?_, ?_⟩
  · rintro ⟨e, he, hinput⟩
    simp only [List.nil_append, List.cons_append, List.mem_cons, List.not_mem_nil, or_false] at he
    rcases he with rfl | rfl | rfl <;> cases hinput
  · refine ⟨expiry ⟨0, 0, time + 1⟩ { withSocket identity (.init time) with clock := time + 1 }, ?_,
      rfl, rfl⟩
    have hopen : 0 ∈ (withSocket identity (.init time)).sockets.opened := List.mem_singleton.mpr rfl
    simp only [withFired, if_pos hopen]
    exact List.mem_append_right _ (List.mem_singleton.mpr rfl)

/-- The socket of a verified identity lives as long as its token, whatever else
happens, exactly when a timer can wait for the expiry. -/
theorem lives_as_long_iff {verifier : JwtTokenVerifier} {token : String} {identity : VerifiedIdentity}
    {expiresAt : Date} (hverified : verifier.verify token = .ok identity)
    (hexpires : identity.expiresAt = some expiresAt) (time : Int) :
    ∃ payload exp, verifier.jwtVerify token = .ok payload ∧ payload.claim "exp" = some (.number exp) ∧
      ((∀ clock log p s, machine.Run (.init clock) log p → OpenedAt log s identity time →
        ¬ ClosedByClient log s → LivesAsLong expiresAt time log p s) ↔ WithinReach exp time) := by
  obtain ⟨payload, exp, hpayload, hexp, rfl⟩ :=
    JwtTokenVerifier.expiresAt_of_verify hverified hexpires
  refine ⟨payload, exp, hpayload, hexp, fun hlives => ?_, ?_⟩
  · by_contra hbeyond
    have hdelay : timerDelay ((JwtTokenVerifier.dateOfSeconds exp).time.map
        fun t => max (t - time) 0) = 1 := by
      cases ht : (JwtTokenVerifier.dateOfSeconds exp).time with
      | none => rfl
      | some t => exact timerDelay_beyond (not_le.mp fun hreach => hbeyond ⟨t, ht, hreach⟩)
    obtain ⟨log, p, hrun, hopened, hclient, c, hc, hsocket, htime⟩ := closed_early hexpires hdelay
    obtain ⟨-, t, ht, hnotBefore, -⟩ := (hlives time log p 0 hrun hopened hclient).onTime c hc hsocket
    refine hbeyond ⟨t, ht, ?_⟩
    omega
  · rintro ⟨t, ht, hreach⟩ clock log p s hrun hopened hclient
    obtain ⟨htimed, hschedule⟩ := schedule_run hrun
    refine hschedule.livesAsLong htimed hopened hexpires hclient ht hreach ?_
    exact hrun.events (P := fun e => (∃ c ∈ e.before.closes, c.socket = s) →
      framesOn s e.after = framesOn s e.before) fun hbefore hs hclosed =>
        (schedule_run hbefore).1.silent (machine_step hs) hclosed

/-- A verifier of tokens of ann's that expire at these seconds. -/
def verifierOf (seconds : ℤ) : JwtTokenVerifier where
  jwtVerify _ := .ok [("sub", .string "ann"), ("exp", .number (.finite seconds))]

/-- The identity in such a token. -/
def identityOf (seconds : ℤ) : VerifiedIdentity :=
  ⟨"ann", some (JwtTokenVerifier.dateOfSeconds (.finite seconds))⟩

/-- A token for a minute. -/
theorem lives_as_long_minute :
    (verifierOf 1700000060).verify "token" = .ok (identityOf 1700000060) ∧
    ∀ clock log p s, machine.Run (.init clock) log p →
      OpenedAt log s (identityOf 1700000060) 1700000000000 → ¬ ClosedByClient log s →
        LivesAsLong (JwtTokenVerifier.dateOfSeconds (.finite (1700000060 : ℤ))) 1700000000000 log p s := by
  have hverified : (verifierOf 1700000060).verify "token" = .ok (identityOf 1700000060) := rfl
  refine ⟨hverified, ?_⟩
  obtain ⟨payload, exp, hpayload, hexp, hiff⟩ := lives_as_long_iff hverified rfl 1700000000000
  cases hpayload
  cases hexp
  have hdate := @JwtTokenVerifier.dateOfSeconds_int 1700000060 (by decide)
  exact hiff.mpr ⟨_, congrArg Date.time hdate, by decide⟩

/-- A token for thirty days: its socket is closed after a millisecond. -/
theorem closed_thirty_days_early :
    (verifierOf 1702592000).verify "token" = .ok (identityOf 1702592000) ∧
    JwtTokenVerifier.dateOfSeconds (.finite (1702592000 : ℤ)) = Date.of 1702592000000 ∧
    ∃ log p, machine.Run (.init 1700000000000) log p ∧
      OpenedAt log 0 (identityOf 1702592000) 1700000000000 ∧ ¬ ClosedByClient log 0 ∧
      (∃ c ∈ p.closes, c.socket = 0 ∧ c.time = 1700000000001) ∧
      ¬ LivesAsLong (Date.of 1702592000000) 1700000000000 log p 0 := by
  have hdate : JwtTokenVerifier.dateOfSeconds (.finite (1702592000 : ℤ)) = Date.of 1702592000000 :=
    JwtTokenVerifier.dateOfSeconds_int (by decide)
  have hexpires : (identityOf 1702592000).expiresAt = some (Date.of 1702592000000) := congrArg some hdate
  obtain ⟨log, p, hrun, hopened, hclient, c, hc, hsocket, htime⟩ :=
    @closed_early _ _ 1700000000000 hexpires (by decide)
  refine ⟨rfl, hdate, log, p, hrun, hopened, hclient, ⟨c, hc, hsocket, htime⟩, fun hlives => ?_⟩
  obtain ⟨-, t, ht, hnotBefore, -⟩ := hlives.onTime c hc hsocket
  cases ht
  rw [htime] at hnotBefore
  exact absurd hnotBefore (by decide)

end WebSocketServer

end Jiffy
