-- SUMMARY: The registry is exact: who is registered after any upgrades and closings, and whom a message can reach.
import Jiffy.WebSocket.Connection
import Jiffy.WebSocket.Registry

/-!
# Registrations

After any events the registry holds the sockets that were opened and have not
emitted `close`, each under the user it was verified for, and the gauge counts
them. A message therefore goes out to sockets of participants alone.
-/

namespace Jiffy

open Js Async

namespace WebSocketServer

/-- Socket `s` was opened for the verified user `u`. -/
def OpenedFor (log : Log) (u : String) (s : Nat) : Prop :=
  ∃ e ∈ log, ∃ identity, e.input = .upgraded identity ∧ identity.userId = u ∧
    e.before.sockets.next = s

/-- The `close` event of socket `s` has happened. -/
def ClosedIn (log : Log) (s : Nat) : Prop := ∃ e ∈ log, e.input = .closed s

variable {log : Log} {p p' : Connections} {e : Machine.Event Connections ConnectionEvent Unit}

theorem openedFor_snoc {u : String} {s : Nat} : OpenedFor (log ++ [e]) u s ↔ OpenedFor log u s ∨
    ∃ identity, e.input = .upgraded identity ∧ identity.userId = u ∧ e.before.sockets.next = s := by
  unfold OpenedFor
  simp only [List.mem_append, List.mem_singleton, or_and_right, exists_or, exists_eq_left]

theorem closedIn_snoc {s : Nat} : ClosedIn (log ++ [e]) s ↔ ClosedIn log s ∨ e.input = .closed s := by
  unfold ClosedIn
  simp only [List.mem_append, List.mem_singleton, or_and_right, exists_or, exists_eq_left]

/-- The registry, the gauge and the listeners, against what has happened. -/
structure Registered (log : Log) (p : Connections) : Prop where
  mem_get : ∀ {u s}, s ∈ p.sockets.registry.get u ↔ OpenedFor log u s ∧ ¬ ClosedIn log s
  nodup : ∀ u, (p.sockets.registry.get u).Nodup
  noEmptyEntry : p.sockets.registry.NoEmptyEntry
  owner : ∀ {u v s}, OpenedFor log u s → OpenedFor log v s → u = v
  opened_lt : ∀ {u s}, OpenedFor log u s → s < p.sockets.next
  closed_lt : ∀ {s}, ClosedIn log s → s < p.sockets.next
  active : p.active = p.sockets.registry.size
  listening : ∀ l ∈ p.listeners, OpenedFor log l.userId l.socket ∧ ¬ ClosedIn log l.socket

theorem registered_init (clock : Int) : Registered [] (.init clock) where
  mem_get := by
    intro u s
    constructor
    · intro h
      cases h
    · rintro ⟨⟨e, he, -⟩, -⟩
      cases he
  nodup _ := List.nodup_nil
  noEmptyEntry := by
    intro u sockets h
    cases h
  owner h := by obtain ⟨e, he, -⟩ := h; cases he
  opened_lt h := by obtain ⟨e, he, -⟩ := h; cases he
  closed_lt h := by obtain ⟨e, he, -⟩ := h; cases he
  active := rfl
  listening l hl := by cases hl

namespace Registered

/-- Events that neither open nor close a connection. -/
theorem keep (h : Registered log p) (hupgraded : ∀ identity, e.input ≠ .upgraded identity)
    (hclosed : ∀ s, e.input ≠ .closed s) (hregistry : p'.sockets.registry = p.sockets.registry)
    (hnext : p'.sockets.next = p.sockets.next) (hactive : p'.active = p.active)
    (hlisteners : p'.listeners = p.listeners) : Registered (log ++ [e]) p' := by
  have hopened : ∀ {u s}, OpenedFor (log ++ [e]) u s ↔ OpenedFor log u s := by
    intro u s
    rw [openedFor_snoc, or_iff_left]
    rintro ⟨identity, hinput, -⟩
    exact hupgraded identity hinput
  have hclosedIn : ∀ {s}, ClosedIn (log ++ [e]) s ↔ ClosedIn log s := fun {s} => by
    rw [closedIn_snoc, or_iff_left (hclosed s)]
  refine ⟨?_, ?_, ?_, ?_, ?_, ?_, ?_, ?_⟩
  · intro u s
    rw [hregistry, hopened, hclosedIn]
    exact h.mem_get
  · rw [hregistry]
    exact h.nodup
  · rw [hregistry]
    exact h.noEmptyEntry
  · intro u v s hu hv
    exact h.owner (hopened.mp hu) (hopened.mp hv)
  · intro u s hs
    rw [hnext]
    exact h.opened_lt (hopened.mp hs)
  · intro s hs
    rw [hnext]
    exact h.closed_lt (hclosedIn.mp hs)
  · rw [hactive, hregistry]
    exact h.active
  · intro l hl
    rw [hopened, hclosedIn]
    exact h.listening l (hlisteners ▸ hl)

/-- A new socket is registered under its user. -/
theorem upgraded (h : Registered log p) {identity : VerifiedIdentity} (hinput : e.input = .upgraded identity)
    (hbefore : e.before = p) : Registered (log ++ [e]) (withSocket identity p) := by
  subst hbefore
  have hopened : ∀ {u s}, OpenedFor (log ++ [e]) u s ↔
      OpenedFor log u s ∨ u = identity.userId ∧ s = e.before.sockets.next := by
    intro u s
    rw [openedFor_snoc, hinput]
    constructor
    · rintro (hs | ⟨_, heq, rfl, rfl⟩)
      · exact .inl hs
      · cases heq
        exact .inr ⟨rfl, rfl⟩
    · rintro (hs | ⟨rfl, rfl⟩)
      · exact .inl hs
      · exact .inr ⟨identity, rfl, rfl, rfl⟩
  have hclosedIn : ∀ {s}, ClosedIn (log ++ [e]) s ↔ ClosedIn log s := by
    intro s
    rw [closedIn_snoc, hinput, or_iff_left]
    exact nofun
  have hfresh : ∀ {u}, ¬ OpenedFor log u e.before.sockets.next := fun hs => (h.opened_lt hs).false
  have hunclosed : ¬ ClosedIn log e.before.sockets.next := fun hs => (h.closed_lt hs).false
  have hnew : ∀ {u}, e.before.sockets.next ∉ e.before.sockets.registry.get u := fun hs =>
    hfresh (h.mem_get.mp hs).1
  refine ⟨?_, ?_, h.noEmptyEntry.add, ?_, ?_, ?_, ?_, ?_⟩
  · intro u s
    rw [hopened, hclosedIn]
    refine ConnectionRegistry.mem_get_add.trans ?_
    rw [h.mem_get, or_and_right]
    refine or_congr_right ⟨fun hs => ⟨hs, ?_⟩, And.left⟩
    rw [hs.2]
    exact hunclosed
  · intro u
    exact ConnectionRegistry.nodup_get_add (h.nodup u) hnew
  · intro u v s hu hv
    rcases hopened.mp hu with hu | ⟨rfl, rfl⟩
    · rcases hopened.mp hv with hv | ⟨-, rfl⟩
      · exact h.owner hu hv
      · exact absurd hu hfresh
    · rcases hopened.mp hv with hv | ⟨rfl, -⟩
      · exact absurd hv hfresh
      · rfl
  · intro u s hs
    rcases hopened.mp hs with hs | ⟨-, rfl⟩
    · exact Nat.lt_succ_of_lt (h.opened_lt hs)
    · exact Nat.lt_succ_self _
  · intro s hs
    exact Nat.lt_succ_of_lt (h.closed_lt (hclosedIn.mp hs))
  · have hsize := ConnectionRegistry.size_add (@hnew identity.userId)
    have hactive := h.active
    simp only [withSocket, hsize, hactive, Nat.cast_add, Nat.cast_one]
  · intro l hl
    rw [hopened, hclosedIn]
    rcases List.mem_append.mp hl with hl | hl
    · exact ⟨.inl (h.listening l hl).1, (h.listening l hl).2⟩
    · rw [List.mem_singleton.mp hl]
      exact ⟨.inr ⟨rfl, rfl⟩, hunclosed⟩

/-- The `close` event takes its socket out. -/
theorem closed (h : Registered log p) {listener : CloseListener} (hmem : listener ∈ p.listeners)
    (hinput : e.input = .closed listener.socket) :
    Registered (log ++ [e]) (withoutSocket listener p) := by
  obtain ⟨hown, hunclosed⟩ := h.listening listener hmem
  have hregistered := h.mem_get.mpr ⟨hown, hunclosed⟩
  have hopened : ∀ {u s}, OpenedFor (log ++ [e]) u s ↔ OpenedFor log u s := by
    intro u s
    rw [openedFor_snoc, hinput, or_iff_left]
    rintro ⟨identity, heq, -⟩
    cases heq
  have hclosedIn : ∀ {s}, ClosedIn (log ++ [e]) s ↔ ClosedIn log s ∨ s = listener.socket := by
    intro s
    rw [closedIn_snoc, hinput, ConnectionEvent.closed.injEq, eq_comm (a := listener.socket)]
  refine ⟨?_, ?_, h.noEmptyEntry.remove, ?_, ?_, ?_, ?_, ?_⟩
  · intro u s
    rw [hopened, hclosedIn, not_or]
    refine ConnectionRegistry.mem_get_remove.trans ?_
    rw [h.mem_get, and_assoc]
    refine and_congr_right fun hs => and_congr_right fun _ => ?_
    rw [not_and]
    constructor
    · rintro hother rfl
      exact hother (h.owner hs hown) rfl
    · exact fun hother _ => hother
  · intro u
    exact ConnectionRegistry.nodup_get_remove (h.nodup u)
  · intro u v s hu hv
    exact h.owner (hopened.mp hu) (hopened.mp hv)
  · intro u s hs
    exact h.opened_lt (hopened.mp hs)
  · intro s hs
    rcases hclosedIn.mp hs with hs | rfl
    · exact h.closed_lt hs
    · exact h.opened_lt hown
  · have hsize := ConnectionRegistry.size_remove hregistered (h.nodup _)
    have hactive := h.active
    simp only [withoutSocket]
    omega
  · intro l hl
    obtain ⟨hl, hother⟩ := List.mem_filter.mp hl
    rw [hopened, hclosedIn, not_or]
    exact ⟨(h.listening l hl).1, (h.listening l hl).2, of_decide_eq_true hother⟩

theorem step (h : Registered log p) {x : ConnectionEvent} {out : Unit}
    (hs : machine.step x p = some (out, p')) : Registered (log ++ [⟨p, x, out, p'⟩]) p' := by
  cases machine_step hs with
  | upgraded identity => exact h.upgraded rfl rfl
  | closed hmem _ => exact h.closed hmem rfl
  | message find m => exact h.keep nofun nofun rfl rfl rfl rfl
  | closing _ => exact h.keep nofun nofun rfl rfl rfl rfl
  | elapsed _ _ => exact h.keep nofun nofun rfl rfl rfl rfl
  | fired _ _ => exact h.keep nofun nofun rfl rfl rfl rfl

end Registered

theorem registered_run {clock : Int} (h : machine.Run (.init clock) log p) : Registered log p :=
  h.inv (registered_init clock) fun hregistered hs => hregistered.step hs

-- ---------------------------------------------------------------------------
-- Whom a message can reach
-- ---------------------------------------------------------------------------

/-- A frame of a message goes to a registered socket of a participant found. -/
theorem mem_delivered {found : Except Failure (Option Conversation)} {m : Message} {f : Frame Message}
    (h : f ∈ delivered found p m) : f.message = m ∧ ∃ conversation u, found = .ok (some conversation) ∧
      isParticipant conversation u = true ∧ f.socket ∈ p.sockets.registry.get u := by
  unfold delivered at h
  split at h
  · next conversation =>
    obtain ⟨s, hs, rfl⟩ := List.mem_map.mp h
    obtain ⟨participant, hparticipant, hs⟩ := List.mem_flatMap.mp hs
    refine ⟨rfl, conversation, participant.userId, rfl, ?_, (List.mem_filter.mp hs).1⟩
    exact isParticipant_iff.mpr (List.mem_map_of_mem hparticipant)
  · cases h

/-- What the registry says of the connections, and what follows for delivery. -/
structure Exact (log : Log) (p : Connections) : Prop where
  mem_get : ∀ u s, s ∈ p.sockets.registry.get u ↔ OpenedFor log u s ∧ ¬ ClosedIn log s
  nodup : ∀ u, (p.sockets.registry.get u).Nodup
  noEmptyEntry : p.sockets.registry.NoEmptyEntry
  owner : ∀ u v s, s ∈ p.sockets.registry.get u → s ∈ p.sockets.registry.get v → u = v
  active : p.active = p.sockets.registry.size
  confined : ∀ find m out p', machine.step (.message find m) p = some (out, p') →
    ∃ frames, p'.sockets.frames = p.sockets.frames ++ frames ∧ ∀ f ∈ frames, f.message = m ∧
      ∃ conversation u, find m.conversationId = .ok (some conversation) ∧
        isParticipant conversation u = true ∧ OpenedFor log u f.socket

/-- However connections open and close, the registry, the gauge and the sockets
that get a message are those that the log accounts for. -/
theorem registry_exact {clock : Int} (h : machine.Run (.init clock) log p) : Exact log p := by
  have hregistered := registered_run h
  refine ⟨fun _ _ => hregistered.mem_get, hregistered.nodup, hregistered.noEmptyEntry, ?_,
    hregistered.active, ?_⟩
  · intro u v s hu hv
    exact hregistered.owner (hregistered.mem_get.mp hu).1 (hregistered.mem_get.mp hv).1
  · intro find m out p' hs
    cases machine_step hs with
    | message =>
      refine ⟨_, rfl, fun f hf => ?_⟩
      obtain ⟨hmessage, conversation, u, hfound, hparticipant, hsocket⟩ := mem_delivered hf
      exact ⟨hmessage, conversation, u, hfound, hparticipant, (hregistered.mem_get.mp hsocket).1⟩

/-- Ann opens two sockets and bob one, and ann's first one closes. -/
theorem registry_exact_three : ∃ log p, machine.Run (.init 0) log p ∧ Exact log p ∧
    p.sockets.registry.get "ann" = [1] ∧ p.sockets.registry.get "bob" = [2] ∧ p.active = 2 := by
  have hrun := (((((Machine.Run.nil (M := machine) (s := .init 0)).snoc
    (i := .upgraded ⟨"ann", none⟩) rfl).snoc (i := .upgraded ⟨"ann", none⟩) rfl).snoc
    (i := .upgraded ⟨"bob", none⟩) rfl).snoc (i := .closing 0) rfl).snoc (i := .closed 0) rfl
  exact ⟨_, _, hrun, registry_exact hrun, by decide, by decide, by decide⟩

end WebSocketServer

end Jiffy
