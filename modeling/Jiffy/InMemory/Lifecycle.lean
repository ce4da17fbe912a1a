-- SUMMARY: What a message and a conversation go through from creation on, over every run on the in-memory adapters.
import Jiffy.InMemory.Calls
import Jiffy.InMemory.Stores
import Jiffy.Lib.Machine

/-!
# Message lifecycle

A message is written once and may be turned into a tombstone once, by its
sender. Nothing else about it changes, and nothing disappears.
-/

namespace Jiffy

open Js Async MessagingService

namespace InMemory

/-- The service on the in-memory adapters, one whole call after another. -/
def machine : Machine World (Input × Op) (Except Failure Reply) where
  step x w := if admissible x.1 w then some (serve x.1 x.2 w) else none

/-- What happened in a run. -/
abbrev Log : Type := List (Machine.Event World (Input × Op) (Except Failure Reply))

theorem machine_serve {i : Input} {op : Op} {w : World} (h : admissible i w = true) :
    machine.step (i, op) w = some (serve i op w) :=
  if_pos h

/-- What a turn may be supplied with, it may still be when time has passed. -/
theorem admissible_tick {i : Input} {w : World} (h : admissible i w = true) :
    admissible i (adapter.tick i w) = true := by
  simp only [admissible, adapter_tick, Bool.and_eq_true, decide_eq_true_eq] at h ⊢
  exact ⟨⟨decide_eq_true (le_refl _), h.1.2⟩, h.2⟩

theorem machine_step {i : Input} {op : Op} {w w' : World} {result : Except Failure Reply}
    (h : machine.step (i, op) w = some (result, w')) :
    admissible i w = true ∧ Effect i (adapter.tick i w) op result w' := by
  simp only [machine] at h
  split at h
  · next hadm =>
    have heffect := serve_effect i op w
    rw [Option.some.inj h] at heffect
    exact ⟨hadm, heffect⟩
  · cases h

theorem serve_clock (i : Input) (op : Op) (w : World) : (serve i op w).2.clock = i.now :=
  run_clock i _ op.program

theorem machine_clock {i : Input} {op : Op} {w w' : World} {result : Except Failure Reply}
    (h : machine.step (i, op) w = some (result, w')) : w'.clock = i.now := by
  simp only [machine] at h
  split at h
  · have hclock := serve_clock i op w
    rwa [Option.some.inj h] at hclock
  · cases h

theorem uuid_fresh {i : Input} {w : World} (h : admissible i w = true) :
    w.conversations.findById i.uuid = none ∧ ∀ m ∈ w.messages.messages, m.id ≠ i.uuid := by
  simp only [admissible, Bool.and_eq_true, Option.isNone_iff_eq_none] at h
  refine ⟨h.1.2, fun m hm => ?_⟩
  simpa using List.find?_eq_none.mp h.2 m hm

/-- The text of a live message is what its sender sent. -/
def SentAs (log : Log) (m : Message) : Prop :=
  ∃ e ∈ log, e.input.2 = .sendMessage ⟨m.conversationId, m.senderId, m.body⟩ ∧
    e.output = .ok (.message m)

/-- What holds of the stores after every run. -/
structure WellFormed (log : Log) (w : World) : Prop where
  ids : (w.messages.messages.map fun m => m.id).Nodup
  deleted : ∀ m ∈ w.messages.messages, m.deletedAt ≠ none ↔ m.body = ""
  live : ∀ m ∈ w.messages.messages, m.deletedAt = none → trim m.body ≠ "" ∧ SentAs log m
  member : ∀ m ∈ w.messages.messages, ∃ conversation,
    w.conversations.findById m.conversationId = some conversation ∧
      m.senderId ∈ conversation.userIds

/-- What one call does to what was there before it. -/
structure Keeps (op : Op) (result : Except Failure Reply) (w w' : World) : Prop where
  messages : ∀ m ∈ w.messages.messages, ∃ m' ∈ w'.messages.messages, m.SameIdentity m' ∧
    (m' = m ∨
      m.deletedAt = none ∧ m'.deletedAt ≠ none ∧ m'.body = "" ∧
        op = .deleteMessage m.conversationId m.id m.senderId ∧ result = .ok (.message m'))
  conversations : ∀ id conversation, w.conversations.findById id = some conversation →
    ∃ conversation', w'.conversations.findById id = some conversation' ∧
      conversation'.userIds = conversation.userIds

variable {i : Input} {w w' : World} {op : Op} {result : Except Failure Reply} {log : Log}

/-- Two stored messages with one id are one message. -/
theorem WellFormed.eq_of_id (hw : WellFormed log w) {m m' : Message}
    (hm : m ∈ w.messages.messages) (hm' : m' ∈ w.messages.messages) (hid : m.id = m'.id) : m = m' :=
  List.inj_on_of_nodup_map hw.ids hm hm' hid

theorem WellFormed.tick (hw : WellFormed log w) : WellFormed log (adapter.tick i w) :=
  ⟨hw.ids, hw.deleted, hw.live, hw.member⟩

theorem wellFormed_init (clock : Int) : WellFormed [] (World.init clock) where
  ids := List.nodup_nil
  deleted := by simp [World.init, InMemoryMessageStore.empty]
  live := by simp [World.init, InMemoryMessageStore.empty]
  member := by simp [World.init, InMemoryMessageStore.empty]

theorem Effect.keeps (hw : WellFormed log w) (hfresh : w.conversations.findById i.uuid = none)
    (h : Effect i w op result w') : Keeps op result w w' := by
  have hmessages : ∀ m ∈ w.messages.messages, m.SameIdentity m ∧ (m = m ∨ m.deletedAt = none ∧
      m.deletedAt ≠ none ∧ m.body = "" ∧
        op = .deleteMessage m.conversationId m.id m.senderId ∧ result = .ok (.message m)) :=
    fun m _ => ⟨rfl, .inl rfl⟩
  have hmutate : ∀ {c u : String} {f : ConversationParticipant → ConversationParticipant},
      (∀ p, (f p).userId = p.userId) → ∀ id conversation,
      w.conversations.findById id = some conversation → ∃ conversation',
        (w.conversations.updateParticipant c u f).findById id = some conversation' ∧
          conversation'.userIds = conversation.userIds := by
    intro c u f hf id conversation hc
    rw [InMemoryConversationStore.findById_updateParticipant]
    split
    · next hid =>
      subst hid
      rw [hc]
      exact ⟨_, rfl, userIds_mutateParticipant hf⟩
    · exact ⟨conversation, hc, rfl⟩
  cases h with
  | rejected | read | alreadyDeleted =>
    exact ⟨fun m hm => ⟨m, hm, hmessages m hm⟩, fun _ conversation hc => ⟨conversation, hc, rfl⟩⟩
  | created requesterId participantIds =>
    refine ⟨fun m hm => ⟨m, hm, hmessages m hm⟩, fun id conversation hc => ⟨conversation, ?_, rfl⟩⟩
    rw [InMemoryConversationStore.findById_put, if_neg, hc]
    rintro rfl
    have hnone : w.conversations.findById i.uuid = some conversation := hc
    rw [hfresh] at hnone
    cases hnone
  | sent =>
    exact ⟨fun m hm => ⟨m, List.mem_append_left _ hm, hmessages m hm⟩,
      fun _ conversation hc => ⟨conversation, hc, rfl⟩⟩
  | tombstoned hm hd =>
    next message =>
    refine ⟨fun m hmem => ?_, fun _ conversation hc => ⟨conversation, hc, rfl⟩⟩
    rcases mem_mutateFirst_of_mem hmem with hin | ⟨hid, hin⟩
    · exact ⟨m, hin, hmessages m hmem⟩
    · have hmessage : m = message :=
        hw.eq_of_id hmem (List.mem_of_find?_eq_some hm) (by simpa using hid)
      subst hmessage
      exact ⟨_, hin, rfl, .inr ⟨hd, by simp [InMemoryMessageStore.tombstone], rfl, rfl, rfl⟩⟩
  | cleared =>
    exact ⟨fun m hm => ⟨m, hm, hmessages m hm⟩, hmutate fun _ => rfl⟩
  | marked =>
    exact ⟨fun m hm => ⟨m, hm, hmessages m hm⟩, hmutate fun _ => rfl⟩

theorem SentAs.append {m : Message} {log' : Log} (h : SentAs log m) : SentAs (log ++ log') m := by
  obtain ⟨e, he, hsent⟩ := h
  exact ⟨e, List.mem_append_left _ he, hsent⟩

theorem Keeps.member (hk : Keeps op result w w') {m : Message}
    (h : ∃ conversation, w.conversations.findById m.conversationId = some conversation ∧
      m.senderId ∈ conversation.userIds) :
    ∃ conversation, w'.conversations.findById m.conversationId = some conversation ∧
      m.senderId ∈ conversation.userIds := by
  obtain ⟨conversation, hc, hu⟩ := h
  obtain ⟨conversation', hc', hids⟩ := hk.conversations _ _ hc
  exact ⟨conversation', hc', hids ▸ hu⟩

/-- A call that writes no message keeps the stores well formed. -/
theorem WellFormed.of_messages_eq (hw : WellFormed log w) (hk : Keeps op result w w')
    (hm : w'.messages = w.messages) (log' : Log) : WellFormed (log ++ log') w' where
  ids := hm ▸ hw.ids
  deleted := hm ▸ hw.deleted
  live m hmem hd := by
    have hlive := hw.live m (hm ▸ hmem) hd
    exact ⟨hlive.1, hlive.2.append⟩
  member m hmem := hk.member (hw.member m (hm ▸ hmem))

theorem WellFormed.step (hw : WellFormed log w) (h : machine.step (i, op) w = some (result, w')) :
    WellFormed (log ++ [⟨w, (i, op), result, w'⟩]) w' := by
  obtain ⟨hadm, heffect⟩ := machine_step h
  obtain ⟨hcfresh, hmfresh⟩ := uuid_fresh hadm
  replace hw : WellFormed log (adapter.tick i w) := hw.tick
  have hk := heffect.keeps hw hcfresh
  generalize hlog : log ++ [⟨w, (i, op), result, w'⟩] = log'
  cases heffect with
  | rejected | read | created | alreadyDeleted | cleared | marked =>
    exact hlog ▸ hw.of_messages_eq hk rfl _
  | @sent input conversation hbody hc hu =>
    have hid := w.conversations.keyed hc
    refine ⟨?_, fun m hm => ?_, fun m hm hd => ?_, fun m hm => ?_⟩
    · simp only [List.map_append, List.map_cons, List.map_nil]
      refine List.nodup_append.mpr ⟨hw.ids, List.nodup_singleton _, ?_⟩
      intro a ha b hb hab
      obtain ⟨m, hm, rfl⟩ := List.mem_map.mp ha
      exact hmfresh m hm (hab.trans (List.mem_singleton.mp hb))
    · rcases List.mem_append.mp hm with hm | hm
      · exact hw.deleted m hm
      · rw [List.mem_singleton] at hm
        subst hm
        simp only [InMemory.sent, InMemoryMessageStore.newMessage, ne_eq, not_true, false_iff]
        rintro hempty
        exact hbody (hempty ▸ trim_empty)
    · rcases List.mem_append.mp hm with hm | hm
      · have hlive := hw.live m hm hd
        exact ⟨hlive.1, hlog ▸ hlive.2.append⟩
      · rw [List.mem_singleton] at hm
        subst hm
        refine ⟨hbody, _, hlog ▸ List.mem_append_right _ List.mem_cons_self, ?_, rfl⟩
        simp [InMemory.sent, InMemoryMessageStore.newMessage, hid]
    · rcases List.mem_append.mp hm with hm | hm
      · exact hk.member (hw.member m hm)
      · rw [List.mem_singleton] at hm
        subst hm
        refine hk.member ⟨conversation, ?_, isParticipant_iff.mp hu⟩
        simpa [InMemory.sent, InMemoryMessageStore.newMessage, hid] using hc
  | @tombstoned message hm hd =>
    refine ⟨?_, fun m hmem => ?_, fun m hmem hlive => ?_, fun m hmem => ?_⟩
    · exact (congrArg List.Nodup (InMemoryMessageStore.ids_tombstone _ _ _)).mpr hw.ids
    · rcases mem_mutateFirst hmem with hmem | ⟨a, _, _, rfl⟩
      · exact hw.deleted m hmem
      · simp [InMemoryMessageStore.tombstone]
    · rcases mem_mutateFirst hmem with hmem | ⟨a, _, _, rfl⟩
      · have h := hw.live m hmem hlive
        exact ⟨h.1, hlog ▸ h.2.append⟩
      · simp [InMemoryMessageStore.tombstone] at hlive
    · rcases mem_mutateFirst hmem with hmem | ⟨a, ha, _, rfl⟩
      · exact hw.member m hmem
      · exact hw.member a ha

theorem wellFormed_run {clock : Int} (h : machine.Run (World.init clock) log w) :
    WellFormed log w :=
  h.inv (wellFormed_init clock) fun hw hs => hw.step hs

/-- In every state that a sequence of calls reaches, a message is a tombstone
exactly when its body is empty, and else carries what its sender sent; it
belongs to a conversation that its sender is in. And no call of the sequence
removed a message or a conversation, changed what identifies one, or turned a
message into a tombstone except for its sender. -/
theorem message_lifecycle {clock : Int} (h : machine.Run (World.init clock) log w) :
    WellFormed log w ∧ ∀ e ∈ log, Keeps e.input.2 e.output e.before e.after := by
  refine ⟨wellFormed_run h, h.events fun {es t x o t'} hrun hs => ?_⟩
  obtain ⟨hadm, heffect⟩ := machine_step hs
  have hk := heffect.keeps (wellFormed_run hrun).tick (uuid_fresh hadm).1
  exact ⟨hk.messages, hk.conversations⟩

/-- A conversation is created, a message sent, and deleted twice. -/
theorem message_lifecycle_deleted_twice :
    ∃ log w, machine.Run (World.init 0) log w ∧ log.length = 4 ∧
      WellFormed log w ∧ ∀ e ∈ log, Keeps e.input.2 e.output e.before e.after := by
  have hrun := (Machine.Run.nil (M := machine) (s := World.init 0))
    |>.snoc (i := (.allowAll 1 "c", .createConversation "ann" ["ann", "bob"])) rfl
    |>.snoc (i := (.allowAll 2 "m", .sendMessage ⟨"c", "ann", "hello"⟩)) rfl
    |>.snoc (i := (.allowAll 3 "x", .deleteMessage "c" "m" "ann")) rfl
    |>.snoc (i := (.allowAll 4 "y", .deleteMessage "c" "m" "ann")) rfl
  exact ⟨_, _, hrun, rfl, message_lifecycle hrun⟩

end InMemory

end Jiffy
