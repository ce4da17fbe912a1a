-- SUMMARY: Who may call what, what a rejected call leaves behind, and what a successful call may change.
import Jiffy.InMemory.Calls
import Jiffy.InMemory.Stores

/-!
# Authorization and atomicity

Three facts about one whole call on the in-memory adapters, from any state: a
call that names a conversation its caller is not in is refused, a rejected call
leaves no trace, and a successful call changes its own target only.
-/

namespace Jiffy

open Js Async MessagingService

/-- The conversation an operation names, and its caller. -/
def Op.target : Op → Option (String × String)
  | .createConversation _ _ => none
  | .getConversation conversationId requesterId => some (conversationId, requesterId)
  | .listConversations _ => none
  | .sendMessage input => some (input.conversationId, input.senderId)
  | .listMessages conversationId requesterId _ => some (conversationId, requesterId)
  | .deleteMessage conversationId _ requesterId => some (conversationId, requesterId)
  | .deleteConversation conversationId requesterId => some (conversationId, requesterId)
  | .markRead conversationId userId _ => some (conversationId, userId)

/-- A send with nothing but white space in it. -/
def Op.blank : Op → Bool
  | .sendMessage input => trim input.body = ""
  | _ => false

namespace World

/-- Neither store changed, nothing was published and nobody was notified. -/
structure Untouched (w w' : World) : Prop where
  conversations : w'.conversations = w.conversations
  messages : w'.messages = w.messages
  published : w'.published = w.published
  notified : w'.notified = w.notified

/-- Only records of `userId` in conversation `conversationId` changed, and they
as `changed` allows. -/
structure OnlyParticipant (conversationId userId : String)
    (changed : ConversationParticipant → ConversationParticipant → Prop) (w w' : World) : Prop where
  conversations : List.Forall₂
    (fun e e' => e' = e ∨ e.1 = conversationId ∧ e'.1 = e.1 ∧
      e'.2 = { e.2 with participants := e'.2.participants } ∧
      List.Forall₂ (fun p p' => p' = p ∨ p.userId = userId ∧ changed p p')
        e.2.participants e'.2.participants)
    w.conversations.conversations.entries w'.conversations.conversations.entries
  messages : w'.messages = w.messages
  published : w'.published = w.published
  notified : w'.notified = w.notified

end World

namespace InMemory

/-- What a successful call may change. -/
def Confined (i : Input) (w w' : World) : Op → Prop
  | .getConversation _ _ | .listConversations _ | .listMessages _ _ _ => w.Untouched w'
  | .createConversation _ _ =>
    (∀ id ≠ i.uuid, w'.conversations.findById id = w.conversations.findById id) ∧
      w'.messages = w.messages ∧ w'.published = w.published ∧ w'.notified = w.notified
  | .sendMessage input =>
    w'.conversations = w.conversations ∧
      ∃ message recipientIds,
        message.id = i.uuid ∧ message.conversationId = input.conversationId ∧ message.senderId = input.senderId ∧
        message.body = input.body ∧ message.deletedAt = none ∧
        w'.messages.messages = w.messages.messages ++ [message] ∧
        w'.published = w.published ++ [message] ∧
        w'.notified = w.notified ++ [(message, recipientIds)]
  | .deleteMessage conversationId messageId requesterId =>
    w'.conversations = w.conversations ∧ w'.notified = w.notified ∧
      List.Forall₂
        (fun m m' => m' = m ∨ m.id = messageId ∧
          m' = { m with body := m'.body, deletedAt := m'.deletedAt })
        w.messages.messages w'.messages.messages ∧
      (w'.published = w.published ∨
        ∃ message, message.id = messageId ∧ message.conversationId = conversationId ∧
          message.senderId = requesterId ∧ w'.published = w.published ++ [message])
  | .deleteConversation conversationId requesterId =>
    w.OnlyParticipant conversationId requesterId
      (fun p p' => p' = { p with clearedAt := p'.clearedAt }) w'
  | .markRead conversationId userId _ =>
    w.OnlyParticipant conversationId userId
      (fun p p' => p' = { p with lastReadAt := p'.lastReadAt }) w'

-- ---------------------------------------------------------------------------
-- Refusals
-- ---------------------------------------------------------------------------

variable {i : Input} {w : World}

theorem serve_blank {op : Op} (h : op.blank = true) :
    (serve i op w).1 = .error (.core .emptyMessage) := by
  cases op with
  | sendMessage input =>
    have hbody : trim input.body = "" := by simpa [Op.blank] using h
    simp [serve, Op.program, Adapter.run_map, run_sendMessage, hbody, Except.map]
  | _ => cases h

/-- A call that is not blank answers with the participant check's rejection. -/
theorem serve_refused {op : Op} {c u : String} {e : Failure} (ht : op.target = some (c, u))
    (hblank : op.blank = false) (he : w.requireParticipant c u = .error e) :
    (serve i op w).1 = .error e := by
  have he' : (adapter.tick i w).requireParticipant c u = .error e := he
  unfold serve
  generalize adapter.tick i w = w' at he' ⊢
  cases op with
  | createConversation | listConversations => cases ht
  | getConversation =>
    cases ht
    simp [Op.program, Adapter.run_map, run_getConversation, he', Except.map]
  | sendMessage input =>
    cases ht
    have hbody : trim input.body ≠ "" := by simpa [Op.blank] using hblank
    simp [Op.program, Adapter.run_map, run_sendMessage, hbody, he', Except.map]
  | listMessages =>
    cases ht
    simp [Op.program, Adapter.run_map, run_listMessages, he', Except.map]
  | deleteMessage =>
    cases ht
    simp [Op.program, Adapter.run_map, run_deleteMessage, he', Except.map]
  | deleteConversation =>
    cases ht
    simp [Op.program, Adapter.run_map, run_deleteConversation, he', Except.map]
  | markRead =>
    cases ht
    simp [Op.program, Adapter.run_map, run_markRead, he', Except.map]

-- ---------------------------------------------------------------------------
-- Frames
-- ---------------------------------------------------------------------------

theorem Effect.untouched_of_error {op : Op} {e : Failure} {w' : World}
    (h : Effect i w op (.error e) w') : w.Untouched w' := by
  cases h with
  | rejected => exact ⟨rfl, rfl, rfl, rfl⟩

/-- A write to one participant record reaches no other. -/
theorem onlyParticipant_updateParticipant {c u : String}
    {f : ConversationParticipant → ConversationParticipant}
    {changed : ConversationParticipant → ConversationParticipant → Prop}
    (hf : ∀ p, changed p (f p)) :
    w.OnlyParticipant c u changed
      { w with conversations := w.conversations.updateParticipant c u f } := by
  refine ⟨?_, rfl, rfl, rfl⟩
  rw [InMemoryConversationStore.entries_updateParticipant, List.forall₂_map_right_iff]
  apply List.forall₂_same.mpr
  intro e _
  split
  · next hc =>
    refine .inr ⟨hc, rfl, rfl, ?_⟩
    apply (forall₂_mutateFirst _ f e.2.participants).imp
    rintro p p' (rfl | ⟨hp, rfl⟩)
    · exact .inl rfl
    · exact .inr ⟨by simpa using hp, hf p⟩
  · exact .inl rfl

theorem Effect.confined {op : Op} {reply : Reply} {w' : World}
    (h : Effect i w op (.ok reply) w') : Confined i w w' op := by
  cases h with
  | read _ hop =>
    cases op with
    | getConversation | listConversations | listMessages => exact ⟨rfl, rfl, rfl, rfl⟩
    | _ => cases hop
  | created =>
    refine ⟨fun id hid => ?_, rfl, rfl, rfl⟩
    rw [InMemoryConversationStore.findById_put]
    exact if_neg hid
  | sent _ hc _ =>
    have hid := w.conversations.keyed hc
    exact ⟨rfl, _, _, rfl, hid, rfl, rfl, rfl, rfl, rfl, rfl⟩
  | alreadyDeleted =>
    exact ⟨rfl, rfl, List.forall₂_same.mpr fun _ _ => .inl rfl, .inl rfl⟩
  | tombstoned =>
    refine ⟨rfl, rfl, ?_, .inr ⟨InMemoryMessageStore.tombstone _ _, rfl, rfl, rfl, rfl⟩⟩
    apply (forall₂_mutateFirst _ _ w.messages.messages).imp
    rintro m m' (rfl | ⟨hm, rfl⟩)
    · exact .inl rfl
    · exact .inr ⟨by simpa using hm, rfl⟩
  | cleared => exact onlyParticipant_updateParticipant fun _ => rfl
  | marked => exact onlyParticipant_updateParticipant fun _ => rfl

/-- Reading the clock is no change. -/
theorem Confined.of_tick {op : Op} {w' : World} (h : Confined i (adapter.tick i w) w' op) :
    Confined i w w' op := by
  cases op with
  | getConversation | listConversations | listMessages =>
    exact ⟨h.conversations, h.messages, h.published, h.notified⟩
  | deleteConversation | markRead =>
    exact ⟨h.conversations, h.messages, h.published, h.notified⟩
  | createConversation | sendMessage | deleteMessage => exact h

/-- In every state, for every call: a blank message is refused first, then a
call that names a missing conversation or comes from outside it; a rejection
leaves everything as it was; a success stays within its target. -/
theorem serve_authorized (i : Input) (op : Op) (w : World) :
    (op.blank = true → (serve i op w).1 = .error (.core .emptyMessage)) ∧
    (∀ c u, op.target = some (c, u) → op.blank = false →
      (w.conversations.findById c = none →
        (serve i op w).1 = .error (.core (.conversationNotFound c))) ∧
      (∀ conversation, w.conversations.findById c = some conversation →
        u ∉ conversation.userIds →
        (serve i op w).1 = .error (.core (.notAParticipant c u)))) ∧
    (∀ e, (serve i op w).1 = .error e → w.Untouched (serve i op w).2) ∧
    (∀ reply, (serve i op w).1 = .ok reply → Confined i w (serve i op w).2 op) := by
  have heffect := serve_effect i op w
  refine ⟨serve_blank, fun c u ht hblank => ⟨fun hc => ?_, fun conversation hc hu => ?_⟩,
    fun e he => ?_, fun reply hok => ?_⟩
  · exact serve_refused ht hblank (by simp [World.requireParticipant, hc])
  · rw [← isParticipant_iff] at hu
    exact serve_refused ht hblank (by simp [World.requireParticipant, hc, hu])
  · rw [he] at heffect
    obtain ⟨hc, hm, hp, hn⟩ := heffect.untouched_of_error
    exact ⟨hc, hm, hp, hn⟩
  · rw [hok] at heffect
    exact heffect.confined.of_tick

end InMemory

end Jiffy
