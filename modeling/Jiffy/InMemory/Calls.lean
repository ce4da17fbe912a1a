-- SUMMARY: What each operation of the service does on the in-memory adapters, as one equation per operation.
import Jiffy.Adapters.InMemory

/-!
# Calls on the in-memory adapters

The run of each method, worked out once. Later files cite these equations and
never unfold a method again.
-/

namespace Jiffy

open Js Async MessagingService

namespace World

/-- What the participant check answers. -/
def requireParticipant (w : World) (conversationId userId : String) : Except Failure Conversation :=
  match w.conversations.findById conversationId with
  | none => .error (.core (.conversationNotFound conversationId))
  | some conversation =>
    if isParticipant conversation userId then .ok conversation
    else .error (.core (.notAParticipant conversationId userId))

/-- After the gate was asked. -/
def ask (w : World) (requesterId : String) (participantIds : List String) : World :=
  { w with asked := w.asked ++ [(requesterId, participantIds)] }

theorem requireParticipant_ok {w : World} {c u : String} {conversation : Conversation}
    (h : w.requireParticipant c u = .ok conversation) :
    w.conversations.findById c = some conversation ∧ isParticipant conversation u = true := by
  unfold requireParticipant at h
  split at h
  · cases h
  · split at h
    · next hp => cases h; exact ⟨by assumption, hp⟩
    · cases h

theorem requireParticipant_of_participant {w : World} {c u : String} {conversation : Conversation}
    (hc : w.conversations.findById c = some conversation) (hu : isParticipant conversation u = true) :
    w.requireParticipant c u = .ok conversation := by
  simp [requireParticipant, hc, hu]

end World

namespace InMemory

variable (i : Input) (w : World)

/-- Time passes between calls only. -/
theorem run_clock {α : Type} (p : Service α) : (adapter.run i p w).2.clock = w.clock := by
  have hperform : ∀ (call : PortCall) (w : World), (perform i call w).2.clock = w.clock := by
    intro call w
    cases call <;> rfl
  induction p generalizing w with
  | ret a => rfl
  | throw e => rfl
  | sync r k ih => exact (ih _ _).trans (hperform r w)
  | await r k ih => exact (ih _ _).trans (hperform r w)
  | pause p ih => exact ih w

theorem run_awaitParticipant (c u : String) :
    adapter.run i (awaitParticipant c u) w = (w.requireParticipant c u, w) := by
  simp only [awaitParticipant, requireParticipant, World.requireParticipant, Proc.request,
    Proc.bind_eq_bind, Proc.await_bind, Adapter.run_await, adapter_perform, perform,
    Proc.ofExcept_ok, Proc.ret_bind]
  cases w.conversations.findById c with
  | none => rfl
  | some conversation => by_cases h : isParticipant conversation u <;> simp [h, perform]

theorem run_createConversation (requesterId : String) (participantIds : List String) :
    adapter.run i (createConversation requesterId participantIds) w =
      match i.gate requesterId participantIds with
      | .error e => (.error (.port e), w.ask requesterId participantIds)
      | .ok false =>
        (.error (.core (.conversationNotAllowed requesterId participantIds)),
          w.ask requesterId participantIds)
      | .ok true =>
        let (conversation, store) := w.conversations.create i.uuid w.clock participantIds
        (.ok conversation, { w.ask requesterId participantIds with conversations := store }) := by
  simp only [createConversation, Proc.request, Proc.bind_eq_bind, Adapter.run_bind,
    Adapter.run_await, adapter_perform, perform]
  cases i.gate requesterId participantIds with
  | error e => rfl
  | ok allowed => cases allowed <;> rfl

theorem run_getConversation (c u : String) :
    adapter.run i (getConversation c u) w = (w.requireParticipant c u, w) :=
  run_awaitParticipant i w c u

/-- What `listConversations` answers. -/
def listed (w : World) (userId : String) : List Conversation :=
  withPreviews ((w.conversations.findByParticipant userId).map fun conversation =>
    let query := previewQuery userId conversation
    (query, w.messages.listByConversation conversation.id query.options))

theorem run_listConversations (u : String) :
    adapter.run i (listConversations u) w = (.ok (listed w u), w) := by
  simp only [listConversations, listed, Proc.request, Proc.bind_eq_bind, Proc.await_bind,
    Adapter.run_await, adapter_perform, perform, Proc.ofExcept_ok, Proc.ret_bind,
    Proc.pure_eq_ret, Adapter.run_ret, List.map_map]
  rfl

/-- What a successful send stores. -/
def sent (i : Input) (w : World) (conversationId : String) (input : SendMessageInput) : Message :=
  InMemoryMessageStore.newMessage i.uuid w.clock ⟨conversationId, input.senderId, input.body⟩

theorem run_sendMessage (input : SendMessageInput) :
    adapter.run i (sendMessage input) w =
      if trim input.body = "" then (.error (.core .emptyMessage), w)
      else
        match w.requireParticipant input.conversationId input.senderId with
        | .error e => (.error e, w)
        | .ok conversation =>
          let asked := w.ask input.senderId conversation.userIds
          match i.gate input.senderId conversation.userIds with
          | .error e => (.error (.port e), asked)
          | .ok false =>
            (.error (.core (.conversationNotAllowed input.senderId conversation.userIds)), asked)
          | .ok true =>
            let message := sent i w conversation.id input
            let recipientIds := conversation.userIds.filter fun id => id ≠ input.senderId
            (.ok message, { asked with
              messages := ⟨w.messages.messages ++ [message]⟩
              published := w.published ++ [message]
              notified := w.notified ++ [(message, recipientIds)] }) := by
  simp only [sendMessage]
  split
  · rfl
  · simp only [Proc.bind_eq_bind, Adapter.run_bind, run_awaitParticipant]
    cases w.requireParticipant input.conversationId input.senderId with
    | error e => rfl
    | ok conversation =>
      simp only [Proc.request, Adapter.run_await, adapter_perform, perform, Conversation.userIds]
      cases i.gate input.senderId (conversation.participants.map fun p => p.userId) with
      | error e => rfl
      | ok allowed => cases allowed <;> rfl

theorem run_listMessages (c u : String) (options : ListMessagesOptions) :
    adapter.run i (listMessages c u options) w =
      (((w.requireParticipant c u).map fun conversation =>
        w.messages.listByConversation c (withCleared options (clearedAtOf conversation u))), w) := by
  simp only [listMessages, Proc.bind_eq_bind, Adapter.run_bind, run_awaitParticipant]
  cases w.requireParticipant c u with
  | error e => rfl
  | ok conversation => simp [perform, Except.map]

theorem run_deleteMessage (c messageId u : String) :
    adapter.run i (deleteMessage c messageId u) w =
      match w.requireParticipant c u with
      | .error e => (.error e, w)
      | .ok _ =>
        match w.messages.findById messageId with
        | none => (.error (.core (.messageNotFound messageId)), w)
        | some message =>
          if message.conversationId ≠ c then (.error (.core (.messageNotFound messageId)), w)
          else if message.senderId ≠ u then (.error (.core (.notMessageAuthor messageId u)), w)
          else if message.deletedAt ≠ none then (.ok message, w)
          else
            let deleted := InMemoryMessageStore.tombstone message w.clock
            (.ok deleted, { w with
              messages := ⟨mutateFirst (fun m => m.id = messageId)
                (fun m => InMemoryMessageStore.tombstone m w.clock) w.messages.messages⟩
              published := w.published ++ [deleted] }) := by
  simp only [deleteMessage, Proc.bind_eq_bind, Adapter.run_bind, run_awaitParticipant]
  cases w.requireParticipant c u with
  | error e => rfl
  | ok conversation =>
    simp only [Proc.request, Proc.perform, Adapter.run_await, adapter_perform, perform,
      Proc.ofExcept_ok, Adapter.run_ret]
    cases hfind : w.messages.findById messageId with
    | none => rfl
    | some message =>
      by_cases hc : message.conversationId = c
      · by_cases hs : message.senderId = u
        · by_cases hd : message.deletedAt = none
          · simp [hc, hs, hd, perform, InMemoryMessageStore.softDelete, hfind]
          · simp [hc, hs, hd]
        · simp [hc, hs]
      · simp [hc]

theorem run_deleteConversation (c u : String) :
    adapter.run i (deleteConversation c u) w =
      match w.requireParticipant c u with
      | .error e => (.error e, w)
      | .ok _ => (.ok (), { w with conversations := w.conversations.clear c u w.clock }) := by
  simp only [deleteConversation, Proc.bind_eq_bind, Adapter.run_bind, run_awaitParticipant]
  cases w.requireParticipant c u with
  | error e => rfl
  | ok conversation => rfl

theorem run_markRead (c u : String) (at_ : Date) :
    adapter.run i (markRead c u at_) w =
      match w.requireParticipant c u with
      | .error e => (.error e, w)
      | .ok _ => (.ok (), { w with conversations := w.conversations.markRead c u at_ }) := by
  simp only [markRead, Proc.bind_eq_bind, Adapter.run_bind, run_awaitParticipant]
  cases w.requireParticipant c u with
  | error e => rfl
  | ok conversation => rfl

-- ---------------------------------------------------------------------------
-- One whole call
-- ---------------------------------------------------------------------------

/-- The operations that only read. -/
def readOnly : Op → Bool
  | .getConversation _ _ | .listConversations _ | .listMessages _ _ _ => true
  | _ => false

/-- Everything one call can leave behind, from the world `w` it starts in: its
result and the world after it. -/
inductive Effect (i : Input) (w : World) : Op → Except Failure Reply → World → Prop where
  | rejected (op : Op) (e : Failure) (asked : List (String × List String)) :
    Effect i w op (.error e) { w with asked }
  | read {op : Op} (reply : Reply) (hop : readOnly op = true) : Effect i w op (.ok reply) w
  | created (requesterId : String) (participantIds : List String) :
    Effect i w (.createConversation requesterId participantIds)
      (.ok (.conversation (InMemoryConversationStore.newConversation i.uuid w.clock participantIds)))
      { w.ask requesterId participantIds with
        conversations := w.conversations.put
          (InMemoryConversationStore.newConversation i.uuid w.clock participantIds) }
  | sent {input : SendMessageInput} {conversation : Conversation} (hbody : trim input.body ≠ "")
    (hc : w.conversations.findById input.conversationId = some conversation)
    (hu : isParticipant conversation input.senderId = true) :
    Effect i w (.sendMessage input) (.ok (.message (sent i w conversation.id input)))
      { w.ask input.senderId conversation.userIds with
        messages := ⟨w.messages.messages ++ [sent i w conversation.id input]⟩
        published := w.published ++ [sent i w conversation.id input]
        notified := w.notified ++ [(sent i w conversation.id input,
          conversation.userIds.filter fun id => id ≠ input.senderId)] }
  | alreadyDeleted {message : Message} (hm : w.messages.findById message.id = some message)
    (hd : message.deletedAt ≠ none) :
    Effect i w (.deleteMessage message.conversationId message.id message.senderId)
      (.ok (.message message)) w
  | tombstoned {message : Message} (hm : w.messages.findById message.id = some message)
    (hd : message.deletedAt = none) :
    Effect i w (.deleteMessage message.conversationId message.id message.senderId)
      (.ok (.message (InMemoryMessageStore.tombstone message w.clock)))
      { w with
        messages := ⟨mutateFirst (fun m => m.id = message.id)
          (fun m => InMemoryMessageStore.tombstone m w.clock) w.messages.messages⟩
        published := w.published ++ [InMemoryMessageStore.tombstone message w.clock] }
  | cleared {c u : String} {conversation : Conversation}
    (hc : w.conversations.findById c = some conversation)
    (hu : isParticipant conversation u = true) :
    Effect i w (.deleteConversation c u) (.ok .done)
      { w with conversations := w.conversations.clear c u w.clock }
  | marked {c u : String} {at_ : Date} {conversation : Conversation}
    (hc : w.conversations.findById c = some conversation)
    (hu : isParticipant conversation u = true) :
    Effect i w (.markRead c u at_) (.ok .done)
      { w with conversations := w.conversations.markRead c u at_ }

/-- A rejection leaves all but the gate's record of questions. -/
theorem Effect.rejected_same {op : Op} {e : Failure} : Effect i w op (.error e) w :=
  .rejected op e w.asked

theorem serve_effect (op : Op) (w : World) :
    Effect i (adapter.tick i w) op (serve i op w).1 (serve i op w).2 := by
  unfold serve
  generalize adapter.tick i w = w
  cases op with
  | createConversation requesterId participantIds =>
    simp only [Op.program, Proc.bind_eq_bind, Proc.pure_eq_ret, Adapter.run_map,
      run_createConversation]
    cases i.gate requesterId participantIds with
    | error e => exact .rejected _ _ _
    | ok allowed =>
      cases allowed with
      | false => exact .rejected _ _ _
      | true => exact .created _ _
  | getConversation c u =>
    simp only [Op.program, Proc.bind_eq_bind, Proc.pure_eq_ret, Adapter.run_map, run_getConversation]
    cases w.requireParticipant c u with
    | error e => exact .rejected_same _ _
    | ok conversation => exact .read _ rfl
  | listConversations u =>
    simp only [Op.program, Proc.bind_eq_bind, Proc.pure_eq_ret, Adapter.run_map,
      run_listConversations]
    exact .read _ rfl
  | sendMessage input =>
    simp only [Op.program, Proc.bind_eq_bind, Proc.pure_eq_ret, Adapter.run_map, run_sendMessage]
    split
    · exact .rejected_same _ _
    · next hbody =>
      cases hreq : w.requireParticipant input.conversationId input.senderId with
      | error e => exact .rejected_same _ _
      | ok conversation =>
        obtain ⟨hc, hu⟩ := World.requireParticipant_ok hreq
        simp only
        cases i.gate input.senderId conversation.userIds with
        | error e => exact .rejected _ _ _
        | ok allowed =>
          cases allowed with
          | false => exact .rejected _ _ _
          | true => exact .sent hbody hc hu
  | listMessages c u options =>
    simp only [Op.program, Proc.bind_eq_bind, Proc.pure_eq_ret, Adapter.run_map, run_listMessages]
    cases w.requireParticipant c u with
    | error e => exact .rejected_same _ _
    | ok conversation => exact .read _ rfl
  | deleteMessage c messageId u =>
    simp only [Op.program, Proc.bind_eq_bind, Proc.pure_eq_ret, Adapter.run_map, run_deleteMessage]
    cases w.requireParticipant c u with
    | error e => exact .rejected_same _ _
    | ok conversation =>
      simp only
      cases hfind : w.messages.findById messageId with
      | none => exact .rejected_same _ _
      | some message =>
        have hid : message.id = messageId := by simpa using List.find?_some hfind
        subst hid
        by_cases hc : message.conversationId = c
        · subst hc
          by_cases hs : message.senderId = u
          · subst hs
            by_cases hd : message.deletedAt = none
            · simpa [hd, Except.map] using Effect.tombstoned hfind hd
            · simpa [hd, Except.map] using Effect.alreadyDeleted (i := i) hfind hd
          · simpa [hs, Except.map] using Effect.rejected_same i w
        · simpa [hc, Except.map] using Effect.rejected_same i w
  | deleteConversation c u =>
    simp only [Op.program, Proc.bind_eq_bind, Proc.pure_eq_ret, Adapter.run_map,
      run_deleteConversation]
    cases hreq : w.requireParticipant c u with
    | error e => exact .rejected_same _ _
    | ok conversation =>
      obtain ⟨hc, hu⟩ := World.requireParticipant_ok hreq
      exact .cleared hc hu
  | markRead c u at_ =>
    simp only [Op.program, Proc.bind_eq_bind, Proc.pure_eq_ret, Adapter.run_map, run_markRead]
    cases hreq : w.requireParticipant c u with
    | error e => exact .rejected_same _ _
    | ok conversation =>
      obtain ⟨hc, hu⟩ := World.requireParticipant_ok hreq
      exact .marked hc hu

end InMemory

end Jiffy
