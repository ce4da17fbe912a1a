-- SUMMARY: What interleaved calls can do to each other's view of the in-memory stores, as a contract, and the reads under that interference.
import Jiffy.InMemory.Calls
import Jiffy.InMemory.Stores
import Jiffy.Lib.RelyGuarantee

/-!
# Interference on the in-memory adapters

Between two turns of a call the stores can grow, messages can become
tombstones, and participant records can change, but a conversation keeps its
participants and a clearing instant only moves forward.
-/

namespace Jiffy

open Js Async MessagingService

namespace World

/-- No id is used twice and nothing lies in the future. -/
structure Timely (w : World) : Prop where
  ids : (w.messages.messages.map fun m => m.id).Nodup
  created : ∀ m ∈ w.messages.messages, m.createdAt ≤ w.clock
  cleared : ∀ {c u conversation t}, w.conversations.findById c = some conversation →
    clearedAtOf conversation u = some t → t ≤ w.clock

/-- What other calls may do between two turns. -/
structure Evolves (w w' : World) : Prop where
  clock : w.clock ≤ w'.clock
  conversations : ∀ {c conversation}, w.conversations.findById c = some conversation →
    ∃ conversation', w'.conversations.findById c = some conversation' ∧
      conversation'.userIds = conversation.userIds ∧
      ∀ u t, clearedAtOf conversation u = some t →
        ∃ t', t ≤ t' ∧ clearedAtOf conversation' u = some t'
  messages : ∀ m ∈ w.messages.messages, ∃ m' ∈ w'.messages.messages, m.SameIdentity m'

theorem Evolves.of_stores {w w' : World} (hclock : w.clock ≤ w'.clock)
    (hc : w'.conversations = w.conversations) (hm : w'.messages = w.messages) : w.Evolves w' where
  clock := hclock
  conversations {_ conversation} h := ⟨conversation, hc ▸ h, rfl, fun _ t ht => ⟨t, le_refl t, ht⟩⟩
  messages m h := ⟨m, hm ▸ h, rfl⟩

theorem Evolves.refl (w : World) : w.Evolves w := .of_stores (le_refl _) rfl rfl

theorem Evolves.trans {w₁ w₂ w₃ : World} (h : w₁.Evolves w₂) (h' : w₂.Evolves w₃) :
    w₁.Evolves w₃ where
  clock := h.clock.trans h'.clock
  conversations hc := by
    obtain ⟨conversation₂, hc₂, hids₂, hcleared₂⟩ := h.conversations hc
    obtain ⟨conversation₃, hc₃, hids₃, hcleared₃⟩ := h'.conversations hc₂
    refine ⟨conversation₃, hc₃, hids₃.trans hids₂, fun u t ht => ?_⟩
    obtain ⟨t₂, hle₂, ht₂⟩ := hcleared₂ u t ht
    obtain ⟨t₃, hle₃, ht₃⟩ := hcleared₃ u t₂ ht₂
    exact ⟨t₃, hle₂.trans hle₃, ht₃⟩
  messages m hm := by
    obtain ⟨m₂, hm₂, hsame₂⟩ := h.messages m hm
    obtain ⟨m₃, hm₃, hsame₃⟩ := h'.messages m₂ hm₂
    exact ⟨m₃, hm₃, hsame₂.trans hsame₃⟩

/-- Two stored messages with one id are one message. -/
theorem Timely.eq_of_id {w : World} (hw : w.Timely) {m m' : Message}
    (hm : m ∈ w.messages.messages) (hm' : m' ∈ w.messages.messages) (hid : m.id = m'.id) : m = m' :=
  List.inj_on_of_nodup_map hw.ids hm hm' hid

end World

theorem InMemory.liveMessage_of_mem {w : World} (hw : w.Timely) {m m' : Message}
    (hm' : m' ∈ w.messages.messages) (hid : m'.id = m.id) : w.liveMessage m = m' := by
  cases hfind : w.messages.findById m.id with
  | none =>
    have hne := List.find?_eq_none.mp hfind m' hm'
    simp [hid] at hne
  | some m₀ =>
    have hm₀ := List.mem_of_find?_eq_some hfind
    have hid₀ := InMemoryMessageStore.findById_id hfind
    rw [World.liveMessage, hfind, Option.getD_some]
    exact hw.eq_of_id hm₀ hm' (hid₀.trans hid.symm)

/-- A message that was stored is still stored, as its reference now shows it. -/
theorem World.Evolves.liveMessage {w w' : World} (h : w.Evolves w') (hw' : w'.Timely) {m m₀ : Message}
    (hm : m ∈ w.messages.messages) (hid : m.id = m₀.id) :
    w'.liveMessage m₀ ∈ w'.messages.messages ∧ m.SameIdentity (w'.liveMessage m₀) := by
  obtain ⟨m', hm', hsame⟩ := h.messages m hm
  have hid' : m'.id = m₀.id := by rw [hsame]; exact hid
  rw [InMemory.liveMessage_of_mem hw' hm' hid']
  exact ⟨hm', hsame⟩

theorem clearedAtOf_mutateParticipant {conversation : Conversation} {u v : String}
    {f : ConversationParticipant → ConversationParticipant} (hf : ∀ p, (f p).userId = p.userId) :
    clearedAtOf (conversation.mutateParticipant u f) v =
      if v = u then (participantOf conversation u).bind fun p => (f p).clearedAt
      else clearedAtOf conversation v := by
  rw [clearedAtOf, participantOf_mutateParticipant hf]
  split
  · rw [Option.bind_map]; rfl
  · rfl

/-- A participant's instant after a clear. -/
theorem clearedAtOf_clear {conversation : Conversation} {u : String} (t : Int)
    (hu : isParticipant conversation u = true) :
    clearedAtOf (conversation.mutateParticipant u fun p => { p with clearedAt := some t }) u =
      some t := by
  have hid : ∀ p : ConversationParticipant,
      ({ p with clearedAt := some t } : ConversationParticipant).userId = p.userId := fun _ => rfl
  obtain ⟨p, hp⟩ := Option.isSome_iff_exists.mp (participantOf_isSome hu)
  rw [clearedAtOf_mutateParticipant hid, if_pos rfl, hp]
  rfl

theorem clearedAtOf_newConversation {uuid u : String} {now : Int} {participantIds : List String} :
    clearedAtOf (InMemoryConversationStore.newConversation uuid now participantIds) u = none := by
  simp only [clearedAtOf, participantOf, InMemoryConversationStore.newConversation,
    Option.bind_eq_none_iff]
  intro p hp
  obtain ⟨userId, -, rfl⟩ := List.mem_map.mp (List.mem_of_find?_eq_some hp)
  rfl

namespace InMemory

/-- A conversation is cleared only by `deleteConversation`, at the current
reading, for a participant. -/
def Pre (op : Op) (_ : List (ports.Event Failure)) (w : World) : PortCall → Prop
  | .clear c u t => op = .deleteConversation c u ∧ t = w.clock ∧
      ∃ conversation, w.conversations.findById c = some conversation ∧
        isParticipant conversation u = true
  | _ => True

variable {i : Input} {w : World}

theorem timely_tick (hw : w.Timely) (ha : admissible i w = true) :
    (adapter.tick i w).Timely ∧ w.Evolves (adapter.tick i w) := by
  have hle : w.clock ≤ i.now := by simp [admissible] at ha; exact ha.1.1
  exact ⟨⟨hw.ids, fun m hm => (hw.created m hm).trans hle, fun hc ht => (hw.cleared hc ht).trans hle⟩,
    .of_stores hle rfl rfl⟩

/-- A write to one participant record that leaves instants in order. -/
theorem timely_updateParticipant {c u : String}
    {f : ConversationParticipant → ConversationParticipant} (hw : w.Timely)
    (hid : ∀ p, (f p).userId = p.userId)
    (hf : ∀ p, (f p).clearedAt = p.clearedAt ∨ (f p).clearedAt = some w.clock) :
    let w' := { w with conversations := w.conversations.updateParticipant c u f }
    w'.Timely ∧ w.Evolves w' := by
  intro w'
  have hfind := w.conversations.findById_updateParticipant c u f
  refine ⟨⟨hw.ids, hw.created, fun {c' v conversation' t} hc ht => ?_⟩,
    ⟨le_refl _, fun {c' conversation} hc => ?_, fun m hm => ⟨m, hm, rfl⟩⟩⟩
  · rw [show w'.conversations.findById c' = _ from hfind c'] at hc
    split at hc
    · next h =>
      obtain ⟨conversation, hget, rfl⟩ := Option.map_eq_some_iff.mp hc
      rw [clearedAtOf_mutateParticipant hid] at ht
      split at ht
      · obtain ⟨p, hp, hpt⟩ := Option.bind_eq_some_iff.mp ht
        rcases hf p with h | h
        · exact hw.cleared (u := u) hget (by rw [clearedAtOf, hp]; exact h.symm.trans hpt)
        · rw [h] at hpt; cases hpt; exact le_refl _
      · exact hw.cleared hget ht
    · exact hw.cleared hc ht
  · by_cases h : c' = c
    · subst h
      refine ⟨conversation.mutateParticipant u f, ?_, userIds_mutateParticipant hid, fun v t ht => ?_⟩
      · rw [show w'.conversations.findById c' = _ from hfind c', if_pos rfl, hc]; rfl
      · rw [clearedAtOf_mutateParticipant hid]
        split
        · next hv =>
          subst hv
          have hle := hw.cleared hc ht
          obtain ⟨p, hp, hpt⟩ := Option.bind_eq_some_iff.mp ht
          rw [hp]
          rcases hf p with h | h
          · exact ⟨t, le_refl _, h.trans hpt⟩
          · exact ⟨w.clock, hle, h⟩
        · exact ⟨t, le_refl _, ht⟩
    · refine ⟨conversation, ?_, rfl, fun v t ht => ⟨t, le_refl _, ht⟩⟩
      rw [show w'.conversations.findById c' = _ from hfind c', if_neg h, hc]

/-- Every port call keeps the stores timely and evolves them. -/
theorem timely_perform {op : Op} {h : List (ports.Event Failure)} {call : PortCall}
    (hw : w.Timely) (ha : admissible i w = true) (hp : Pre op h w call) :
    (perform i call w).2.Timely ∧ w.Evolves (perform i call w).2 := by
  simp only [admissible, Bool.and_eq_true, Option.isNone_iff_eq_none] at ha
  cases call with
  | canCreateConversation | findConversation | findByParticipant | findMessage
  | listByConversation | listPreviews | settled | newDate | publish | notify =>
    exact ⟨⟨hw.ids, hw.created, hw.cleared⟩, .of_stores (le_refl _) rfl rfl⟩
  | createConversation participantIds =>
    have hfind := w.conversations.findById_put
      (InMemoryConversationStore.newConversation i.uuid w.clock participantIds)
    refine ⟨⟨hw.ids, hw.created, fun {c u conversation t} hc ht => ?_⟩,
      ⟨le_refl _, fun {c conversation} hc => ?_, fun m hm => ⟨m, hm, rfl⟩⟩⟩
    · replace hc := (hfind c).symm.trans hc
      split at hc
      · cases hc
        rw [clearedAtOf_newConversation] at ht
        cases ht
      · exact hw.cleared hc ht
    · refine ⟨conversation, (hfind c).trans ?_, rfl, fun u t ht => ⟨t, le_refl _, ht⟩⟩
      rw [if_neg, hc]
      rintro rfl
      rw [show w.conversations.findById i.uuid = some conversation from hc] at ha
      simp at ha
  | markRead c u at_ => exact timely_updateParticipant hw (fun _ => rfl) fun _ => .inl rfl
  | clear c u t =>
    obtain ⟨-, rfl, -⟩ := hp
    exact timely_updateParticipant hw (fun _ => rfl) fun _ => .inr rfl
  | createMessage input =>
    refine ⟨⟨?_, fun m hm => ?_, hw.cleared⟩,
      ⟨le_refl _, fun {_ conversation} hc => ⟨conversation, hc, rfl, fun _ t ht => ⟨t, le_refl _, ht⟩⟩,
        fun m hm => ⟨m, List.mem_append_left _ hm, rfl⟩⟩⟩
    · change ((w.messages.messages ++ [_]).map _).Nodup
      rw [List.map_append, List.nodup_append]
      refine ⟨hw.ids, List.nodup_singleton _, ?_⟩
      intro a hin b hb hab
      obtain ⟨m, hm, rfl⟩ := List.mem_map.mp hin
      have hne : m.id ≠ i.uuid := by simpa using List.find?_eq_none.mp ha.2 m hm
      exact hne (hab.trans (List.mem_singleton.mp hb))
    · rcases List.mem_append.mp hm with hm | hm
      · exact hw.created m hm
      · rw [List.mem_singleton.mp hm]
        exact le_refl _
  | softDelete id t =>
    simp only [perform, InMemoryMessageStore.softDelete]
    split
    · exact ⟨⟨hw.ids, hw.created, hw.cleared⟩, .of_stores (le_refl _) rfl rfl⟩
    · split
      · exact ⟨⟨hw.ids, hw.created, hw.cleared⟩, .of_stores (le_refl _) rfl rfl⟩
      · refine ⟨⟨?_, fun m hm => ?_, hw.cleared⟩, ⟨le_refl _, fun {_ conversation} hc =>
          ⟨conversation, hc, rfl, fun _ t ht => ⟨t, le_refl _, ht⟩⟩, fun m hm => ?_⟩⟩
        · exact (congrArg List.Nodup (InMemoryMessageStore.ids_tombstone _ _ _)).mpr hw.ids
        · rcases mem_mutateFirst hm with hm | ⟨a, hmem, _, rfl⟩
          · exact hw.created m hm
          · exact hw.created a hmem
        · rcases mem_mutateFirst_of_mem hm with hin | ⟨-, hin⟩
          · exact ⟨m, hin, rfl⟩
          · exact ⟨_, hin, rfl⟩

-- ---------------------------------------------------------------------------
-- Programs under interference
-- ---------------------------------------------------------------------------

/-- Conditions under which other calls do no more than evolve the stores, and
which ask for nothing but before a clear. -/
structure Respects (C : Conditions ports Failure World) : Prop where
  trans : ∀ {s t u}, C.Rely s t → C.Rely t u → C.Rely s u
  evolves : ∀ {s t}, C.Rely s t → s.Evolves t
  pre : ∀ {h s call}, (∀ c u t, call ≠ .clear c u t) → C.Pre h s call

section Safe

variable {C : Conditions ports Failure World} {β : Type}
  {Q : Postcondition ports Failure β World Input} {h : List (ports.Event Failure)}

theorem liveConversation_of_find {c : String} {conversation : Conversation} {w' : World}
    (hc : w.conversations.findById c = some conversation) (hw : w.Evolves w') :
    w'.conversations.findById c = some (w'.liveConversation conversation) ∧
      (w'.liveConversation conversation).userIds = conversation.userIds := by
  obtain ⟨conversation', hc', hids, -⟩ := hw.conversations hc
  have hid := w.conversations.keyed hc
  have hlive : w'.liveConversation conversation = conversation' := by
    rw [World.liveConversation, hid, hc', Option.getD_some]
  exact ⟨hlive ▸ hc', hlive ▸ hids⟩

/-- The participant check, and then the rest on the conversation as it is when
the caller goes on. -/
theorem safe_check (htrans : ∀ {s t u}, C.Rely s t → C.Rely t u → C.Rely s u)
    (hevolves : ∀ {s t}, C.Rely s t → s.Evolves t) {c u : String} {f : Conversation → Service β}
    (hpre : ∀ {h s}, C.Pre h s (.findConversation c) ∧ ∀ conversation, C.Pre h s (.settled conversation))
    (herr : ∀ i e h s, Q i (.error e) h s)
    (hok : ∀ {i h t conversation}, C.Rely w t → C.Inv t → admissible i t = true →
      t.conversations.findById c = some conversation → isParticipant conversation u = true →
      (f conversation).Safe adapter C Q i h t) :
    ((awaitParticipant c u).bind f).Safe adapter C Q i h w := by
  simp only [awaitParticipant, requireParticipant, Proc.request, Proc.bind_eq_bind,
    Proc.await_bind, Proc.Safe, adapter_perform, perform, adapter_refresh, refresh, Except.map,
    Proc.ofExcept_ok, Proc.ret_bind]
  refine ⟨hpre.1, fun t i₁ hwt hIt _ => ?_⟩
  cases hfind : w.conversations.findById c with
  | none => exact herr _ _ _ _
  | some conversation =>
    obtain ⟨hct, hids⟩ := liveConversation_of_find hfind (hevolves hwt)
    simp only [Option.map_some]
    generalize t.liveConversation conversation = conversation' at hct hids
    by_cases hu : isParticipant conversation' u = true
    · simp only [hu, if_true, Proc.pure_eq_ret, Proc.ret_bind, Proc.await_bind, Proc.Safe,
        adapter_perform, perform, adapter_refresh, refresh, Except.map, Proc.ofExcept_ok]
      refine ⟨hpre.2 _, fun t' i₂ htt' hIt' ha' => ?_⟩
      obtain ⟨hct', hids'⟩ := liveConversation_of_find hct (hevolves htt')
      refine hok (htrans hwt htt') hIt' ha' hct' ?_
      rw [isParticipant_iff, hids', ← isParticipant_iff]
      exact hu
    · simp only [hu]
      exact herr _ _ _ _

theorem safe_awaitParticipant (hC : Respects C) {c u : String} {f : Conversation → Service β}
    (herr : ∀ i e h s, Q i (.error e) h s)
    (hok : ∀ {i h t conversation}, C.Rely w t → C.Inv t → admissible i t = true →
      t.conversations.findById c = some conversation → isParticipant conversation u = true →
      (f conversation).Safe adapter C Q i h t) :
    ((awaitParticipant c u).bind f).Safe adapter C Q i h w :=
  safe_check hC.trans hC.evolves ⟨hC.pre (by simp), fun _ => hC.pre (by simp)⟩ herr hok

end Safe

section Programs

variable {C : Conditions ports Failure World} {Q : Postcondition ports Failure Reply World Input}
  {h : List (ports.Event Failure)}

theorem safe_listMessages (hC : Respects C) {c u : String} {options : ListMessagesOptions}
    (herr : ∀ i e h s, Q i (.error e) h s)
    (hok : ∀ {i h s t conversation}, C.Rely w s → C.Inv s → C.Rely s t → C.Inv t →
      s.conversations.findById c = some conversation → isParticipant conversation u = true →
      Q i (.ok (.messages ((s.messages.listByConversation c
        (withCleared options (clearedAtOf conversation u))).map t.liveMessage))) h t) :
    (Op.program (.listMessages c u options)).Safe adapter C Q i h w := by
  simp only [Op.program, listMessages, Proc.bind_eq_bind, Proc.bind_assoc]
  refine safe_awaitParticipant hC herr fun {i' h' s conversation} hws hIs ha hc hu => ?_
  simp only [Proc.request, Proc.await_bind, Proc.Safe, adapter_perform, perform, adapter_refresh,
    refresh, Except.map, Proc.ofExcept_ok, Proc.ret_bind, Proc.pure_eq_ret]
  exact ⟨hC.pre (by simp), fun t i'' hst hIt _ => hok hws hIs hst hIt hc hu⟩

theorem safe_listConversations (hC : Respects C) {u : String}
    (hok : ∀ {i h s t}, C.Rely w s → C.Inv s → C.Rely s t → C.Inv t →
      let queries := ((w.conversations.findByParticipant u).map s.liveConversation).map (previewQuery u)
      Q i (.ok (.conversations (withPreviews (queries.map fun q =>
        ({ q with conversation := t.liveConversation q.conversation },
          (s.messages.listByConversation q.conversation.id q.options).map t.liveMessage))))) h t) :
    (Op.program (.listConversations u)).Safe adapter C Q i h w := by
  simp only [Op.program, listConversations, Proc.bind_eq_bind, Proc.bind_assoc, Proc.request,
    Proc.await_bind, Proc.Safe, adapter_perform, perform, adapter_refresh, refresh, Except.map,
    Proc.ofExcept_ok, Proc.ret_bind, Proc.pure_eq_ret]
  refine ⟨hC.pre (by simp), fun s i₁ hws hIs _ => ⟨hC.pre (by simp), fun t i₂ hst hIt _ => ?_⟩⟩
  simpa [Function.comp_def] using hok hws hIs hst hIt

/-- A deletion for oneself clears at the current reading. -/
theorem safe_deleteConversation (hC : Respects C) {c u : String}
    (herr : ∀ i e h s, Q i (.error e) h s)
    (hpre : ∀ {h s conversation}, C.Inv s → s.conversations.findById c = some conversation →
      isParticipant conversation u = true → C.Pre h s (.clear c u s.clock))
    (hok : ∀ {i h t} (now : Int), ⟨.clear c u now, .ok ()⟩ ∈ h → Q i (.ok .done) h t) :
    (Op.program (.deleteConversation c u)).Safe adapter C Q i h w := by
  simp only [Op.program, deleteConversation, Proc.bind_eq_bind, Proc.bind_assoc]
  refine safe_awaitParticipant hC herr fun {i' h' s conversation} _ hIs ha hc hu => ?_
  simp only [Proc.request, Proc.perform, Proc.await_bind, Proc.sync_bind, Proc.Safe,
    adapter_perform, perform, adapter_refresh, refresh, Except.map, Proc.ofExcept_ok,
    Proc.ret_bind, Proc.pure_eq_ret]
  exact ⟨hC.pre (by simp), ha, hpre hIs hc hu, fun t i'' _ _ _ => hok s.clock (by simp)⟩

/-- A send settles with the message it stored, as that then is. -/
theorem safe_sendMessage (hC : Respects C) {input : SendMessageInput}
    (herr : ∀ i e h s, Q i (.error e) h s)
    (hkeep : ∀ {s} s', C.Inv s → s'.conversations = s.conversations → s'.messages = s.messages →
      s'.clock = s.clock → C.Rely s s' ∧ C.Inv s')
    (hok : ∀ {i j h s} {t t' : World}, C.Rely w s → C.Inv s → admissible j s = true →
      let call := PortCall.createMessage ⟨input.conversationId, input.senderId, input.body⟩
      let stored := InMemoryMessageStore.newMessage j.uuid s.clock
        ⟨input.conversationId, input.senderId, input.body⟩
      C.Rely (perform j call s).2 t' → C.Inv t' → t'.messages = t.messages →
      ⟨call, .ok stored⟩ ∈ h → Q i (.ok (.message (t.liveMessage stored))) h t') :
    (Op.program (.sendMessage input)).Safe adapter C Q i h w := by
  obtain ⟨c, u, body⟩ := input
  simp only [Op.program, sendMessage, Proc.bind_eq_bind]
  split
  · exact herr _ _ _ _
  rw [Proc.bind_assoc]
  refine safe_awaitParticipant hC herr fun {i₁ h₁ s₁ conversation} hws₁ hI₁ ha₁ hc hu => ?_
  obtain rfl := s₁.conversations.keyed hc
  simp only [Proc.request, Proc.perform, Proc.await_bind, Proc.Safe, adapter_perform, perform]
  refine ⟨hC.pre (by simp), fun s₂ i₂ hs₁₂ hI₂ ha₂ => ?_⟩
  have hasked := hkeep (s₁.ask u (conversation.participants.map fun p => p.userId))
    hI₁ rfl rfl rfl
  have hws₂ := hC.trans (hC.trans hws₁ hasked.1) hs₁₂
  cases i₁.gate u (conversation.participants.map fun p => p.userId) with
  | error e => exact herr _ _ _ _
  | ok allowed =>
    cases allowed with
    | false => exact herr _ _ _ _
    | true =>
      simp only [Except.map, Except.mapError, Proc.ofExcept_ok, Proc.ret_bind, if_true,
        Proc.await_bind, Proc.sync_bind, Proc.Safe, adapter_perform, perform, adapter_refresh,
        refresh, Proc.pure_eq_ret]
      refine ⟨hC.pre (by simp), fun t i₃ hst hIt hat => ?_⟩
      refine ⟨hC.pre (by simp), hat, hC.pre (by simp), hat, ?_⟩
      have hpublished := fun published notified =>
        hkeep { t with published, notified } hIt rfl rfl rfl
      refine hok hws₂ hI₂ ha₂ (hC.trans hst (hpublished _ _).1) (hpublished _ _).2 rfl ?_
      exact List.mem_append_left _ (List.mem_append_left _ (List.mem_append_right _ List.mem_cons_self))

end Programs

theorem respects_pre (op : Op) : Respects ⟨World.Timely, World.Evolves, Pre op⟩ where
  trans := World.Evolves.trans
  evolves h := h
  pre {_ _ call} hcall := by
    cases call with
    | clear c u t => exact absurd rfl (hcall c u t)
    | _ => trivial

/-- Publishing, notifying and asking are nothing to the stores. -/
theorem timely_of_stores {w' : World} (hw : w.Timely) (hc : w'.conversations = w.conversations)
    (hm : w'.messages = w.messages) (hclock : w'.clock = w.clock) : w.Evolves w' ∧ w'.Timely :=
  ⟨.of_stores (le_of_eq hclock.symm) hc hm,
    ⟨hm ▸ hw.ids, by rw [hm, hclock]; exact hw.created, by rw [hc, hclock]; exact hw.cleared⟩⟩

/-- A whole call keeps the stores timely. -/
theorem Effect.timely {op : Op} {result : Except Failure Reply} {w' : World} (hw : w.Timely)
    (ha : admissible i w = true) (h : Effect i w op result w') : w'.Timely := by
  have hperform : ∀ {call : PortCall}, Pre op [] w call → (perform i call w).2.Timely :=
    fun hp => (timely_perform hw ha hp).1
  cases h with
  | rejected => exact And.right (timely_of_stores hw rfl rfl rfl)
  | read | alreadyDeleted => exact hw
  | created requesterId participantIds =>
    have hcall : Pre (.createConversation requesterId participantIds) [] w
        (.createConversation participantIds) := trivial
    exact And.right (timely_of_stores (hperform hcall) rfl rfl rfl)
  | @sent input conversation =>
    have hcall : Pre (.sendMessage input) [] w
        (.createMessage ⟨conversation.id, input.senderId, input.body⟩) := trivial
    exact And.right (timely_of_stores (hperform hcall) rfl rfl rfl)
  | @tombstoned message hm hd =>
    have hcall : Pre (.deleteMessage message.conversationId message.id message.senderId) [] w
        (.softDelete message.id w.clock) := trivial
    refine And.right (timely_of_stores (hperform hcall) ?_ ?_ ?_) <;>
      simp [perform, InMemoryMessageStore.softDelete, hm, hd]
  | @cleared c u conversation hc hu =>
    have hcall : Pre (.deleteConversation c u) [] w (.clear c u w.clock) := ⟨rfl, rfl, conversation, hc, hu⟩
    exact hperform hcall
  | @marked c u at_ conversation hc hu =>
    have hcall : Pre (.markRead c u at_) [] w (.markRead c u at_) := trivial
    exact hperform hcall

theorem safe_program (op : Op) {h : List (ports.Event Failure)} :
    op.program.Safe adapter ⟨World.Timely, World.Evolves, Pre op⟩ (fun _ _ _ _ => True) i h w := by
  have hC := respects_pre op
  cases op with
  | createConversation requesterId participantIds =>
    simp only [Op.program, createConversation, Proc.request, Proc.bind_eq_bind, Proc.await_bind,
      Proc.Safe, adapter_perform, perform]
    refine ⟨trivial, fun s i₁ _ _ _ => ?_⟩
    cases i.gate requesterId participantIds with
    | error e => trivial
    | ok allowed => cases allowed <;> simp [Proc.Safe, Pre, perform, Except.map, Except.mapError, refresh]
  | getConversation c u =>
    simp only [Op.program, getConversation, Proc.bind_eq_bind]
    exact safe_awaitParticipant hC (fun _ _ _ _ => trivial) fun _ _ _ _ _ => trivial
  | listConversations u => exact safe_listConversations hC fun _ _ _ _ => trivial
  | sendMessage input =>
    exact safe_sendMessage hC (fun _ _ _ _ => trivial) (fun _ hI hc hm ht => timely_of_stores hI hc hm ht)
      fun _ _ _ _ _ _ _ => trivial
  | listMessages c u options =>
    exact safe_listMessages hC (fun _ _ _ _ => trivial) fun _ _ _ _ _ _ => trivial
  | deleteMessage c messageId u =>
    simp only [Op.program, deleteMessage, Proc.bind_eq_bind, Proc.bind_assoc]
    refine safe_awaitParticipant hC (fun _ _ _ _ => trivial) fun {i₁ h₁ s₁ _} _ _ _ _ _ => ?_
    simp only [Proc.request, Proc.perform, Proc.await_bind, Proc.Safe, adapter_perform, perform,
      adapter_refresh, refresh, Except.map, Proc.ofExcept_ok, Proc.ret_bind]
    refine ⟨trivial, fun s₂ i₂ _ _ ha₂ => ?_⟩
    cases Option.map s₂.liveMessage (s₁.messages.findById messageId) with
    | none => trivial
    | some message =>
      simp only
      split
      · trivial
      split
      · trivial
      split
      · trivial
      refine ⟨trivial, ha₂, trivial, fun s₃ i₃ _ _ ha₃ => ?_⟩
      generalize Except.map (adapter.refresh s₃ (.softDelete messageId s₂.clock)) _ = deleted
      cases deleted with
      | error e => trivial
      | ok deleted => exact ⟨trivial, ha₃, trivial⟩
  | deleteConversation c u =>
    exact safe_deleteConversation hC (fun _ _ _ _ => trivial) (fun _ hc hu => ⟨rfl, rfl, _, hc, hu⟩)
      fun _ _ => trivial
  | markRead c u at_ =>
    simp only [Op.program, markRead, Proc.bind_eq_bind, Proc.bind_assoc]
    refine safe_awaitParticipant hC (fun _ _ _ _ => trivial) fun {i₁ h₁ s₁ _} _ _ _ _ _ => ?_
    exact ⟨trivial, fun _ _ _ _ _ => trivial⟩

/-- The contract of the service on the in-memory adapters. -/
def contract : Contract system where
  Inv := World.Timely
  Rely := World.Evolves
  Pre := Pre
  refl := World.Evolves.refl
  trans := World.Evolves.trans
  tick {i w} hw ha := by
    obtain ⟨htimely, hevolves⟩ := timely_tick hw ha
    refine ⟨htimely, hevolves, ?_⟩
    simp only [system, adapter, admissible, Bool.and_eq_true] at ha ⊢
    exact ⟨⟨by simp, ha.1.2⟩, ha.2⟩
  arrive hw ha h := by
    cases h
    exact ⟨hw, .refl _, ha⟩
  perform hw ha hp := timely_perform hw ha hp
  program op _ _ _ _ := safe_program op

/-- Within a regime other calls evolve the stores, as everywhere. -/
theorem regime_respects (R : contract.Regime) (hR : ∀ {s t}, R.Rely s t → s.Evolves t) (op : Op) :
    Respects (R.conditions op) where
  trans := R.trans
  evolves := hR
  pre {h _ _} hcall := (respects_pre op).pre (h := h) hcall

theorem timely_init (clock : Int) : (World.init clock).Timely where
  ids := List.nodup_nil
  created := by simp [World.init, InMemoryMessageStore.empty]
  cleared := by simp [World.init, InMemoryConversationStore.empty, InMemoryConversationStore.findById]

end InMemory

end Jiffy
