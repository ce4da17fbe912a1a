-- SUMMARY: What the gate allowed before anything was stored, under interleaved calls on the in-memory stores.
import Jiffy.Core.PortCalls
import Jiffy.InMemory.Interference
import Jiffy.Lib.Journal

/-!
# The gate

The gate is an oracle: every turn brings answers of its own. Each conversation
and each message goes back to a call that the gate allowed, with the very
participants, before it wrote.
-/

namespace Jiffy

open Js Async MessagingService

namespace InMemory

-- ---------------------------------------------------------------------------
-- Answers and writes
-- ---------------------------------------------------------------------------

/-- The gate's `true` for a user and the participants of a conversation. -/
def gateYes (u : String) (ids : List String) : ports.Event Failure :=
  ⟨.canCreateConversation u ids, .ok true⟩

/-- The call is a send by `u`, and the gate allowed it for the participants of
`k`. -/
def Admitted (op : Op) (h : List (ports.Event Failure)) (w : World) (k u : String) : Prop :=
  ∃ input conversation, op = .sendMessage input ∧ input.senderId = u ∧
    w.conversations.findById k = some conversation ∧ gateYes u conversation.userIds ∈ h

/-- A call writes what the gate allowed it to, and publishes what is stored. -/
def GatePre (op : Op) (h : List (ports.Event Failure)) (w : World) : PortCall → Prop
  | .createConversation ids => ∃ u, op = .createConversation u ids ∧ gateYes u ids ∈ h
  | .createMessage input => Admitted op h w input.conversationId input.senderId
  | .publish m => m ∈ w.messages.messages ∧
    ∀ input, op = .sendMessage input → Admitted op h w m.conversationId m.senderId
  | .notify m _ => m ∈ w.messages.messages ∧ Admitted op h w m.conversationId m.senderId
  | _ => True

theorem Admitted.evolves {op : Op} {h : List (ports.Event Failure)} {w w' : World} {k u : String}
    (ha : Admitted op h w k u) (hw : w.Evolves w') {h' : List (ports.Event Failure)} (hh : h ⊆ h') :
    Admitted op h' w' k u := by
  obtain ⟨input, conversation, hop, hu, hfind, hyes⟩ := ha
  obtain ⟨conversation', hfind', hids, -⟩ := hw.conversations hfind
  exact ⟨input, conversation', hop, hu, hfind', hh (hids.symm ▸ hyes)⟩

-- ---------------------------------------------------------------------------
-- The programs ask first
-- ---------------------------------------------------------------------------

section Programs

variable {i : Input} {w : World} {h : List (ports.Event Failure)}

/-- What a call works under. -/
abbrev asking (op : Op) : Conditions ports Failure World :=
  ⟨World.Timely, World.Evolves, GatePre op⟩

theorem gate_createConversation (u : String) (ids : List String) :
    (Op.program (.createConversation u ids)).Safe adapter (asking (.createConversation u ids))
      (fun _ _ _ _ => True) i h w := by
  simp only [Op.program, createConversation, Proc.request, Proc.bind_eq_bind, Proc.await_bind,
    Proc.Safe, adapter_perform, perform]
  refine ⟨trivial, fun s i₁ _ _ _ => ?_⟩
  cases hgate : i.gate u ids with
  | error e => trivial
  | ok allowed =>
    cases allowed with
    | false => trivial
    | true =>
      refine ⟨⟨u, rfl, ?_⟩, fun _ _ _ _ _ => trivial⟩
      exact List.mem_append_right _ List.mem_cons_self

theorem gate_sendMessage (input : SendMessageInput) :
    (Op.program (.sendMessage input)).Safe adapter (asking (.sendMessage input))
      (fun _ _ _ _ => True) i h w := by
  obtain ⟨c, u, body⟩ := input
  simp only [Op.program, sendMessage, Proc.bind_eq_bind]
  split
  · trivial
  rw [Proc.bind_assoc]
  refine safe_check World.Evolves.trans id ⟨trivial, fun _ => trivial⟩ (fun _ _ _ _ => trivial)
    fun {i₁ h₁ s₁ conversation} _ hI₁ _ hc _ => ?_
  obtain rfl := s₁.conversations.keyed hc
  simp only [Proc.request, Proc.perform, Proc.await_bind, Proc.Safe, adapter_perform, perform]
  refine ⟨trivial, fun s₂ i₂ hs₁₂ hI₂ ha₂ => ?_⟩
  cases hgate : i₁.gate u (conversation.participants.map fun p => p.userId) with
  | error e => trivial
  | ok allowed =>
    cases allowed with
    | false => trivial
    | true =>
      simp only [Except.map, Except.mapError, Proc.ofExcept_ok, Proc.ret_bind, if_true,
        Proc.await_bind, Proc.sync_bind, Proc.Safe, adapter_perform, perform, adapter_refresh,
        refresh, Proc.pure_eq_ret]
      obtain ⟨conversation₂, hc₂, hids₂, -⟩ := hs₁₂.conversations hc
      have hadmitted : Admitted (.sendMessage ⟨conversation.id, u, body⟩)
          (h₁ ++ [gateYes u conversation.userIds]) s₂ conversation.id u :=
        ⟨_, conversation₂, rfl, rfl, hc₂, hids₂.symm ▸ List.mem_append_right _ List.mem_cons_self⟩
      refine ⟨hadmitted, fun t i₃ hst hIt hat => ?_⟩
      obtain ⟨hstored, hsame⟩ := hst.liveMessage hIt (List.mem_append_right _ List.mem_cons_self) rfl
      have hkept : ∀ {h' k v}, k = conversation.id → v = u →
          h₁ ++ [gateYes u conversation.userIds] ⊆ h' →
            Admitted (.sendMessage ⟨conversation.id, u, body⟩) h' t k v := by
        rintro h' k v rfl rfl hh
        exact Admitted.evolves (w := (perform i₂ (.createMessage ⟨conversation.id, v, body⟩) s₂).2)
          hadmitted hst hh
      refine ⟨⟨hstored, fun _ _ => hkept hsame.conversationId hsame.senderId ?_⟩, hat,
        ⟨hstored, hkept hsame.conversationId hsame.senderId ?_⟩, hat, trivial⟩
      · exact List.subset_append_left _ _
      · exact List.Subset.trans (List.subset_append_left _ _) (List.subset_append_left _ _)

theorem softDelete_stored {store : InMemoryMessageStore} {id : String} {at_ : Int} {m : Message}
    (h : (store.softDelete id at_).1 = .ok m) :
    ∃ m' ∈ (store.softDelete id at_).2.messages, m'.id = m.id := by
  unfold InMemoryMessageStore.softDelete at h ⊢
  cases hfind : store.findById id with
  | none =>
    rw [hfind] at h
    cases h
  | some found =>
    have hmem := List.mem_of_find?_eq_some hfind
    simp only [hfind] at h ⊢
    split at h
    · next hdeleted =>
      cases h
      rw [if_pos hdeleted]
      exact ⟨m, hmem, rfl⟩
    · next hlive =>
      cases h
      rw [if_neg hlive]
      rcases mem_mutateFirst_of_mem (p := fun m : Message => decide (m.id = id))
        (f := fun m => InMemoryMessageStore.tombstone m at_) hmem with hin | ⟨-, hin⟩
      · exact ⟨found, hin, rfl⟩
      · exact ⟨_, hin, rfl⟩

theorem gate_deleteMessage (c messageId u : String) :
    (Op.program (.deleteMessage c messageId u)).Safe adapter (asking (.deleteMessage c messageId u))
      (fun _ _ _ _ => True) i h w := by
  simp only [Op.program, deleteMessage, Proc.bind_eq_bind, Proc.bind_assoc]
  refine safe_check World.Evolves.trans id ⟨trivial, fun _ => trivial⟩ (fun _ _ _ _ => trivial)
    fun {i₁ h₁ s₁ _} _ _ _ _ _ => ?_
  simp only [Proc.request, Proc.perform, Proc.await_bind, Proc.Safe, adapter_perform, perform,
    adapter_refresh, refresh, Except.map, Proc.ofExcept_ok, Proc.ret_bind]
  refine ⟨trivial, fun s₂ i₂ hs₁₂ hI₂ ha₂ => ?_⟩
  cases hfound : Option.map s₂.liveMessage (s₁.messages.findById messageId) with
  | none => trivial
  | some message =>
    simp only
    split
    · trivial
    split
    · trivial
    split
    · trivial
    refine ⟨trivial, ha₂, trivial, fun s₃ i₃ hs₂₃ hI₃ ha₃ => ?_⟩
    have hperform : (adapter.perform i₂ (.softDelete messageId s₂.clock)
      (adapter.perform i₂ .newDate s₂).2).1 = (s₂.messages.softDelete messageId s₂.clock).1 := rfl
    rw [hperform]
    cases hdelete : (s₂.messages.softDelete messageId s₂.clock).1 with
    | error e => trivial
    | ok deleted =>
      obtain ⟨m, hm, hid⟩ := softDelete_stored hdelete
      exact ⟨⟨(World.Evolves.liveMessage hs₂₃ hI₃ hm hid).1, fun input hop => by cases hop⟩, ha₃, trivial⟩

theorem gate_program (op : Op) (ha : admissible i w = true) :
    op.program.Safe adapter (asking op) (fun _ _ _ _ => True) i h w := by
  have hadm : ∀ {j call s}, PortCall.Unawaited call → admissible j s = true →
      admissible j (perform j call s).2 = true := by
    intro j call s hcall hs
    cases call with
    | newDate | publish | notify => exact hs
    | _ => cases hcall
  have hreads : (∀ call, op.Uses call → ∀ h s, GatePre op h s call) →
      op.program.Safe adapter (asking op) (fun _ _ _ _ => True) i h w :=
    fun hpre => Proc.Safe.of_only (fun h s hcall => hpre _ hcall h s) hadm op.program_only
      op.program_onSpot ha
  cases op with
  | createConversation u ids => exact gate_createConversation u ids
  | sendMessage input => exact gate_sendMessage input
  | deleteMessage c messageId u => exact gate_deleteMessage c messageId u
  | getConversation c u =>
    refine hreads ?_
    rintro call (rfl | ⟨_, rfl⟩) <;> exact fun _ _ => trivial
  | listConversations u =>
    refine hreads ?_
    rintro call (rfl | ⟨_, rfl⟩) <;> exact fun _ _ => trivial
  | listMessages c u options =>
    refine hreads ?_
    rintro call ((rfl | ⟨_, rfl⟩) | ⟨_, rfl⟩) <;> exact fun _ _ => trivial
  | deleteConversation c u =>
    refine hreads ?_
    rintro call ((rfl | ⟨_, rfl⟩) | rfl | ⟨_, rfl⟩) <;> exact fun _ _ => trivial
  | markRead c u at_ =>
    refine hreads ?_
    rintro call ((rfl | ⟨_, rfl⟩) | rfl) <;> exact fun _ _ => trivial

end Programs

/-- The contract of the service, with the gate asked before every write. -/
def gated : Contract system :=
  contract.strengthen GatePre fun op _ _ _ ha => gate_program op ha

-- ---------------------------------------------------------------------------
-- Where everything comes from
-- ---------------------------------------------------------------------------

/-- Call `id` created the conversation, after the gate allowed its caller these
participants. -/
def CreatedBy (j : Journal ports Failure Op) (conversation : Conversation) (id : Nat) : Prop :=
  ∃ u h created, j id = some (.createConversation u conversation.userIds, h) ∧
    Precedes (gateYes u conversation.userIds)
      ⟨.createConversation conversation.userIds, .ok created⟩ h ∧ created.id = conversation.id

/-- Call `id` sent the message, after the gate allowed its sender the participants
of the message's conversation. -/
def SentBy (w : World) (j : Journal ports Failure Op) (m : Message) (id : Nat) : Prop :=
  ∃ input h conversation new created, j id = some (.sendMessage input, h) ∧
    input.senderId = m.senderId ∧ w.conversations.findById m.conversationId = some conversation ∧
    new.conversationId = m.conversationId ∧ new.senderId = m.senderId ∧
    Precedes (gateYes m.senderId conversation.userIds) ⟨.createMessage new, .ok created⟩ h ∧
    created.SameIdentity m

/-- Every conversation and every message was allowed, and only stored messages are
published and notified. -/
structure Gated (w : World) (j : Journal ports Failure Op) : Prop where
  conversations : ∀ {k conversation}, w.conversations.findById k = some conversation →
    ∃ id, CreatedBy j conversation id
  messages : ∀ m ∈ w.messages.messages, ∃ id, SentBy w j m id
  published : ∀ m ∈ w.published, ∃ m' ∈ w.messages.messages, m.SameIdentity m'
  notified : ∀ n ∈ w.notified, ∃ m' ∈ w.messages.messages, n.1.SameIdentity m'

section Gated

variable {w w' : World} {j j' : Journal ports Failure Op} {m m' : Message} {id : Nat}

theorem CreatedBy.mono {conversation conversation' : Conversation} (h : CreatedBy j conversation id)
    (hj : j.Extends j') (hid : conversation'.id = conversation.id)
    (hids : conversation'.userIds = conversation.userIds) : CreatedBy j' conversation' id := by
  obtain ⟨u, hist, created, hcall, hyes, hcreated⟩ := h
  obtain ⟨t, hcall'⟩ := hj hcall
  rw [← hids] at hcall' hyes
  exact ⟨u, hist ++ t, created, hcall', hyes.append t, hcreated.trans hid.symm⟩

theorem SentBy.mono (h : SentBy w j m id) (hw : w.Evolves w') (hj : j.Extends j')
    (hsame : m.SameIdentity m') : SentBy w' j' m' id := by
  obtain ⟨input, hist, conversation, new, created, hcall, hu, hfind, hnewc, hnewu, hyes, hcreated⟩ := h
  obtain ⟨t, hcall'⟩ := hj hcall
  obtain ⟨conversation', hfind', hids, -⟩ := hw.conversations hfind
  refine ⟨input, hist ++ t, conversation', new, created, hcall', hu.trans hsame.senderId.symm, ?_,
    hnewc.trans hsame.conversationId.symm, hnewu.trans hsame.senderId.symm, ?_, hcreated.trans hsame⟩
  · rw [hsame.conversationId]
    exact hfind'
  · rw [hsame.senderId, hids]
    exact hyes.append t

/-- A step that adds nothing but what was allowed. -/
theorem Gated.step (h : Gated w j) (hw : w.Evolves w') (hj : j.Extends j')
    (hc : ∀ {k conversation'}, w'.conversations.findById k = some conversation' →
      (∃ conversation, w.conversations.findById k = some conversation ∧
        conversation'.userIds = conversation.userIds) ∨ ∃ id, CreatedBy j' conversation' id)
    (hm : ∀ m' ∈ w'.messages.messages, (∃ m ∈ w.messages.messages, m.SameIdentity m') ∨
      ∃ id, SentBy w' j' m' id)
    (hp : ∀ m ∈ w'.published, m ∈ w.published ∨ m ∈ w'.messages.messages)
    (hn : ∀ n ∈ w'.notified, n ∈ w.notified ∨ n.1 ∈ w'.messages.messages) : Gated w' j' where
  conversations {k conversation'} hfind' := by
    rcases hc hfind' with ⟨conversation, hfind, hids⟩ | hcreated
    · obtain ⟨id, hcreated⟩ := h.conversations hfind
      have hid := (w'.conversations.keyed hfind').trans (w.conversations.keyed hfind).symm
      exact ⟨id, hcreated.mono hj hid hids⟩
    · exact hcreated
  messages m' hm' := by
    rcases hm m' hm' with ⟨m, hm, hsame⟩ | hsent
    · obtain ⟨id, hsent⟩ := h.messages m hm
      exact ⟨id, hsent.mono hw hj hsame⟩
    · exact hsent
  published m hm := by
    rcases hp m hm with hm | hm
    · obtain ⟨m₁, hm₁, hsame₁⟩ := h.published m hm
      obtain ⟨m₂, hm₂, hsame₂⟩ := hw.messages m₁ hm₁
      exact ⟨m₂, hm₂, hsame₁.trans hsame₂⟩
    · exact ⟨m, hm, rfl⟩
  notified n hn' := by
    rcases hn n hn' with hm | hm
    · obtain ⟨m₁, hm₁, hsame₁⟩ := h.notified n hm
      obtain ⟨m₂, hm₂, hsame₂⟩ := hw.messages m₁ hm₁
      exact ⟨m₂, hm₂, hsame₁.trans hsame₂⟩
    · exact ⟨n.1, hm, rfl⟩

/-- A step that leaves conversations and messages alone. -/
theorem Gated.of_stores (h : Gated w j) (hj : j.Extends j') (hclock : w.clock ≤ w'.clock)
    (hc : w'.conversations = w.conversations) (hm : w'.messages = w.messages)
    (hp : ∀ m ∈ w'.published, m ∈ w.published ∨ m ∈ w'.messages.messages)
    (hn : ∀ n ∈ w'.notified, n ∈ w.notified ∨ n.1 ∈ w'.messages.messages) : Gated w' j' := by
  refine h.step (.of_stores hclock hc hm) hj (fun hfind => .inl ⟨_, hc ▸ hfind, rfl⟩)
    (fun m' hm' => .inl ⟨m', hm ▸ hm', rfl⟩) hp hn

theorem find_updateParticipant {store : InMemoryConversationStore} {c u k : String}
    {f : ConversationParticipant → ConversationParticipant} (hf : ∀ p, (f p).userId = p.userId)
    {conversation' : Conversation}
    (h : (store.updateParticipant c u f).findById k = some conversation') :
    ∃ conversation, store.findById k = some conversation ∧
      conversation'.userIds = conversation.userIds := by
  rw [store.findById_updateParticipant] at h
  split at h
  · next hk =>
    obtain ⟨conversation, hfind, rfl⟩ := Option.map_eq_some_iff.mp h
    exact ⟨conversation, hk ▸ hfind, userIds_mutateParticipant hf⟩
  · exact ⟨conversation', h, rfl⟩

theorem mem_softDelete {store : InMemoryMessageStore} {id : String} {at_ : Int} {m' : Message}
    (h : m' ∈ (store.softDelete id at_).2.messages) : ∃ m ∈ store.messages, m.SameIdentity m' := by
  unfold InMemoryMessageStore.softDelete at h
  split at h
  · exact ⟨m', h, rfl⟩
  · split at h
    · exact ⟨m', h, rfl⟩
    · rcases mem_mutateFirst h with hm | ⟨m, hm, -, rfl⟩
      · exact ⟨m', hm, rfl⟩
      · exact ⟨m, hm, rfl⟩

/-- A request under its precondition adds nothing but what was allowed. -/
theorem Gated.perform {i : Input} {op : Op} {hist : List (ports.Event Failure)} {r : PortCall}
    (h : Gated w j) (hw : w.Timely) (ha : admissible i w = true) (hpre : gated.Pre op hist w r)
    (hj : j id = some (op, hist)) :
    Gated (perform i r w).2 (j.set id op (hist ++ [⟨r, (perform i r w).1⟩])) := by
  have hevolves := (timely_perform (h := hist) hw ha hpre.1).2
  have hext := Journal.extends_set hj [⟨r, (InMemory.perform i r w).1⟩]
  cases r with
  | canCreateConversation | findConversation | findByParticipant | findMessage | listByConversation
  | listPreviews | settled | newDate =>
    exact h.of_stores hext (le_refl _) rfl rfl (fun _ => .inl) fun _ => .inl
  | publish m =>
    refine h.of_stores hext (le_refl _) rfl rfl (fun m' hm' => ?_) fun _ => .inl
    rcases List.mem_append.mp hm' with hm' | hm'
    · exact .inl hm'
    · exact .inr (List.mem_singleton.mp hm' ▸ hpre.2.1)
  | notify m ids =>
    refine h.of_stores hext (le_refl _) rfl rfl (fun _ => .inl) fun n hn => ?_
    rcases List.mem_append.mp hn with hn | hn
    · exact .inl hn
    · exact .inr (List.mem_singleton.mp hn ▸ hpre.2.1)
  | markRead c u at_ =>
    refine h.step hevolves hext (fun hfind => .inl (find_updateParticipant (c := c) (u := u)
      (f := fun p => { p with lastReadAt := some at_ }) (fun _ => rfl) hfind))
      (fun m hm => .inl ⟨m, hm, rfl⟩) (fun _ => .inl) fun _ => .inl
  | clear c u at_ =>
    refine h.step hevolves hext (fun hfind => .inl (find_updateParticipant (c := c) (u := u)
      (f := fun p => { p with clearedAt := some at_ }) (fun _ => rfl) hfind))
      (fun m hm => .inl ⟨m, hm, rfl⟩) (fun _ => .inl) fun _ => .inl
  | createConversation ids =>
    refine h.step hevolves hext (fun {k conversation'} hfind => ?_) (fun m hm => .inl ⟨m, hm, rfl⟩)
      (fun _ => .inl) fun _ => .inl
    obtain ⟨-, u, rfl, hyes⟩ := hpre
    rw [show (InMemory.perform i (.createConversation ids) w).2.conversations.findById k = _ from
      w.conversations.findById_put _ k] at hfind
    split at hfind
    · cases hfind
      have hids : (InMemoryConversationStore.newConversation i.uuid w.clock ids).userIds = ids := by
        simp [InMemoryConversationStore.newConversation, Conversation.userIds, Function.comp_def]
      refine .inr ⟨id, u, hist ++ [⟨.createConversation ids,
        (InMemory.perform i (.createConversation ids) w).1⟩],
        InMemoryConversationStore.newConversation i.uuid w.clock ids, ?_, ?_, rfl⟩
      · rw [hids]
        exact j.set_self ..
      · rw [hids]
        exact Precedes.last hyes _
    · exact .inl ⟨conversation', hfind, rfl⟩
  | createMessage new =>
    refine h.step hevolves hext (fun hfind => .inl ⟨_, hfind, rfl⟩) (fun m hm => ?_) (fun _ => .inl)
      fun _ => .inl
    rcases List.mem_append.mp hm with hm | hm
    · exact .inl ⟨m, hm, rfl⟩
    · obtain ⟨-, input, conversation, rfl, hu, hfind, hyes⟩ := hpre
      obtain rfl := List.mem_singleton.mp hm
      exact .inr ⟨id, input, _, conversation, new, _, j.set_self .., hu, hfind, rfl, rfl,
        Precedes.last hyes _, rfl⟩
  | softDelete messageId at_ =>
    exact h.step hevolves hext (fun hfind => .inl ⟨_, hfind, rfl⟩)
      (fun m hm => .inl (mem_softDelete hm)) (fun _ => .inl) fun _ => .inl

/-- Reading the clock and calls that are made add nothing. -/
theorem Gated.same (h : Gated w j) (hj : j.Extends j') (hclock : w.clock ≤ w'.clock)
    (hc : w'.conversations = w.conversations) (hm : w'.messages = w.messages)
    (hp : w'.published = w.published) (hn : w'.notified = w.notified) : Gated w' j' :=
  h.of_stores hj hclock hc hm (fun _ h => .inl (hp ▸ h)) fun _ h => .inl (hn ▸ h)

/-- Everything is allowed, all along every run. -/
def provenance : gated.Chronicle fun _ => True where
  Holds := Gated
  tick _ hI ha h := h.same (fun _ _ _ hj => ⟨[], by rw [hj, List.append_nil]⟩)
    (timely_tick hI ha).2.clock rfl rfl rfl rfl
  arrive harr hj h := by
    cases harr
    exact h.same (Journal.extends_new hj _) (le_refl _) rfl rfl rfl rfl
  perform _ hI ha hpre hj h := h.perform hI ha hpre hj

end Gated

-- ---------------------------------------------------------------------------
-- Runs
-- ---------------------------------------------------------------------------

theorem gated_init (clock : Int) : Gated (World.init clock) fun _ => none := by
  refine ⟨fun {k conversation} h => ?_, fun m hm => ?_, fun m hm => ?_, fun n hn => ?_⟩
  · cases h
  · cases hm
  · cases hm
  · cases hn

theorem gated_runs {clock : Int} {ls : List (Label Input Op)} {c : State}
    (h : system.runs (.idle (World.init clock)) ls = some c) :
    gated.Holds c ∧ Gated c.world c.journal := by
  have hinit : gated.Holds (.idle (World.init clock) : State) := gated.holds_idle (timely_init clock)
  exact ⟨(gated.runs_holds hinit h).1,
    provenance.runs (fun _ _ => trivial) hinit (gated_init clock) h⟩

/-- The message is stored, or it was published or notified. -/
def Known (w : World) (m : Message) : Prop :=
  m ∈ w.messages.messages ∨ m ∈ w.published ∨ ∃ recipients, (m, recipients) ∈ w.notified

theorem Gated.sender {w : World} {j : Journal ports Failure Op} {m : Message} (h : Gated w j)
    (hm : Known w m) : ∃ id, SentBy w j m id := by
  have hstored : ∃ m' ∈ w.messages.messages, m.SameIdentity m' := by
    rcases hm with hm | hm | ⟨recipients, hm⟩
    · exact ⟨m, hm, rfl⟩
    · exact h.published m hm
    · exact h.notified _ hm
  obtain ⟨m', hm', hsame⟩ := hstored
  obtain ⟨id, hsent⟩ := h.messages m' hm'
  exact ⟨id, hsent.mono (.refl w) (fun _ _ _ hj => ⟨[], by rw [hj, List.append_nil]⟩) hsame.symm⟩

/-- A message that the gate allows no more was sent by a call of before. -/
theorem SentBy.began {ls : List (Label Input Op)} {c c' : State} {m : Message} {id : Nat}
    {conversation : Conversation} (hsent : SentBy c'.world c'.journal m id)
    (hfind : c'.world.conversations.findById m.conversationId = some conversation)
    (hnever : ∀ l ∈ ls, l.input.gate m.senderId conversation.userIds ≠ .ok true)
    (hc : gated.Holds c) (h : system.runs c ls = some c') : c.calls id ≠ none := by
  obtain ⟨input, hist, conversation', new, created, hcall, -, hfind', -, -, hyes, -⟩ := hsent
  cases hfind.symm.trans hfind'
  intro hnew
  refine gated.runs_silence (fun l hl s hperform => hnever l hl ?_) hc h hnew hcall hyes.mem_first
  have hgate : (l.input.gate m.senderId conversation.userIds).mapError Failure.port = .ok true := hperform
  revert hgate
  cases l.input.gate m.senderId conversation.userIds with
  | error e => exact fun h => by cases h
  | ok b => exact fun h => congrArg _ (Except.ok.inj h)

/-- What the gate allowed before the end of a run, `c₂`, and what it kept back
since `c₁`. -/
structure GateSound (c₁ : State) (ls : List (Label Input Op)) (c₂ : State) : Prop where
  created : ∀ k conversation, c₂.world.conversations.findById k = some conversation →
    ∃ id, CreatedBy c₂.journal conversation id
  sent : ∀ m, Known c₂.world m → ∃ id, SentBy c₂.world c₂.journal m id
  revoked : ∀ m id conversation, SentBy c₂.world c₂.journal m id →
    c₂.world.conversations.findById m.conversationId = some conversation →
      (∀ l ∈ ls, l.input.gate m.senderId conversation.userIds ≠ .ok true) → c₁.calls id ≠ none

theorem gateSound {clock : Int} {ls₁ ls₂ : List (Label Input Op)} {c₁ c₂ : State}
    (h₁ : system.runs (.idle (World.init clock)) ls₁ = some c₁) (h₂ : system.runs c₁ ls₂ = some c₂) :
    GateSound c₁ ls₂ c₂ := by
  obtain ⟨hholds, hgated⟩ := gated_runs h₁
  have hend := provenance.runs (fun _ _ => trivial) hholds hgated h₂
  exact ⟨fun k conversation hfind => hend.conversations hfind, fun m hm => hend.sender hm,
    fun m id conversation hsent hfind hnever => hsent.began hfind hnever hholds h₂⟩

end InMemory

end Jiffy
