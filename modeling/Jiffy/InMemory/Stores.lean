-- SUMMARY: How each update of the in-memory stores reads back: participant records, tombstones and appended messages.
import Jiffy.Adapters.InMemory

/-!
# Reading the stores back

Every write of the two stores as an equation about what is found afterwards.
A write to a participant record reaches one record of one conversation; a
tombstone reaches one message.
-/

namespace Jiffy

open Js

-- ---------------------------------------------------------------------------
-- Participant records
-- ---------------------------------------------------------------------------

/-- The conversation after `f` mutated the record of one user. -/
def Conversation.mutateParticipant (conversation : Conversation) (userId : String)
    (f : ConversationParticipant → ConversationParticipant) : Conversation :=
  { conversation with
    participants := mutateFirst (fun p => p.userId = userId) f conversation.participants }

section MutateParticipant

variable {conversation : Conversation} {u v : String}
  {f : ConversationParticipant → ConversationParticipant}

theorem mutateParticipant_of_none (h : participantOf conversation u = none) :
    conversation.mutateParticipant u f = conversation := by
  have hnone : ∀ p ∈ conversation.participants, ¬ (decide (p.userId = u)) = true := by
    simpa [participantOf] using h
  rw [Conversation.mutateParticipant, mutateFirst_eq_self hnone]

theorem participantOf_mutateParticipant (hf : ∀ p, (f p).userId = p.userId) :
    participantOf (conversation.mutateParticipant u f) v =
      if v = u then (participantOf conversation u).map f else participantOf conversation v := by
  by_cases h : v = u
  · subst h
    rw [if_pos rfl]
    exact find?_mutateFirst (by simp [hf]) _
  · rw [if_neg h]
    apply find?_mutateFirst_of_disjoint
    · simp only [decide_eq_true_eq, decide_eq_false_iff_not]
      rintro p rfl
      exact fun hp => h hp.symm
    · simp only [decide_eq_true_eq, decide_eq_false_iff_not, hf]
      rintro p rfl
      exact fun hp => h hp.symm

theorem userIds_mutateParticipant (hf : ∀ p, (f p).userId = p.userId) :
    (conversation.mutateParticipant u f).userIds = conversation.userIds :=
  map_mutateFirst _ (fun p _ => hf p) _

theorem isParticipant_mutateParticipant (hf : ∀ p, (f p).userId = p.userId) :
    isParticipant (conversation.mutateParticipant u f) v = isParticipant conversation v := by
  rw [Bool.eq_iff_iff, isParticipant_iff, isParticipant_iff, userIds_mutateParticipant hf]

end MutateParticipant

namespace InMemoryConversationStore

variable (store : InMemoryConversationStore) (c u : String)

/-- The entry of conversation `c` is mutated, every other entry stays. -/
theorem entries_updateParticipant (f : ConversationParticipant → ConversationParticipant) :
    (store.updateParticipant c u f).conversations.entries =
      store.conversations.entries.map fun e =>
        if e.1 = c then (e.1, e.2.mutateParticipant u f) else e := by
  have hself : (∀ e ∈ store.conversations.entries,
      (if e.1 = c then (e.1, e.2.mutateParticipant u f) else e) = e) →
      store.conversations.entries = store.conversations.entries.map fun e =>
        if e.1 = c then (e.1, e.2.mutateParticipant u f) else e := fun h =>
    ((List.map_congr_left h).trans (List.map_id' _)).symm
  unfold updateParticipant
  cases hc : store.conversations.get c with
  | none =>
    apply hself
    intro e he
    have hne : e.1 ≠ c := fun h => OrderedMap.get_eq_none_iff.mp hc (h ▸ List.mem_map_of_mem he)
    rw [if_neg hne]
  | some conversation =>
    have hentry : ∀ e ∈ store.conversations.entries, e.1 = c → e = (c, conversation) := by
      rintro ⟨k, v⟩ he rfl
      have hget := OrderedMap.get_of_mem_entries he
      rw [hc] at hget
      cases hget
      rfl
    simp only
    cases hp : participantOf conversation u with
    | none =>
      apply hself
      intro e he
      split
      · next h => rw [hentry e he h, mutateParticipant_of_none hp]
      · rfl
    | some p =>
      obtain rfl := store.keyed hc
      refine (OrderedMap.entries_set_of_some hc).trans ?_
      apply List.map_congr_left
      intro e he
      split
      · next h => rw [hentry e he h]; rfl
      · rfl

theorem findById_updateParticipant (f : ConversationParticipant → ConversationParticipant)
    (id : String) : (store.updateParticipant c u f).findById id =
      if id = c then (store.findById c).map fun x => x.mutateParticipant u f
      else store.findById id := by
  simp only [findById, OrderedMap.get, entries_updateParticipant, List.find?_map]
  have hkey : ((fun e : String × Conversation => decide (e.1 = id)) ∘ fun e =>
      if e.1 = c then (e.1, e.2.mutateParticipant u f) else e) = fun e => decide (e.1 = id) := by
    funext e
    simp only [Function.comp]
    split <;> rfl
  rw [hkey]
  by_cases h : id = c
  · subst h
    cases hfind : store.conversations.entries.find? fun e => decide (e.1 = id) with
    | none => simp
    | some e =>
      have he : e.1 = id := by simpa using List.find?_some hfind
      simp [he]
  · cases hfind : store.conversations.entries.find? fun e => decide (e.1 = id) with
    | none => simp [h]
    | some e =>
      have he : e.1 = id := by simpa using List.find?_some hfind
      simp [h, he]

theorem findById_put (conversation : Conversation) (id : String) :
    (store.put conversation).findById id =
      if id = conversation.id then some conversation else store.findById id :=
  OrderedMap.get_set _ _ _ _

/-- The ids of the stored conversations are the keys. -/
theorem ids_values (store : InMemoryConversationStore) :
    store.conversations.values.map (fun conversation => conversation.id) =
      store.conversations.entries.map Prod.fst := by
  unfold OrderedMap.values
  rw [List.map_map]
  apply List.map_congr_left
  rintro ⟨k, conversation⟩ he
  exact store.keyed (OrderedMap.get_of_mem_entries he)

theorem nodup_ids (store : InMemoryConversationStore) :
    (store.conversations.values.map fun conversation => conversation.id).Nodup := by
  rw [store.ids_values]
  exact store.conversations.nodup

end InMemoryConversationStore

namespace InMemoryMessageStore

variable {store : InMemoryMessageStore} {conversationId : String} {options : ListMessagesOptions}
  {m : Message}

theorem findById_id {id : String} (h : store.findById id = some m) : m.id = id := by
  simpa using List.find?_some h

/-- The messages the options admit, before the limit is applied. -/
theorem mem_listByConversation_unlimited (hlimit : options.limit = none) :
    m ∈ store.listByConversation conversationId options ↔
      m ∈ store.messages ∧ m.conversationId = conversationId ∧
      (∀ before, options.before = some before → (Date.of m.createdAt).before before = true) ∧
      (∀ after, options.after = some after → after.before (Date.of m.createdAt) = true) := by
  simp only [listByConversation, hlimit]
  cases options.before <;> cases options.after <;> simp <;> tauto

/-- A limit only shortens the list. -/
theorem listByConversation_sublist : (store.listByConversation conversationId options).Sublist
    (store.listByConversation conversationId { options with limit := none }) := by
  simp only [listByConversation]
  cases options.limit with
  | none => exact .refl _
  | some limit => exact slice_sublist _ _

theorem mem_of_mem_listByConversation (h : m ∈ store.listByConversation conversationId options) :
    m ∈ store.messages ∧ m.conversationId = conversationId ∧
      ∀ after, options.after = some after → after.before (Date.of m.createdAt) = true := by
  obtain ⟨hm, hc, -, hafter⟩ :=
    (mem_listByConversation_unlimited rfl).mp (listByConversation_sublist.subset h)
  exact ⟨hm, hc, hafter⟩

/-- A positive limit keeps the newest messages. -/
theorem listByConversation_limit {n : Nat} (hn : 0 < n) :
    store.listByConversation conversationId { options with limit := some (.finite n) } =
      (store.listByConversation conversationId { options with limit := none }).rtake n :=
  slice_neg_count _ hn

/-- The newest message is there when any is. -/
theorem listByConversation_one_ne_nil
    (h : m ∈ store.listByConversation conversationId { options with limit := none }) :
    store.listByConversation conversationId { options with limit := some (.finite 1) } ≠ [] := by
  have hlimit := @listByConversation_limit store conversationId options 1 Nat.one_pos
  rw [Nat.cast_one] at hlimit
  rw [hlimit, List.rtake_eq_reverse_take_reverse]
  intro hnil
  simp only [List.reverse_eq_nil_iff, List.take_eq_nil_iff] at hnil
  rcases hnil with hnil | hnil
  · cases hnil
  · rw [hnil] at h
    cases h

theorem ids_tombstone (p : Message → Bool) (at_ : Int) (messages : List Message) :
    (mutateFirst p (fun m => tombstone m at_) messages).map (fun m => m.id) =
      messages.map fun m => m.id := by
  apply map_mutateFirst
  intro m _
  rfl

end InMemoryMessageStore

-- ---------------------------------------------------------------------------
-- References
-- ---------------------------------------------------------------------------

namespace World

variable (w : World)

@[simp] theorem liveMessage_id (m : Message) : (w.liveMessage m).id = m.id := by
  rw [liveMessage]
  cases h : w.messages.findById m.id with
  | none => rfl
  | some m' => exact InMemoryMessageStore.findById_id h

@[simp] theorem liveConversation_id (conversation : Conversation) :
    (w.liveConversation conversation).id = conversation.id := by
  rw [liveConversation]
  cases h : w.conversations.findById conversation.id with
  | none => rfl
  | some conversation' => exact w.conversations.keyed h

theorem mem_findByParticipant {conversation : Conversation} {u : String} :
    conversation ∈ w.conversations.findByParticipant u ↔
      w.conversations.findById conversation.id = some conversation ∧
        isParticipant conversation u = true := by
  simp only [InMemoryConversationStore.findByParticipant, List.mem_filter,
    OrderedMap.mem_values_iff, InMemoryConversationStore.findById]
  constructor
  · rintro ⟨⟨k, hk⟩, hu⟩
    obtain rfl := w.conversations.keyed hk
    exact ⟨hk, hu⟩
  · rintro ⟨hc, hu⟩
    exact ⟨⟨_, hc⟩, hu⟩

/-- The record of `u` in conversation `c`. -/
def participant (c u : String) : Option ConversationParticipant :=
  (w.conversations.findById c).bind fun conversation => participantOf conversation u

theorem participant_updateParticipant {c c' u u' : String}
    {f : ConversationParticipant → ConversationParticipant}
    (hf : ∀ p, (f p).userId = p.userId) :
    { w with conversations := w.conversations.updateParticipant c' u' f }.participant c u =
      if c = c' ∧ u = u' then (w.participant c u).map f else w.participant c u := by
  simp only [participant, InMemoryConversationStore.findById_updateParticipant]
  by_cases hc : c = c'
  · subst hc
    rw [if_pos rfl]
    cases w.conversations.findById c with
    | none => simp
    | some conversation =>
      simp only [Option.map_some, Option.bind_some, participantOf_mutateParticipant hf]
      by_cases hu : u = u'
      · subst hu
        simp
      · simp [hu]
  · simp [hc]

end World

end Jiffy
