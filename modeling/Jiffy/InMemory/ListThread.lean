-- SUMMARY: The list of conversations and the thread of each agree, in every state that a sequence of calls reaches.
import Jiffy.InMemory.Lifecycle
import Jiffy.InMemory.History

/-!
# List and thread

`listConversations` looks at the newest message of each conversation that is not
cleared, `listMessages` at all of them. Both say the same about what there is to
see.
-/

namespace Jiffy

open Js Async MessagingService

namespace InMemory

variable {w : World} {u : String}

-- ---------------------------------------------------------------------------
-- The previews
-- ---------------------------------------------------------------------------

/-- All that the user can see of a conversation. -/
def thread (w : World) (u : String) (conversation : Conversation) : List Message :=
  w.messages.listByConversation conversation.id (withCleared {} (clearedAtOf conversation u))

/-- The preview of a conversation is the end of its thread. -/
theorem head?_preview (w : World) (u : String) (conversation : Conversation) :
    (w.messages.listByConversation conversation.id (previewQuery u conversation).options).head? =
      (thread w u conversation).getLast? := by
  have hpage := @listByConversation_page w.messages conversation.id 1 Nat.one_pos none
    (clearedAtOf conversation u)
  have hone : (thread w u conversation).rtake 1 =
      w.messages.listByConversation conversation.id (previewQuery u conversation).options :=
    hpage.symm
  rw [← hone, List.rtake_eq_reverse_take_reverse, List.getLast?_eq_head?_reverse]
  cases (thread w u conversation).reverse <;> rfl

/-- How a conversation is listed, if it is. -/
def listing (w : World) (u : String) (conversation : Conversation) : Option Conversation :=
  if clearedAtOf conversation u = none ∨ thread w u conversation ≠ [] then
    some { conversation with lastMessage := some (thread w u conversation).getLast? }
  else
    none

theorem listed_eq (w : World) (u : String) :
    listed w u = (w.conversations.findByParticipant u).filterMap (listing w u) := by
  unfold listed withPreviews
  rw [List.filterMap_map]
  apply List.filterMap_congr
  intro conversation _
  have hhead := head?_preview w u conversation
  have hnil : (thread w u conversation).getLast? ≠ none ↔ thread w u conversation ≠ [] :=
    not_congr List.getLast?_eq_none_iff
  simp only [Function.comp, hhead, hnil, listing]
  rfl

theorem listing_id {conversation listed : Conversation} (h : listing w u conversation = some listed) :
    listed.id = conversation.id := by
  unfold listing at h
  split at h
  · cases h; rfl
  · cases h

-- ---------------------------------------------------------------------------
-- The order
-- ---------------------------------------------------------------------------

/-- The conversations that a run created, in order. -/
def createdIds (log : Log) : List String :=
  log.filterMap fun e =>
    match e.input.2, e.output with
    | .createConversation _ _, .ok (.conversation conversation) => some conversation.id
    | _, _ => none

/-- The keys of the map stand in the order of the creations. -/
def InOrder (log : Log) (w : World) : Prop :=
  w.conversations.conversations.entries.map Prod.fst = createdIds log

theorem keys_updateParticipant (store : InMemoryConversationStore) (c u : String)
    (f : ConversationParticipant → ConversationParticipant) :
    (store.updateParticipant c u f).conversations.entries.map Prod.fst =
      store.conversations.entries.map Prod.fst := by
  rw [InMemoryConversationStore.entries_updateParticipant, List.map_map]
  apply List.map_congr_left
  intro e _
  simp only [Function.comp]
  split <;> rfl

theorem InOrder.step {log : Log} {i : Input} {op : Op} {result : Except Failure Reply} {w' : World}
    (hw : InOrder log w) (h : machine.step (i, op) w = some (result, w')) :
    InOrder (log ++ [⟨w, (i, op), result, w'⟩]) w' := by
  obtain ⟨hadm, heffect⟩ := machine_step h
  have hfresh := (uuid_fresh hadm).1
  unfold InOrder createdIds at hw ⊢
  rw [List.filterMap_append, ← hw]
  generalize hafter : adapter.tick i w = t at heffect
  have hstore : w.conversations = t.conversations := hafter ▸ rfl
  rw [hstore] at hfresh ⊢
  cases heffect with
  | rejected op e asked => cases op <;> exact (List.append_nil _).symm
  | read reply hop =>
    cases op with
    | getConversation | listConversations | listMessages => exact (List.append_nil _).symm
    | _ => cases hop
  | created requesterId participantIds =>
    have hset := @OrderedMap.entries_set_of_none _ _ _ t.conversations.conversations i.uuid
      (InMemoryConversationStore.newConversation i.uuid t.clock participantIds) hfresh
    exact (congrArg (List.map Prod.fst) hset).trans (List.map_append ..)
  | sent | alreadyDeleted | tombstoned => exact (List.append_nil _).symm
  | cleared | marked => exact (keys_updateParticipant _ _ _ _).trans (List.append_nil _).symm

theorem inOrder_run {clock : Int} {log : Log} (h : machine.Run (World.init clock) log w) :
    InOrder log w := by
  have hinit : InOrder [] (World.init clock) := rfl
  exact h.inv hinit fun hw hs => hw.step hs

/-- What stays of a list stays in order. -/
theorem map_filterMap_sublist {α β γ : Type} {f : α → Option β} {key : α → γ} {key' : β → γ}
    (hf : ∀ {a b}, f a = some b → key' b = key a) (xs : List α) :
    ((xs.filterMap f).map key').Sublist (xs.map key) := by
  induction xs with
  | nil => exact .refl _
  | cons a xs ih =>
    cases ha : f a with
    | none =>
      rw [List.filterMap_cons_none ha]
      exact ih.cons _
    | some b =>
      rw [List.filterMap_cons_some ha, List.map_cons, List.map_cons, hf ha]
      exact ih.cons_cons _

theorem ids_listed (w : World) (u : String) :
    ((listed w u).map fun conversation => conversation.id).Sublist
      (w.conversations.conversations.entries.map Prod.fst) := by
  rw [listed_eq, ← InMemoryConversationStore.ids_values]
  exact (map_filterMap_sublist listing_id _).trans (List.filter_sublist.map _)

-- ---------------------------------------------------------------------------
-- Agreement
-- ---------------------------------------------------------------------------

/-- In every state that a sequence of calls reaches, the list of a user has
exactly the conversations that the user is in and either never cleared or can
see something of, each once and in the order of their creation, with the last
message of the thread. -/
theorem list_thread_agree {clock : Int} {log : Log} (h : machine.Run (World.init clock) log w)
    (u : String) :
    ∃ conversations, (∀ i, (serve i (.listConversations u) w).1 = .ok (.conversations conversations)) ∧
      (conversations.map fun conversation => conversation.id).Sublist (createdIds log) ∧
      (conversations.map fun conversation => conversation.id).Nodup ∧
      ∀ conversation, conversation ∈ conversations ↔ ∃ stored messages,
        w.conversations.findById conversation.id = some stored ∧ u ∈ stored.userIds ∧
        (∀ i, (serve i (.listMessages conversation.id u {}) w).1 = .ok (.messages messages)) ∧
        (clearedAtOf stored u = none ∨ messages ≠ []) ∧
        conversation = { stored with lastMessage := some messages.getLast? } := by
  refine ⟨listed w u, fun i => ?_, inOrder_run h ▸ ids_listed w u,
    (ids_listed w u).nodup w.conversations.conversations.nodup, fun conversation => ?_⟩
  · simp only [serve, Op.program, Proc.bind_eq_bind, Proc.pure_eq_ret, Adapter.run_map,
      run_listConversations, Except.map]
    rfl
  rw [listed_eq, List.mem_filterMap]
  constructor
  · rintro ⟨stored, hstored, hlisting⟩
    obtain ⟨hfind, hu⟩ := w.mem_findByParticipant.mp hstored
    have hid := listing_id hlisting
    unfold listing at hlisting
    split at hlisting
    · next hshown =>
      refine ⟨stored, thread w u stored, hid ▸ hfind, isParticipant_iff.mp hu, fun i => ?_, hshown,
        (Option.some.inj hlisting).symm⟩
      rw [serve_listMessages (hid ▸ hfind) hu, hid]
      rfl
    · cases hlisting
  · rintro ⟨stored, messages, hfind, hu, hmessages, hshown, heq⟩
    have hid : stored.id = conversation.id := w.conversations.keyed hfind
    have hu' := isParticipant_iff.mpr hu
    refine ⟨stored, w.mem_findByParticipant.mpr ⟨hid ▸ hfind, hu'⟩, ?_⟩
    have hthread : thread w u stored = messages := by
      have hserve := hmessages (.allowAll 0 "")
      rw [serve_listMessages hfind hu', ← hid] at hserve
      cases hserve
      rfl
    rw [listing, hthread, if_pos hshown, heq]

/-- Bob sends to Ann in one conversation, and Ann deletes both. -/
theorem list_thread_agree_cleared :
    ∃ log w conversations, machine.Run (World.init 0) log w ∧ log.length = 7 ∧
      (serve (.allowAll 9 "x") (.listConversations "ann") w).1 = .ok (.conversations conversations) ∧
      (conversations.map fun conversation => conversation.id).Sublist (createdIds log) := by
  have hrun := (Machine.Run.nil (M := machine) (s := World.init 0))
    |>.snoc (i := (.allowAll 1 "c₁", .createConversation "ann" ["ann", "bob"])) rfl
    |>.snoc (i := (.allowAll 2 "c₂", .createConversation "ann" ["ann", "bob"])) rfl
    |>.snoc (i := (.allowAll 3 "m₁", .sendMessage ⟨"c₁", "bob", "hello"⟩)) rfl
    |>.snoc (i := (.allowAll 4 "x", .deleteConversation "c₁" "ann")) rfl
    |>.snoc (i := (.allowAll 5 "x", .deleteConversation "c₂" "ann")) rfl
    |>.snoc (i := (.allowAll 6 "m₂", .sendMessage ⟨"c₂", "bob", "hello"⟩)) rfl
    |>.snoc (i := (.allowAll 7 "x", .deleteMessage "c₂" "m₂" "bob")) rfl
  obtain ⟨conversations, hlist, hsub, -⟩ := list_thread_agree hrun "ann"
  exact ⟨_, _, conversations, hrun, rfl, hlist _, hsub⟩

end InMemory

end Jiffy
