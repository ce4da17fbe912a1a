-- SUMMARY: The messages handed to the bus, in order, rebuild the message store after every run on the in-memory adapters.
import Jiffy.InMemory.Lifecycle
import Jiffy.Lib.Changelog

/-!
# The bus log

What `publish` was given, taken by value in order, is a changelog of the
message store: a message as it was sent, and its tombstone once it is deleted.
-/

namespace Jiffy

open Js Async MessagingService Changelog

namespace InMemory

/-- The id a reader of the bus keeps messages under. -/
abbrev messageId (m : Message) : String := m.id

/-- What was published of a stored message: the message as it was sent, and the
tombstone if it is one. -/
inductive PublishedAs (m : Message) : List Message → Prop where
  | sent (hlive : m.deletedAt = none) : PublishedAs m [m]
  | deleted {live : Message} (hsame : live.SameIdentity m) (hlive : live.deletedAt = none)
    (hdeleted : m.deletedAt ≠ none) : PublishedAs m [live, m]

/-- The log and the store belong together. -/
structure Logged (w : World) : Prop where
  /-- also when only some of the conversations are read -/
  rebuilds : ∀ p : String → Bool,
    Rebuilds messageId (w.published.filter fun m => p m.conversationId)
      (w.messages.messages.filter fun m => p m.conversationId)
  published : ∀ m ∈ w.messages.messages, PublishedAs m (w.published.filter fun p => p.id = m.id)
  stored : ∀ p ∈ w.published, ∃ m ∈ w.messages.messages, m.id = p.id

variable {i : Input} {w w' : World} {op : Op} {result : Except Failure Reply} {log : Log}

theorem logged_init (clock : Int) : Logged (World.init clock) where
  rebuilds _ := rebuilds_nil
  published m hm := by cases hm
  stored m hm := by cases hm

theorem Logged.of_eq (hw : Logged w) (hm : w'.messages = w.messages)
    (hp : w'.published = w.published) : Logged w' where
  rebuilds := hm ▸ hp ▸ hw.rebuilds
  published := hm ▸ hp ▸ hw.published
  stored := hm ▸ hp ▸ hw.stored

/-- A new message goes to both. -/
theorem Logged.sent (hw : Logged w) {m : Message} (hlive : m.deletedAt = none)
    (hfresh : ∀ m' ∈ w.messages.messages, m'.id ≠ m.id)
    (hm : w'.messages = ⟨w.messages.messages ++ [m]⟩) (hp : w'.published = w.published ++ [m]) :
    Logged w' := by
  have hnone : w.published.filter (fun p => decide (p.id = m.id)) = [] := by
    rw [List.filter_eq_nil_iff]
    intro p hmem
    obtain ⟨m', hm', hid⟩ := hw.stored p hmem
    simp only [decide_eq_true_eq]
    exact fun h => hfresh m' hm' (hid.trans h)
  refine ⟨fun q => ?_, fun m' hm' => ?_, fun p hmem => ?_⟩
  · rw [hm, hp]
    simp only [List.filter_append, List.filter_cons, List.filter_nil]
    split
    · refine (hw.rebuilds q).append ?_
      intro hmem
      obtain ⟨m', hm', hid⟩ := List.mem_map.mp hmem
      exact hfresh m' (List.mem_of_mem_filter hm') hid
    · simp only [List.append_nil]
      exact hw.rebuilds q
  · rw [hm] at hm'
    rw [hp, List.filter_append]
    rcases List.mem_append.mp hm' with hm' | hm'
    · rw [List.filter_cons_of_neg (by simpa using (hfresh m' hm').symm), List.filter_nil,
        List.append_nil]
      exact hw.published m' hm'
    · rw [List.mem_singleton] at hm'
      subst hm'
      rw [hnone, List.filter_cons_of_pos (by simp), List.filter_nil]
      exact .sent hlive
  · rw [hp] at hmem
    rw [hm]
    rcases List.mem_append.mp hmem with hmem | hmem
    · obtain ⟨m', hm', hid⟩ := hw.stored p hmem
      exact ⟨m', List.mem_append_left _ hm', hid⟩
    · rw [List.mem_singleton] at hmem
      exact ⟨m, List.mem_append_right _ List.mem_cons_self, hmem ▸ rfl⟩

section Tombstone

variable {messages : List Message} {m : Message}

/-- The messages once `m` is deleted. -/
def withTombstone (messages : List Message) (m : Message) (at_ : Int) : List Message :=
  messages.map fun m' => if m'.id = m.id then InMemoryMessageStore.tombstone m at_ else m'

theorem mutateFirst_tombstone (hnodup : (messages.map messageId).Nodup) (hm : m ∈ messages) (at_ : Int) :
    mutateFirst (fun m' => m'.id = m.id) (fun m' => InMemoryMessageStore.tombstone m' at_) messages =
      withTombstone messages m at_ := by
  rw [mutateFirst_eq_map hnodup]
  apply List.map_congr_left
  intro m' hmem
  split
  · next hid => rw [List.inj_on_of_nodup_map hnodup hmem hm hid]
  · rfl

/-- A deleted message stays in its conversation. -/
theorem filter_withTombstone (hnodup : (messages.map messageId).Nodup) (hm : m ∈ messages) (at_ : Int)
    (q : String → Bool) : (withTombstone messages m at_).filter (fun m => q m.conversationId) =
      withTombstone (messages.filter fun m => q m.conversationId) m at_ := by
  unfold withTombstone
  rw [List.filter_map]
  congr 1
  apply List.filter_congr
  intro m' hmem
  simp only [Function.comp]
  split
  · next hid =>
    rw [List.inj_on_of_nodup_map hnodup hmem hm hid]
    rfl
  · rfl

theorem withTombstone_of_not_mem (hm : ∀ m' ∈ messages, m'.id ≠ m.id) (at_ : Int) :
    withTombstone messages m at_ = messages :=
  (List.map_congr_left fun m' hm' => if_neg (hm m' hm')).trans (List.map_id' _)

theorem mem_withTombstone_of_mem {m' : Message} (hm' : m' ∈ messages) (at_ : Int) :
    ∃ m₁ ∈ withTombstone messages m at_, m₁.id = m'.id := by
  refine ⟨_, List.mem_map_of_mem hm', ?_⟩
  split
  · next hid => exact hid.symm
  · rfl

end Tombstone

/-- A tombstone takes the place of its message in both. -/
theorem Logged.tombstoned (hw : Logged w) {m : Message} (hm : m ∈ w.messages.messages)
    (hlive : m.deletedAt = none) {at_ : Int}
    (hm' : w'.messages = ⟨mutateFirst (fun m' => m'.id = m.id)
      (fun m' => InMemoryMessageStore.tombstone m' at_) w.messages.messages⟩)
    (hp : w'.published = w.published ++ [InMemoryMessageStore.tombstone m at_]) : Logged w' := by
  have hnodup : (w.messages.messages.map messageId).Nodup := by
    simpa using (hw.rebuilds fun _ => true).keys
  have heq : w'.messages.messages = withTombstone w.messages.messages m at_ := by
    rw [hm', mutateFirst_tombstone hnodup hm]
  refine ⟨fun q => ?_, fun m' hmem => ?_, fun p hmem => ?_⟩
  · rw [heq, filter_withTombstone hnodup hm, hp, List.filter_append]
    by_cases hq : q m.conversationId = true
    · rw [List.filter_cons_of_pos (by exact hq), List.filter_nil]
      exact (hw.rebuilds q).replace (List.mem_filter.mpr ⟨hm, hq⟩) rfl
    · rw [List.filter_cons_of_neg (by exact hq), List.filter_nil, List.append_nil,
        withTombstone_of_not_mem]
      · exact hw.rebuilds q
      · intro m' hmem hid
        obtain ⟨hmem, hq'⟩ := List.mem_filter.mp hmem
        rw [List.inj_on_of_nodup_map hnodup hmem hm hid] at hq'
        exact hq hq'
  · rw [heq] at hmem
    obtain ⟨m₀, hm₀, rfl⟩ := List.mem_map.mp hmem
    rw [hp, List.filter_append]
    by_cases hid : m₀.id = m.id
    · obtain rfl := List.inj_on_of_nodup_map hnodup hm₀ hm hid
      have hbefore := hw.published m₀ hm
      generalize hlist : w.published.filter (fun p => decide (p.id = m₀.id)) = list at hbefore
      cases hbefore with
      | sent =>
        simp only [if_true, InMemoryMessageStore.tombstone] at hlist ⊢
        rw [hlist, List.filter_cons_of_pos (by simp), List.filter_nil]
        exact .deleted rfl hlive (by simp)
      | deleted _ _ hdeleted => exact absurd hlive hdeleted
    · rw [if_neg hid, List.filter_cons_of_neg (by
        simp [InMemoryMessageStore.tombstone, Ne.symm hid]), List.filter_nil, List.append_nil]
      exact hw.published m₀ hm₀
  · rw [hp] at hmem
    rw [heq]
    rcases List.mem_append.mp hmem with hmem | hmem
    · obtain ⟨m₀, hm₀, hid⟩ := hw.stored p hmem
      obtain ⟨m₁, hm₁, hid₁⟩ := mem_withTombstone_of_mem (m := m) hm₀ at_
      exact ⟨m₁, hm₁, hid₁.trans hid⟩
    · rw [List.mem_singleton] at hmem
      subst hmem
      exact mem_withTombstone_of_mem hm at_

theorem Logged.step (hw : Logged w) (h : machine.step (i, op) w = some (result, w')) :
    Logged w' := by
  obtain ⟨hadm, heffect⟩ := machine_step h
  have hfresh := (uuid_fresh hadm).2
  replace hw : Logged (adapter.tick i w) := hw.of_eq rfl rfl
  cases heffect with
  | rejected | read | created | alreadyDeleted | cleared | marked => exact hw.of_eq rfl rfl
  | @sent input conversation =>
    exact hw.sent (m := InMemory.sent i _ conversation.id input) rfl hfresh rfl rfl
  | tombstoned hm hd => exact hw.tombstoned (List.mem_of_find?_eq_some hm) hd rfl rfl

theorem logged_run {clock : Int} (h : machine.Run (World.init clock) log w) : Logged w :=
  h.inv (I := fun _ w => Logged w) (logged_init clock) fun hw hs => hw.step hs

/-- A call that publishes stores a new message or turns a live one into its
tombstone, and publishes what it resolves with. -/
theorem Effect.published (h : Effect i w op result w') : w'.published = w.published ∨
    ∃ m, result = .ok (.message m) ∧ w'.published = w.published ++ [m] ∧
      ((∃ input, op = .sendMessage input) ∨ ∃ live, w.messages.findById m.id = some live ∧
        live.deletedAt = none ∧ op = .deleteMessage live.conversationId live.id live.senderId) := by
  cases h with
  | rejected | read | created | alreadyDeleted | cleared | marked => exact .inl rfl
  | @sent input conversation => exact .inr ⟨_, rfl, rfl, .inl ⟨input, rfl⟩⟩
  | @tombstoned message hm hd => exact .inr ⟨_, rfl, rfl, .inr ⟨message, hm, hd, rfl⟩⟩

/-- After every run, a reader who keeps the latest published message of each id
holds the messages of each conversation, in the order they were sent. Each was
published once as it was sent and, if it is deleted, once more as its
tombstone, and a delete that fails or finds a tombstone publishes nothing. -/
theorem published_rebuilds_store {clock : Int} (h : machine.Run (World.init clock) log w) :
    (∀ c, (replay messageId (w.published.filter fun m => m.conversationId = c)).values =
      w.messages.messages.filter fun m => m.conversationId = c) ∧
      (replay messageId w.published).values = w.messages.messages ∧
      (∀ m ∈ w.messages.messages, PublishedAs m (w.published.filter fun p => p.id = m.id)) ∧
      (∀ p ∈ w.published, ∃ m ∈ w.messages.messages, m.id = p.id) ∧
      ∀ e ∈ log, ∀ c id u, e.input.2 = .deleteMessage c id u →
        (∃ error, e.output = .error error) ∨
          (∃ m, e.before.messages.findById id = some m ∧ m.deletedAt ≠ none) →
        e.after.published = e.before.published := by
  have hw := logged_run h
  refine ⟨fun c => (hw.rebuilds fun c' => decide (c' = c)).values, ?_, hw.published, hw.stored, ?_⟩
  · simpa using (hw.rebuilds fun _ => true).values
  · refine h.events fun {es t x o t'} _ hs c id u hop hcase => ?_
    obtain ⟨-, heffect⟩ := machine_step hs
    rcases heffect.published with hsame | ⟨m, hresult, -, ⟨input, hsend⟩ | ⟨live, hfind, hlive, hdelete⟩⟩
    · exact hsame
    · rw [hsend] at hop
      cases hop
    · rw [hdelete] at hop
      cases hop
      rcases hcase with ⟨e, he⟩ | ⟨m', hm', hdeleted⟩
      · rw [hresult] at he
        cases he
      · have hid := InMemoryMessageStore.findById_id hfind
        have hsame : t.messages.findById live.id = some live := hid ▸ hfind
        rw [hsame] at hm'
        cases hm'
        exact absurd hlive hdeleted

/-- Two messages are sent and one of them is deleted, twice. -/
theorem published_rebuilds_store_deleted_twice :
    ∃ log w, machine.Run (World.init 0) log w ∧ w.published.length = 3 ∧
      (replay messageId w.published).values = w.messages.messages := by
  have hrun := (Machine.Run.nil (M := machine) (s := World.init 0))
    |>.snoc (i := (.allowAll 1 "c", .createConversation "ann" ["ann", "bob"])) rfl
    |>.snoc (i := (.allowAll 2 "m₁", .sendMessage ⟨"c", "ann", "hello"⟩)) rfl
    |>.snoc (i := (.allowAll 3 "m₂", .sendMessage ⟨"c", "bob", "hi"⟩)) rfl
    |>.snoc (i := (.allowAll 4 "x", .deleteMessage "c" "m₁" "ann")) rfl
    |>.snoc (i := (.allowAll 5 "x", .deleteMessage "c" "m₁" "ann")) rfl
  exact ⟨_, _, hrun, rfl, (published_rebuilds_store hrun).2.1⟩

end InMemory

end Jiffy
