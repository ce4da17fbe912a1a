-- SUMMARY: What a client is pushed against what it would pull at that moment, over every run of one process.
import Jiffy.InMemory.History
import Jiffy.InProcess.Delivery

/-!
# Push and pull

Frames go by the participants alone; `listMessages` goes by the participants
and by the instant at which the caller cleared the conversation.
-/

namespace Jiffy

open Js Async MessagingService

theorem InMemory.mem_listMessages {w : World} {m : Message} {cleared : Option Int} :
    m ∈ w.messages.listByConversation m.conversationId (withCleared {} cleared) ↔
      m ∈ w.messages.messages ∧ ∀ t, cleared = some t → t < m.createdAt := by
  cases cleared with
  | none => simp [withCleared, InMemoryMessageStore.mem_listByConversation_unlimited]
  | some t =>
    rw [InMemoryMessageStore.mem_listByConversation_unlimited rfl]
    simp [withCleared]

namespace InProcess

variable {i : Input} {p p' : Process}

/-- What `listMessages` without options resolves with for `u`, whenever it is
called. -/
def Pulls (w : World) (c u : String) (messages : List Message) : Prop :=
  ∀ j, (InMemory.serve j (.listMessages c u {}) w).1 = .ok (.messages messages)

/-- `u` has cleared the conversation of `m` when `m` was there already. -/
def ClearedSince (w : World) (u : String) (m : Message) : Prop :=
  ∃ conversation t, w.conversations.findById m.conversationId = some conversation ∧
    clearedAtOf conversation u = some t ∧ m.createdAt ≤ t

/-- A stored message against the list of a participant. -/
theorem pulls_stored {w : World} (hw : w.Timely) {m : Message} (hm : m ∈ w.messages.messages)
    {conversation : Conversation} (hc : w.conversations.findById m.conversationId = some conversation)
    {u : String} (hu : u ∈ conversation.userIds) : ∃ messages, Pulls w m.conversationId u messages ∧
      (∀ m' ∈ messages, m'.id = m.id → m' = m) ∧ (m ∈ messages ↔ ¬ ClearedSince w u m) := by
  refine ⟨_, fun j => congrArg Prod.fst (InMemory.serve_listMessages hc (isParticipant_iff.mpr hu) {}),
    fun m' hm' hid => ?_, ?_⟩
  · exact hw.eq_of_id (InMemoryMessageStore.mem_of_mem_listByConversation hm').1 hm hid
  · rw [InMemory.mem_listMessages]
    constructor
    · rintro ⟨-, hlater⟩ ⟨conversation', t, hc', ht, hle⟩
      rw [hc] at hc'
      cases hc'
      exact absurd (hlater t ht) (not_lt.mpr hle)
    · intro hcleared
      refine ⟨hm, fun t ht => ?_⟩
      by_contra hle
      exact hcleared ⟨conversation, t, hc, ht, not_lt.mp hle⟩

/-- While time passes between any two calls, a frame on a socket of `u` carries
a message that `u` could pull at that moment as it is, or the tombstone of one
that `u` cleared away. -/
theorem pushed_is_pulled {clock : Int} {log : Log Op (Except Failure Reply)}
    (h : (machine service).Run (Process.init clock) log p)
    (hclock : ∀ e ∈ log, ∀ op, e.input.2 = .call op → e.before.world.clock < e.input.1.now) :
    ∀ log₁ e log₂, log = log₁ ++ e :: log₂ → ∀ f ∈ framesIn e, ∀ u, OpenedBy log₁ u f.socket →
      ∃ messages, Pulls e.after.world f.message.conversationId u messages ∧
        (∀ m ∈ messages, m.id = f.message.id → m = f.message) ∧
        (f.message ∈ messages ↔
          f.message.deletedAt = none ∨ ¬ ClearedSince e.after.world u f.message) := by
  suffices hevents : ∀ log₁ e log₂, log = log₁ ++ e :: log₂ →
      (∀ op, e.input.2 = .call op → e.before.world.clock < e.input.1.now) →
      ∀ f ∈ framesIn e, ∀ u, OpenedBy log₁ u f.socket →
        ∃ messages, Pulls e.after.world f.message.conversationId u messages ∧
          (∀ m ∈ messages, m.id = f.message.id → m = f.message) ∧
          (f.message ∈ messages ↔
            f.message.deletedAt = none ∨ ¬ ClearedSince e.after.world u f.message) by
    intro log₁ e log₂ hlog
    exact hevents log₁ e log₂ hlog (hclock e (by simp [hlog]))
  refine h.prefixes fun {log₁ p x out p'} hrun hs hclock f hf u hu => ?_
  obtain ⟨i, happening⟩ := x
  have hsound := sound_run service_overService hrun
  have hsound' := hsound.step service_overService hs
  rcases step_publishes service_overService hsound hs with ⟨-, hnone⟩ | hpublishes
  · rw [hnone] at hf
    cases hf
  · obtain ⟨_, op, m, conversation, rfl, rfl, hpublishes, -, hframes⟩ := hpublishes
    rw [hframes] at hf
    obtain ⟨rfl, hsocket⟩ := mem_framesOf.mp hf
    obtain ⟨-, v, hv, hopened⟩ := (mem_recipients hsound.connected).mp hsocket
    obtain rfl := hsound.connected.owner hu hopened
    have hfound : p'.world.conversations.findById f.message.conversationId = some conversation := by
      rw [hpublishes.kept]
      exact hpublishes.found
    obtain ⟨messages, hpulls, hid, hmem⟩ := pulls_stored hsound'.timely hpublishes.stored hfound hv
    refine ⟨messages, hpulls, hid, hmem.trans (or_iff_right_of_imp fun hlive => ?_).symm⟩
    -- a message that was just sent is later than every instant the stores know
    rcases hpublishes.how with hsent | hdeleted
    · rintro ⟨conversation', t, hc, ht, hle⟩
      rw [hpublishes.kept] at hc
      have hpast : t ≤ p.world.clock := hsound.timely.cleared hc ht
      rw [hsent.created] at hle
      exact absurd (hclock _ rfl) (not_lt.mpr (hle.trans hpast))
    · exact absurd hlive hdeleted.deleted

/-- Bob clears the conversation, and ann sends to it again. -/
theorem pushed_is_pulled_after_clear : ∃ log e p, (machine service).Run (Process.init 0) (log ++ [e]) p ∧
    ∃ messages, Pulls e.after.world "c" "bob" messages ∧
      (⟨"m₂", "c", "ann", "again", 5, none⟩ : Message) ∈ messages := by
  have hrun := (Machine.Run.nil (M := machine service) (s := Process.init 0))
    |>.snoc (i := (.allowAll 1 "c", .call (.createConversation "ann" ["ann", "bob"]))) rfl
    |>.snoc (i := (.allowAll 2 "x", .upgraded "bob")) rfl
    |>.snoc (i := (.allowAll 3 "m₁", .call (.sendMessage ⟨"c", "ann", "hi"⟩))) rfl
    |>.snoc (i := (.allowAll 4 "x", .call (.deleteConversation "c" "bob"))) rfl
    |>.snoc (i := (.allowAll 5 "m₂", .call (.sendMessage ⟨"c", "ann", "again"⟩))) rfl
  have hpulled := pushed_is_pulled hrun (fun e he op hop => by
    simp only [List.mem_append, List.mem_singleton, List.not_mem_nil, false_or] at he
    rcases he with ((((rfl | rfl) | rfl) | rfl) | rfl) <;> decide)
  obtain ⟨messages, hpulls, -, hmem⟩ := hpulled _ _ [] rfl
    ⟨0, ⟨"m₂", "c", "ann", "again", 5, none⟩⟩ (by decide) "bob"
    ⟨_, List.mem_cons_of_mem _ List.mem_cons_self, rfl, rfl⟩
  exact ⟨_, _, _, hrun, messages, hpulls, hmem.mpr (.inl rfl)⟩

/-- Bob clears the conversation, and ann deletes the message in it: the
tombstone goes out on bob's socket, and bob's list is empty. -/
theorem pushed_not_pulled : ∃ log e p, (machine service).Run (Process.init 0) (log ++ [e]) p ∧
    (∀ e' ∈ log ++ [e], ∀ op, e'.input.2 = .call op → e'.before.world.clock < e'.input.1.now) ∧
    OpenedBy log "bob" 0 ∧ framesIn e = [⟨0, ⟨"m", "c", "ann", "", 3, some 5⟩⟩] ∧
    Pulls e.after.world "c" "bob" [] := by
  have hrun := (Machine.Run.nil (M := machine service) (s := Process.init 0))
    |>.snoc (i := (.allowAll 1 "c", .call (.createConversation "ann" ["ann", "bob"]))) rfl
    |>.snoc (i := (.allowAll 2 "x", .upgraded "bob")) rfl
    |>.snoc (i := (.allowAll 3 "m", .call (.sendMessage ⟨"c", "ann", "hi"⟩))) rfl
    |>.snoc (i := (.allowAll 4 "x", .call (.deleteConversation "c" "bob"))) rfl
    |>.snoc (i := (.allowAll 5 "x", .call (.deleteMessage "c" "m" "ann"))) rfl
  refine ⟨_, _, _, hrun, ?_, ⟨_, List.mem_cons_of_mem _ List.mem_cons_self, rfl, rfl⟩, rfl, fun _ => rfl⟩
  intro e he op hop
  simp only [List.mem_append, List.mem_singleton, List.not_mem_nil, false_or] at he
  rcases he with ((((rfl | rfl) | rfl) | rfl) | rfl) <;> decide

end InProcess

end Jiffy
