-- SUMMARY: No information flows between conversations: a run without the calls on foreign conversations gives a user the same results.
import Jiffy.InMemory.Authorization
import Jiffy.InMemory.Lifecycle

/-!
# Isolation between conversations

All conversations share one map and all messages one array. For one user, the
stores of a run and of the run without the calls on other people's conversations
differ exactly by what lies in those conversations.
-/

namespace Jiffy

open Js Async MessagingService

namespace World

/-- Whether `u` is in conversation `c`. -/
def sees (w : World) (u c : String) : Bool :=
  (w.conversations.findById c).any fun conversation => isParticipant conversation u

end World

namespace InMemory

/-- `v` is what `u`'s conversations make up of `w`. -/
structure Restricts (u : String) (w v : World) : Prop where
  conversations : v.conversations.conversations.entries =
    w.conversations.conversations.entries.filter fun e => isParticipant e.2 u
  messages : v.messages.messages = w.messages.messages.filter fun m => w.sees u m.conversationId

section Restricts

variable {u : String} {w v : World} {i : Input}

theorem Restricts.findConversation (h : Restricts u w v) (c : String) :
    v.conversations.findById c =
      (w.conversations.findById c).filter fun conversation => isParticipant conversation u :=
  OrderedMap.get_of_entries_filter h.conversations c

/-- A conversation that `u` is in is the same on both sides. -/
theorem Restricts.findConversation_of_sees (h : Restricts u w v) {c : String}
    (hc : w.sees u c = true) : v.conversations.findById c = w.conversations.findById c := by
  obtain ⟨conversation, hfind, hu⟩ := (Option.any_eq_true _ _).mp hc
  rw [h.findConversation, hfind, Option.filter_some, if_pos hu]

theorem Restricts.requireParticipant (h : Restricts u w v) {c : String} (hc : w.sees u c = true)
    (x : String) : v.requireParticipant c x = w.requireParticipant c x := by
  rw [World.requireParticipant, World.requireParticipant, h.findConversation_of_sees hc]

/-- So is its history. -/
theorem Restricts.listByConversation (h : Restricts u w v) {c : String} (hc : w.sees u c = true)
    (options : ListMessagesOptions) :
    v.messages.listByConversation c options = w.messages.listByConversation c options := by
  have hfilter : (v.messages.messages.filter fun m => m.conversationId = c) =
      w.messages.messages.filter fun m => m.conversationId = c := by
    rw [h.messages, List.filter_filter]
    apply List.filter_congr
    intro m _
    by_cases hm : m.conversationId = c
    · simp [hm, hc]
    · simp [hm]
  rw [InMemoryMessageStore.listByConversation, InMemoryMessageStore.listByConversation, hfilter]

/-- A message is found on the right when it is in a conversation of `u`. -/
theorem Restricts.findMessage (h : Restricts u w v)
    (hids : (w.messages.messages.map fun m => m.id).Nodup) (id : String) :
    v.messages.findById id = (w.messages.findById id).filter fun m => w.sees u m.conversationId := by
  rw [InMemoryMessageStore.findById, h.messages]
  exact find?_filter_of_nodup hids _ _

theorem Restricts.listed (h : Restricts u w v) : listed v u = listed w u := by
  have hfind : v.conversations.findByParticipant u = w.conversations.findByParticipant u := by
    simp only [InMemoryConversationStore.findByParticipant, OrderedMap.values, h.conversations,
      List.filter_map, List.filter_filter]
    congr 1
    apply List.filter_congr
    simp
  rw [InMemory.listed, InMemory.listed, hfind]
  congr 1
  apply List.map_congr_left
  intro conversation hmem
  obtain ⟨hc, hu⟩ := (World.mem_findByParticipant w).mp hmem
  have hsees : w.sees u conversation.id = true := by rw [World.sees, hc]; exact hu
  simp only [h.listByConversation hsees]

-- ---------------------------------------------------------------------------
-- Writes
-- ---------------------------------------------------------------------------

theorem sees_updateParticipant {c c' x : String}
    {f : ConversationParticipant → ConversationParticipant} (hid : ∀ p, (f p).userId = p.userId) :
    { w with conversations := w.conversations.updateParticipant c' x f }.sees u c = w.sees u c := by
  simp only [World.sees, InMemoryConversationStore.findById_updateParticipant]
  split
  · next hc =>
    subst hc
    cases w.conversations.findById c with
    | none => rfl
    | some conversation => exact isParticipant_mutateParticipant hid
  · rfl

/-- A write to a participant record, on both sides. -/
theorem Restricts.updateParticipant (h : Restricts u w v) (c x : String)
    {f : ConversationParticipant → ConversationParticipant} (hid : ∀ p, (f p).userId = p.userId) :
    Restricts u { w with conversations := w.conversations.updateParticipant c x f }
      { v with conversations := v.conversations.updateParticipant c x f } where
  conversations := by
    rw [InMemoryConversationStore.entries_updateParticipant,
      InMemoryConversationStore.entries_updateParticipant, h.conversations, List.filter_map]
    congr 1
    apply List.filter_congr
    intro e _
    simp only [Function.comp]
    split
    · exact (isParticipant_mutateParticipant hid).symm
    · rfl
  messages := h.messages.trans (by simp only [sees_updateParticipant hid])

/-- A write to a record of a conversation that `u` is not in. -/
theorem Restricts.updateParticipant_unseen (h : Restricts u w v) {c : String}
    (hc : w.sees u c = false) (x : String)
    {f : ConversationParticipant → ConversationParticipant} (hid : ∀ p, (f p).userId = p.userId) :
    Restricts u { w with conversations := w.conversations.updateParticipant c x f } v := by
  have hnone : v.conversations.findById c = none := by
    rw [h.findConversation]
    rw [World.sees] at hc
    cases hfind : w.conversations.findById c with
    | none => rfl
    | some conversation =>
      rw [hfind, Option.any_some] at hc
      rw [Option.filter_some, hc]
      rfl
  have hsame : v.conversations.updateParticipant c x f = v.conversations := by
    rw [InMemoryConversationStore.updateParticipant,
      show v.conversations.conversations.get c = none from hnone]
  have hboth := h.updateParticipant c x hid
  rw [hsame] at hboth
  exact hboth

/-- Only the stores matter. -/
theorem Restricts.congr {w' v' : World} (h : Restricts u w v)
    (hwc : w'.conversations = w.conversations) (hwm : w'.messages = w.messages)
    (hvc : v'.conversations = v.conversations) (hvm : v'.messages = v.messages) :
    Restricts u w' v' where
  conversations := by rw [hwc, hvc]; exact h.conversations
  messages := by simp only [World.sees, hwc, hwm, hvm]; exact h.messages

/-- A new conversation, which no message lies in yet. -/
theorem Restricts.put (h : Restricts u w v) (conversation : Conversation)
    (hfresh : w.conversations.findById conversation.id = none)
    (hmember : ∀ m ∈ w.messages.messages, m.conversationId ≠ conversation.id) :
    Restricts u { w with conversations := w.conversations.put conversation }
      (if isParticipant conversation u then
        { v with conversations := v.conversations.put conversation } else v) := by
  have hnone : v.conversations.findById conversation.id = none := by
    rw [h.findConversation, hfresh]
    rfl
  have hsees : (w.messages.messages.filter fun m => w.sees u m.conversationId) =
      w.messages.messages.filter fun m =>
        { w with conversations := w.conversations.put conversation }.sees u m.conversationId := by
    apply List.filter_congr
    intro m hm
    simp only [World.sees, InMemoryConversationStore.findById_put, if_neg (hmember m hm)]
  have hw : ({ w with conversations := w.conversations.put conversation } :
      World).conversations.conversations.entries =
      w.conversations.conversations.entries ++ [(conversation.id, conversation)] :=
    OrderedMap.entries_set_of_none hfresh
  by_cases hu : isParticipant conversation u = true
  · rw [if_pos hu]
    refine ⟨?_, h.messages.trans hsees⟩
    rw [hw, List.filter_append, ← h.conversations]
    simp only [hu, List.filter_cons_of_pos, List.filter_nil]
    exact OrderedMap.entries_set_of_none hnone
  · rw [if_neg hu]
    refine ⟨?_, h.messages.trans hsees⟩
    rw [hw, List.filter_append, ← h.conversations]
    simp [hu]

theorem Restricts.append (h : Restricts u w v) (m : Message) :
    Restricts u { w with messages := ⟨w.messages.messages ++ [m]⟩ }
      (if w.sees u m.conversationId then { v with messages := ⟨v.messages.messages ++ [m]⟩ }
      else v) := by
  by_cases hm : w.sees u m.conversationId = true
  · rw [if_pos hm]
    refine ⟨h.conversations, ?_⟩
    change v.messages.messages ++ [m] =
      (w.messages.messages ++ [m]).filter fun m => w.sees u m.conversationId
    rw [List.filter_append, ← h.messages]
    simp [hm]
  · rw [if_neg hm]
    refine ⟨h.conversations, ?_⟩
    change v.messages.messages =
      (w.messages.messages ++ [m]).filter fun m => w.sees u m.conversationId
    rw [List.filter_append, ← h.messages]
    simp [hm]

theorem Restricts.tombstone (h : Restricts u w v) {m : Message} {id : String}
    (hm : w.messages.findById id = some m) (t : Int) :
    Restricts u
      { w with messages := ⟨mutateFirst (fun m => m.id = id)
        (fun m => InMemoryMessageStore.tombstone m t) w.messages.messages⟩ }
      (if w.sees u m.conversationId then
        { v with messages := ⟨mutateFirst (fun m => m.id = id)
          (fun m => InMemoryMessageStore.tombstone m t) v.messages.messages⟩ }
      else v) := by
  by_cases hu : w.sees u m.conversationId = true
  · rw [if_pos hu]
    refine ⟨h.conversations, ?_⟩
    have hfilter := filter_mutateFirst (q := fun m => w.sees u m.conversationId)
      (f := fun m => InMemoryMessageStore.tombstone m t) (fun _ => rfl) hm hu
    rw [← h.messages] at hfilter
    exact hfilter.symm
  · rw [if_neg hu]
    refine ⟨h.conversations, h.messages.trans ?_⟩
    exact (filter_mutateFirst_of_dropped (q := fun m => w.sees u m.conversationId)
      (f := fun m => InMemoryMessageStore.tombstone m t) (fun _ => rfl) hm (by simpa using hu)).symm

end Restricts

-- ---------------------------------------------------------------------------
-- Steps
-- ---------------------------------------------------------------------------

/-- The calls that stay in `u`'s run: creations of conversations with `u`, lists
of conversations, and what names a conversation that `u` is in. -/
def keepsFor (u : String) (w : World) (x : Input × Op) : Bool :=
  match x.2 with
  | .createConversation _ participantIds => participantIds.contains u
  | op => match op.target with
    | some (c, _) => w.sees u c
    | none => true

section Steps

variable {u : String} {w v : World} {i : Input}

theorem isParticipant_newConversation {uuid : String} {now : Int} {participantIds : List String} :
    isParticipant (InMemoryConversationStore.newConversation uuid now participantIds) u =
      participantIds.contains u := by
  rw [Bool.eq_iff_iff, isParticipant_iff]
  simp [Conversation.userIds, InMemoryConversationStore.newConversation]

/-- A deletion in a conversation that `u` sees finds the same on both sides. -/
theorem Restricts.deletion (h : Restricts u w v)
    (hids : (w.messages.messages.map fun m => m.id).Nodup) (hclock : v.clock = w.clock)
    {c x : String} (messageId : String) (hc : w.sees u c = true) :
    (adapter.run i (Op.program (.deleteMessage c messageId x)) v).1 =
        (adapter.run i (Op.program (.deleteMessage c messageId x)) w).1 ∧
      Restricts u (adapter.run i (Op.program (.deleteMessage c messageId x)) w).2
        (adapter.run i (Op.program (.deleteMessage c messageId x)) v).2 := by
  have hreq := h.requireParticipant hc x
  simp only [Op.program, Proc.bind_eq_bind, Proc.pure_eq_ret, Adapter.run_map, run_deleteMessage,
    hreq, h.findMessage hids, hclock]
  cases w.requireParticipant c x with
  | error e => exact ⟨rfl, h⟩
  | ok _ =>
    simp only
    cases hfound : w.messages.findById messageId with
    | none => exact ⟨rfl, h⟩
    | some message =>
      by_cases hm : message.conversationId = c
      · have hsees : w.sees u message.conversationId = true := hm ▸ hc
        have htombstone := h.tombstone hfound w.clock
        rw [if_pos hsees] at htombstone
        simp only [Option.filter_some, hc, if_true, hm, ne_eq, not_true_eq_false, if_false]
        by_cases hsender : message.senderId = x
        · by_cases hdeleted : message.deletedAt = none
          · simp only [hsender, hdeleted, not_true_eq_false, if_false]
            exact ⟨trivial, htombstone.congr rfl rfl rfl rfl⟩
          · simp only [hsender, hdeleted, not_true_eq_false, not_false_iff, if_false, if_true]
            exact ⟨trivial, h⟩
        · simp only [hsender, not_false_iff, if_true]
          exact ⟨trivial, h⟩
      · -- A message of another conversation is missing on the left, and may be gone on the right.
        by_cases hsees : w.sees u message.conversationId = true
        · simp only [Option.filter_some, hsees, if_true, ne_eq, hm, not_false_iff]
          exact ⟨trivial, h⟩
        · simp only [Option.filter_some, hsees, Bool.false_eq_true, if_false, if_true, ne_eq, hm,
            not_false_iff]
          exact ⟨trivial, h⟩

/-- A call in a conversation of `u` goes the same way on both sides. -/
theorem Restricts.run_target (h : Restricts u w v)
    (hids : (w.messages.messages.map fun m => m.id).Nodup) (hclock : v.clock = w.clock) {op : Op}
    {c x : String} (hop : op.target = some (c, x)) (hc : w.sees u c = true) :
    (adapter.run i op.program v).1 = (adapter.run i op.program w).1 ∧
      Restricts u (adapter.run i op.program w).2 (adapter.run i op.program v).2 := by
  have hreq := h.requireParticipant hc x
  cases op with
  | createConversation | listConversations => cases hop
  | getConversation =>
    cases hop
    simp only [Op.program, Proc.bind_eq_bind, Proc.pure_eq_ret, Adapter.run_map,
      run_getConversation, hreq]
    exact ⟨trivial, h⟩
  | sendMessage input =>
    cases hop
    simp only [Op.program, Proc.bind_eq_bind, Proc.pure_eq_ret, Adapter.run_map, run_sendMessage,
      hreq, sent, hclock]
    split
    · exact ⟨rfl, h⟩
    cases hfound : w.requireParticipant input.conversationId input.senderId with
    | error e => exact ⟨rfl, h⟩
    | ok conversation =>
      have hid := w.conversations.keyed (World.requireParticipant_ok hfound).1
      simp only
      cases i.gate input.senderId conversation.userIds with
      | error e => exact ⟨rfl, h.congr rfl rfl rfl rfl⟩
      | ok allowed =>
        cases allowed with
        | false => exact ⟨rfl, h.congr rfl rfl rfl rfl⟩
        | true =>
          have happend := h.append (InMemoryMessageStore.newMessage i.uuid w.clock
            ⟨conversation.id, input.senderId, input.body⟩)
          rw [if_pos (by rw [InMemoryMessageStore.newMessage, hid]; exact hc)] at happend
          exact ⟨rfl, happend.congr rfl rfl rfl rfl⟩
  | listMessages c x options =>
    cases hop
    simp only [Op.program, Proc.bind_eq_bind, Proc.pure_eq_ret, Adapter.run_map, run_listMessages,
      hreq, h.listByConversation hc]
    exact ⟨trivial, h⟩
  | deleteMessage c messageId x =>
    cases hop
    exact h.deletion hids hclock messageId hc
  | deleteConversation c x =>
    cases hop
    simp only [Op.program, Proc.bind_eq_bind, Proc.pure_eq_ret, Adapter.run_map,
      run_deleteConversation, hreq, hclock]
    cases w.requireParticipant c x with
    | error e => exact ⟨rfl, h⟩
    | ok conversation =>
      have hclear := h.updateParticipant c x (f := fun p => { p with clearedAt := some w.clock })
        fun _ => rfl
      exact ⟨rfl, hclear.congr rfl rfl rfl rfl⟩
  | markRead c x at_ =>
    cases hop
    simp only [Op.program, Proc.bind_eq_bind, Proc.pure_eq_ret, Adapter.run_map, run_markRead, hreq]
    cases w.requireParticipant c x with
    | error e => exact ⟨rfl, h⟩
    | ok conversation =>
      have hmark := h.updateParticipant c x (f := fun p => { p with lastReadAt := some at_ })
        fun _ => rfl
      exact ⟨rfl, hmark.congr rfl rfl rfl rfl⟩

/-- So does the creation of a conversation with `u`. -/
theorem Restricts.run_createConversation (h : Restricts u w v) (hclock : v.clock = w.clock)
    (hfresh : w.conversations.findById i.uuid = none)
    (hmember : ∀ m ∈ w.messages.messages, m.conversationId ≠ i.uuid) {requesterId : String}
    {participantIds : List String} (hu : participantIds.contains u = true) :
    (adapter.run i (Op.createConversation requesterId participantIds).program v).1 =
      (adapter.run i (Op.createConversation requesterId participantIds).program w).1 ∧
    Restricts u (adapter.run i (Op.createConversation requesterId participantIds).program w).2
      (adapter.run i (Op.createConversation requesterId participantIds).program v).2 := by
  simp only [Op.program, Proc.bind_eq_bind, Proc.pure_eq_ret, Adapter.run_map,
    InMemory.run_createConversation, hclock]
  cases i.gate requesterId participantIds with
  | error e => exact ⟨rfl, h.congr rfl rfl rfl rfl⟩
  | ok allowed =>
    cases allowed with
    | false => exact ⟨rfl, h.congr rfl rfl rfl rfl⟩
    | true =>
      have hput := h.put (InMemoryConversationStore.newConversation i.uuid w.clock participantIds)
        hfresh hmember
      rw [if_pos (isParticipant_newConversation.trans hu)] at hput
      exact ⟨rfl, hput.congr rfl rfl rfl rfl⟩

/-- A call that is not kept leaves what `u` can reach as it is. -/
theorem Restricts.effect (h : Restricts u w v) (hfresh : w.conversations.findById i.uuid = none)
    (hmember : ∀ m ∈ w.messages.messages, m.conversationId ≠ i.uuid) {op : Op} {w' : World}
    {result : Except Failure Reply} (hkeep : keepsFor u w (i, op) = false)
    (heffect : Effect i w op result w') : Restricts u w' v := by
  cases heffect with
  | rejected | read | alreadyDeleted => exact h.congr rfl rfl rfl rfl
  | created requesterId participantIds =>
    have hput := h.put (InMemoryConversationStore.newConversation i.uuid w.clock participantIds)
      hfresh hmember
    rw [if_neg (by rw [isParticipant_newConversation]; exact Bool.eq_false_iff.mp hkeep)] at hput
    exact hput.congr rfl rfl rfl rfl
  | @sent input conversation _ hc _ =>
    have hid := w.conversations.keyed hc
    have happend := h.append (InMemory.sent i w conversation.id input)
    rw [if_neg (by rw [sent, InMemoryMessageStore.newMessage, hid]; exact Bool.eq_false_iff.mp hkeep)]
      at happend
    exact happend.congr rfl rfl rfl rfl
  | tombstoned hm _ =>
    have htombstone := h.tombstone hm w.clock
    rw [if_neg (by exact Bool.eq_false_iff.mp hkeep)] at htombstone
    exact htombstone.congr rfl rfl rfl rfl
  | @cleared c x =>
    have hclear := h.updateParticipant_unseen hkeep x
      (f := fun p => { p with clearedAt := some w.clock }) fun _ => rfl
    exact hclear.congr rfl rfl rfl rfl
  | @marked c x at_ =>
    have hmark := h.updateParticipant_unseen hkeep x
      (f := fun p => { p with lastReadAt := some at_ }) fun _ => rfl
    exact hmark.congr rfl rfl rfl rfl

end Steps

-- ---------------------------------------------------------------------------
-- Runs
-- ---------------------------------------------------------------------------

/-- The states of a run, and of the run without what is foreign to `u`. -/
structure Isolated (u : String) (w v : World) : Prop where
  wellFormed : ∃ log, WellFormed log w
  restricts : Restricts u w v
  clock : v.clock ≤ w.clock

/-- A turn on both sides. -/
theorem Restricts.tick {u : String} {w v : World} (h : Restricts u w v) (i : Input) :
    Restricts u (adapter.tick i w) (adapter.tick i v) :=
  h.congr rfl rfl rfl rfl

theorem Isolated.admissible {u : String} {w v : World} {i : Input} (h : Isolated u w v)
    (hadm : InMemory.admissible i w = true) : InMemory.admissible i v = true := by
  obtain ⟨log, hw⟩ := h.wellFormed
  simp only [InMemory.admissible, Bool.and_eq_true, decide_eq_true_eq,
    Option.isNone_iff_eq_none] at hadm ⊢
  obtain ⟨⟨hclock, hconversation⟩, hmessage⟩ := hadm
  refine ⟨⟨h.clock.trans hclock, ?_⟩, ?_⟩
  · rw [h.restricts.findConversation, hconversation]
    rfl
  · rw [h.restricts.findMessage hw.ids, hmessage]
    rfl

/-- A new id names no conversation, and no message lies in one. -/
theorem Isolated.uuid_fresh {u : String} {w v : World} {i : Input} (h : Isolated u w v)
    (hadm : InMemory.admissible i w = true) : w.conversations.findById i.uuid = none ∧
      ∀ m ∈ w.messages.messages, m.conversationId ≠ i.uuid := by
  obtain ⟨log, hw⟩ := h.wellFormed
  refine ⟨(InMemory.uuid_fresh hadm).1, fun m hm hid => ?_⟩
  obtain ⟨conversation, hc, -⟩ := hw.member m hm
  rw [hid, (InMemory.uuid_fresh hadm).1] at hc
  cases hc

/-- A kept call goes the same way on both sides, but for the lists of others. -/
theorem Isolated.kept {u : String} {w v : World} {i : Input} {op : Op} (h : Isolated u w v)
    (hadm : InMemory.admissible i w = true) (hkeep : keepsFor u w (i, op) = true) :
    Restricts u (serve i op w).2 (serve i op v).2 ∧
      ((∀ x, op = .listConversations x → x = u) → (serve i op v).1 = (serve i op w).1) := by
  obtain ⟨log, hw⟩ := h.wellFormed
  obtain ⟨hfresh, hmember⟩ := h.uuid_fresh hadm
  have htick := h.restricts.tick i
  have htarget : ∀ c x, op.target = some (c, x) → w.sees u c = true →
      Restricts u (serve i op w).2 (serve i op v).2 ∧
        ((∀ x, op = .listConversations x → x = u) → (serve i op v).1 = (serve i op w).1) := by
    intro c x hop hc
    obtain ⟨hresult, hrestricts⟩ := htick.run_target hw.ids rfl hop hc
    exact ⟨hrestricts, fun _ => hresult⟩
  cases op with
  | createConversation requesterId participantIds =>
    obtain ⟨hresult, hrestricts⟩ := htick.run_createConversation rfl hfresh hmember hkeep
    exact ⟨hrestricts, fun _ => hresult⟩
  | listConversations x =>
    simp only [serve, Op.program, Proc.bind_eq_bind, Proc.pure_eq_ret, Adapter.run_map,
      run_listConversations]
    refine ⟨htick, fun hx => ?_⟩
    rw [hx x rfl, htick.listed]
  | getConversation | sendMessage | listMessages | deleteMessage | deleteConversation | markRead =>
    exact htarget _ _ rfl hkeep

/-- A user's run beside the same run without the calls foreign to them. -/
def isolation (u : String) : machine.Erasure where
  keep := keepsFor u
  Sim := Isolated u
  Agree e e' := (∀ x, e.input.2 = .listConversations x → x = u) → e'.output = e.output
  kept := by
    rintro w v ⟨i, op⟩ result w' h hkeep hstep
    obtain ⟨log, hw⟩ := h.wellFormed
    obtain ⟨hadm, heffect⟩ := machine_step hstep
    have hserve : serve i op w = (result, w') :=
      Option.some.inj ((machine_serve hadm).symm.trans hstep)
    have hkept := h.kept hadm hkeep
    rw [hserve] at hkept
    refine ⟨_, _, machine_serve (h.admissible hadm), ⟨⟨_, hw.step hstep⟩, hkept.1, ?_⟩, hkept.2⟩
    exact le_of_eq ((serve_clock i op v).trans (machine_clock hstep).symm)
  erased := by
    rintro w v ⟨i, op⟩ result w' h hkeep hstep
    obtain ⟨log, hw⟩ := h.wellFormed
    obtain ⟨hadm, heffect⟩ := machine_step hstep
    obtain ⟨hfresh, hmember⟩ := h.uuid_fresh hadm
    have hnow : w.clock ≤ i.now := by
      simp only [InMemory.admissible, Bool.and_eq_true, decide_eq_true_eq] at hadm
      exact hadm.1.1
    have hrestricts : Restricts u (adapter.tick i w) v := h.restricts.congr rfl rfl rfl rfl
    refine ⟨⟨_, hw.step hstep⟩, hrestricts.effect hfresh hmember hkeep heffect, ?_⟩
    rw [machine_clock hstep]
    exact h.clock.trans hnow

/-- What is left of a run for `u`. -/
def concerning (u : String) (log : Log) : Log := log.filter fun e => keepsFor u e.before e.input

/-- Take any sequential run, any user `u`, and the run of only the calls that
concern `u`, each with its own clock reading, generated ids and gate. Every call
that is left has the same result in both runs, but for the lists of other users. -/
theorem conversations_isolated {u : String} {clock : Int} {log log' : Log} {w v : World}
    (h : machine.Run (World.init clock) log w) (h' : machine.Run (World.init clock) log' v)
    (hinputs : log'.map (fun e => e.input) = (concerning u log).map fun e => e.input) :
    List.Forall₂ (fun e e' => (∀ x, e.input.2 = .listConversations x → x = u) →
      e'.output = e.output) (concerning u log) log' := by
  have hinit : Isolated u (World.init clock) (World.init clock) :=
    ⟨⟨_, wellFormed_init clock⟩, ⟨rfl, rfl⟩, le_refl _⟩
  exact ((isolation u).agree hinit h h' hinputs).2

/-- ann guesses the id of a message that bob and carl exchanged. -/
theorem conversations_isolated_foreign_message :
    ∃ log w log' v, machine.Run (World.init 0) log w ∧ machine.Run (World.init 0) log' v ∧
      log.length = 5 ∧ log'.length = 3 ∧
      List.Forall₂ (fun e e' => (∀ x, e.input.2 = .listConversations x → x = "ann") →
        e'.output = e.output) (concerning "ann" log) log' ∧
      (log'.getLast?.map fun e => e.output) =
        some (.error (.core (.messageNotFound "m"))) := by
  have h := (Machine.Run.nil (M := machine) (s := World.init 0))
    |>.snoc (i := (.allowAll 1 "c", .createConversation "ann" ["ann", "bob"])) rfl
    |>.snoc (i := (.allowAll 2 "d", .createConversation "bob" ["bob", "carl"])) rfl
    |>.snoc (i := (.allowAll 3 "m", .sendMessage ⟨"d", "bob", "hello"⟩)) rfl
    |>.snoc (i := (.allowAll 4 "x", .listConversations "ann")) rfl
    |>.snoc (i := (.allowAll 5 "y", .deleteMessage "c" "m" "ann")) rfl
  have h' := (Machine.Run.nil (M := machine) (s := World.init 0))
    |>.snoc (i := (.allowAll 1 "c", .createConversation "ann" ["ann", "bob"])) rfl
    |>.snoc (i := (.allowAll 4 "x", .listConversations "ann")) rfl
    |>.snoc (i := (.allowAll 5 "y", .deleteMessage "c" "m" "ann")) rfl
  exact ⟨_, _, _, _, h, h', rfl, rfl, conversations_isolated h h' rfl, rfl⟩

end InMemory

end Jiffy
