-- SUMMARY: The whole service over either set of adapters: the same calls come to the same answers, and leave the same in the stores.
import Jiffy.InMemory.Lifecycle
import Jiffy.Lib.Simulation
import Jiffy.Postgres.ConversationStores
import Mathlib.Data.List.Find

/-!
# Two sets of adapters

The service, one call after another, on the in-memory adapters and on the
tables of the Postgres ones. Rows come back in any order that a query leaves
open, so the participants of a conversation do, and with them the lists that
the gate and the notifier are handed.
-/

namespace Jiffy

open Js Async MessagingService

-- ---------------------------------------------------------------------------
-- The same conversation, participants in any order
-- ---------------------------------------------------------------------------

namespace SameUpToOrder

variable {a b : Conversation}

theorem userIds (h : SameUpToOrder a b) : b.userIds.Perm a.userIds := h.participants.map _

theorem isParticipant (h : SameUpToOrder a b) (u : String) : isParticipant b u = isParticipant a u := by
  rw [Bool.eq_iff_iff, isParticipant_iff, isParticipant_iff, h.userIds.mem_iff]

/-- A user has one record, wherever it stands. -/
theorem clearedAtOf (h : SameUpToOrder a b) (hnodup : a.userIds.Nodup) (u : String) :
    clearedAtOf b u = clearedAtOf a u := by
  have hmem : ∀ {c : Conversation} {p : ConversationParticipant}, c.userIds.Nodup →
      (participantOf c u = some p ↔ p ∈ c.participants ∧ p.userId = u) := by
    intro c p hc
    constructor
    · exact fun hp => ⟨List.mem_of_find?_eq_some hp, by simpa using List.find?_some hp⟩
    · rintro ⟨hp, rfl⟩
      obtain ⟨q, hq⟩ := Option.isSome_iff_exists.mp (participantOf_isSome
        (isParticipant_iff.mpr (List.mem_map_of_mem (f := fun p => p.userId) hp)))
      have huser : q.userId = p.userId := by simpa using List.find?_some hq
      rw [hq, List.inj_on_of_nodup_map hc (List.mem_of_find?_eq_some hq) hp huser]
  have hsame : participantOf b u = participantOf a u := by
    apply Option.ext
    intro p
    rw [hmem hnodup, hmem (h.userIds.nodup_iff.mpr hnodup), h.participants.mem_iff]
  unfold Jiffy.clearedAtOf
  rw [hsame]

end SameUpToOrder

namespace Postgres

-- ---------------------------------------------------------------------------
-- The same state
-- ---------------------------------------------------------------------------

/-- The tables hold the conversations of the map, none of them later than
`clock`, and no connection is in use. -/
structure SameConversations (uuid : String → Option String) (store : InMemoryConversationStore)
    (clock : Int) (db : Database) : Prop where
  mirrors : Mirrors store.conversations.values db
  plain : Plain store.conversations.values
  idle : db.connections = []
  canonical : ∀ c ∈ store.conversations.values, uuid c.id = some c.id
  cleared : ∀ c ∈ store.conversations.values, ∀ p ∈ c.participants, ∀ t, p.clearedAt = some t →
    Storable (Date.of t)
  past : ∀ c ∈ store.conversations.values, c.createdAt ≤ clock

/-- The table holds the messages of the array, no two of one instant. -/
structure SameMessages (store : InMemoryMessageStore) (clock : Int) (records : List MessageRecord) :
    Prop where
  rows : records = store.messages.map recordOf
  ids : (store.messages.map fun m => m.id).Nodup
  times : (store.messages.map fun m => m.createdAt).Nodup
  past : ∀ m ∈ store.messages, m.createdAt ≤ clock

/-- One thing said of a list of users, in any order. -/
def SameUsers {α : Type} (x y : α × List String) : Prop := y.1 = x.1 ∧ y.2.Perm x.2

/-- The two sets of adapters hold the same, and were asked for the same. -/
structure SameService (uuid : String → Option String) (w : Jiffy.World) (v : World) : Prop where
  conversations : SameConversations uuid w.conversations w.clock v.database
  messages : SameMessages w.messages w.clock v.database.messages
  clock : v.clock = w.clock * 1000
  published : v.published = w.published
  asked : List.Forall₂ SameUsers w.asked v.asked
  notified : List.Forall₂ SameUsers w.notified v.notified

/-- The same turn for the database: it reads the clock in microseconds, nothing
fails, and rows come in some order. -/
def ofInput (i : Jiffy.Input) (order : RowOrder) : Input :=
  ⟨i.now * 1000, i.uuid, i.gate, fun _ => none, order⟩

/-- What a call may be supplied with: a later millisecond that a TIMESTAMPTZ
holds, a new id, and a gate that does not look at the order of users. -/
structure Due (uuid : String → Option String) (i : Jiffy.Input) (w : Jiffy.World) : Prop where
  later : w.clock < i.now
  storable : Storable (Date.of i.now)
  canonical : uuid i.uuid = some i.uuid
  newConversation : w.conversations.findById i.uuid = none
  newMessage : w.messages.findById i.uuid = none
  fair : ∀ u ids ids', ids'.Perm ids → i.gate u ids' = i.gate u ids

/-- The same state inside a call that has not written yet. -/
structure Poised (uuid : String → Option String) (now : Int) (w₀ w : Jiffy.World) (v : World) : Prop
    extends SameService uuid w v where
  now : w.clock = now
  sameConversations : w.conversations = w₀.conversations
  sameMessages : w.messages = w₀.messages

/-- The same failure: the gate's refusal names the users in any order. -/
inductive SameFailure : Failure → Failure → Prop where
  | same (e : Failure) : SameFailure e e
  | notAllowed (u : String) {ids ids' : List String} (h : ids'.Perm ids) :
    SameFailure (.core (.conversationNotAllowed u ids)) (.core (.conversationNotAllowed u ids'))

theorem SameConversations.later {uuid : String → Option String} {store : InMemoryConversationStore}
    {t t' : Int} {db : Database} (h : SameConversations uuid store t db) (hle : t ≤ t') :
    SameConversations uuid store t' db :=
  ⟨h.mirrors, h.plain, h.idle, h.canonical, h.cleared, fun c hc => (h.past c hc).trans hle⟩

/-- The table of messages is another one. -/
theorem SameConversations.apart {uuid : String → Option String} {store : InMemoryConversationStore}
    {t : Int} {db : Database} (h : SameConversations uuid store t db) (messages : List MessageRecord) :
    SameConversations uuid store t { db with messages } :=
  ⟨⟨h.mirrors.records, h.mirrors.members⟩, h.plain, h.idle, h.canonical, h.cleared, h.past⟩

theorem SameMessages.later {store : InMemoryMessageStore} {t t' : Int} {records : List MessageRecord}
    (h : SameMessages store t records) (hle : t ≤ t') : SameMessages store t' records :=
  ⟨h.rows, h.ids, h.times, fun m hm => (h.past m hm).trans hle⟩

/-- A call begins. -/
theorem SameService.poised {uuid : String → Option String} {w : Jiffy.World} {v : World}
    (h : SameService uuid w v) {i : Jiffy.Input} (hle : w.clock ≤ i.now) (order : RowOrder) :
    Poised uuid i.now w (InMemory.adapter.tick i w) ((adapter uuid).tick (ofInput i order) v) :=
  ⟨⟨h.conversations.later hle, h.messages.later hle, rfl, h.published, h.asked, h.notified⟩, rfl, rfl, rfl⟩

-- ---------------------------------------------------------------------------
-- One port call on both
-- ---------------------------------------------------------------------------

section Calls

variable {uuid : String → Option String} {i : Jiffy.Input} {order : RowOrder} {w₀ w : Jiffy.World} {v : World}
  {v₀ : World} {t : Int} {db : Database}

/-- A port call on both sets of adapters. -/
abbrev BothPerform (uuid : String → Option String) (i : Jiffy.Input) (order : RowOrder) {r q : PortCall}
    (Q : r.Resp → q.Resp → Prop) (R : Jiffy.World → World → Prop) (w : Jiffy.World) (v : World) : Prop :=
  Agree SameFailure Q R (InMemory.adapter.perform i r w) ((portAdapter uuid).perform (ofInput i order) q v)

theorem BothPerform.awaited {r r' : PortCall} {Q : r.Resp → r'.Resp → Prop} {R : Jiffy.World → World → Prop}
    (h : BothPerform uuid i order Q R w v) :
    Agree SameFailure Q R (InMemory.adapter.run i (Jiffy.request r) w)
      ((portAdapter uuid).run (ofInput i order) (Jiffy.request r') v) :=
  Agree.request (P := ports) (O := ports) h

theorem BothPerform.unawaited {r r' : PortCall} {Q : r.Resp → r'.Resp → Prop}
    {R : Jiffy.World → World → Prop} (h : BothPerform uuid i order Q R w v) :
    Agree SameFailure Q R (InMemory.adapter.run i (Jiffy.perform r) w)
      ((portAdapter uuid).run (ofInput i order) (Jiffy.perform r') v) :=
  Agree.perform (P := ports) (O := ports) h

theorem canCreateConversation_agrees (hdue : Due uuid i w₀) (h : Poised uuid i.now w₀ w v) (u : String)
    {ids ids' : List String} (hids : ids'.Perm ids) :
    BothPerform uuid i order (r := .canCreateConversation u ids) (q := .canCreateConversation u ids')
      (fun a b => b = a) (Poised uuid i.now w₀) w v := by
  have hasked : Poised uuid i.now w₀ (w.ask u ids) { v with asked := v.asked ++ [(u, ids')] } :=
    ⟨⟨h.conversations, h.messages, h.clock, h.published,
      List.rel_append h.asked (.cons ⟨rfl, hids⟩ .nil), h.notified⟩, h.now, h.sameConversations, h.sameMessages⟩
  have hgate : (ofInput i order).gate u ids' = i.gate u ids := hdue.fair u ids ids' hids
  have hrun : (portAdapter uuid).perform (ofInput i order) (.canCreateConversation u ids') v =
      ((i.gate u ids).mapError Failure.port, { v with asked := v.asked ++ [(u, ids')] }) := by
    rw [← hgate]
    exact Adapter.run_request _ _ _ _
  unfold BothPerform
  rw [hrun]
  show Agree _ _ _ ((i.gate u ids).mapError Failure.port, w.ask u ids) _
  cases i.gate u ids with
  | error e => exact .error (.same _) hasked
  | ok allowed => exact .ok rfl hasked

theorem Poised.sameStore (h : Poised uuid i.now w₀ w v) : SameStore w.conversations v :=
  ⟨h.conversations.mirrors, h.conversations.plain, h.conversations.idle⟩

theorem createConversation_agrees (hdue : Due uuid i w₀) (h : Poised uuid i.now w₀ w v)
    (hlater : ∀ c ∈ w₀.conversations.conversations.values, c.createdAt < i.now) {ids : List String}
    (hne : ids ≠ []) (hids : Insertable ids) :
    BothPerform uuid i order (r := .createConversation ids) (q := .createConversation ids)
      SameUpToOrder (SameService uuid) w v := by
  have hnew : w.conversations.findById i.uuid = none := h.sameConversations ▸ hdue.newConversation
  have hfresh : Fresh uuid (ofInput i order) v.database := h.sameStore.fresh hdue.canonical hnew
  rcases run_create (i := ofInput i order) (fun _ => rfl) h.sameStore.pooled hfresh h.sameStore.keys ids with
    ⟨-, hrun⟩ | ⟨hbad, -⟩
  · have hvalues := @values_create w.conversations ⟨w.clock, i.uuid, order⟩ ids hnew
    have hstore := h.sameStore.create (i := ⟨w.clock, i.uuid, order⟩) hne hids hnew
      (h.now ▸ h.sameConversations ▸ hlater)
    unfold BothPerform
    rw [portAdapter_perform, implementation, hrun]
    refine .ok ⟨rfl, .refl _, ?_, rfl⟩ ⟨⟨?_, hstore.plain, hstore.idle, ?_, ?_, ?_⟩, h.messages, h.clock,
      h.published, h.asked, h.notified⟩
    · exact (congrArg toMillis h.clock).trans (toMillis_mul _)
    · rw [h.clock]
      exact hstore.mirrors
    -- the old conversations, and the new one
    all_goals
      show ∀ c ∈ (w.conversations.create i.uuid w.clock ids).2.conversations.values, _
      rw [hvalues]
      simp only [List.forall_mem_append, List.forall_mem_singleton]
    · exact ⟨h.conversations.canonical, hdue.canonical⟩
    · refine ⟨h.conversations.cleared, fun p hp t ht => ?_⟩
      obtain ⟨u, -, rfl⟩ := List.mem_map.mp hp
      cases ht
    · exact ⟨h.conversations.past, le_rfl⟩
  · exact absurd hids hbad

/-- A conversation that both look up. -/
def Found (w₀ : Jiffy.World) (a b : Conversation) : Prop :=
  a ∈ w₀.conversations.conversations.values ∧ SameUpToOrder a b

theorem findConversation_agrees (h : Poised uuid i.now w₀ w v) {c : String} (hc : uuid c = some c) :
    BothPerform uuid i order (r := .findConversation c) (q := .findConversation c)
      (Option.Rel (Found w₀)) (Poised uuid i.now w₀) w v := by
  obtain ⟨found, hrun, hsame⟩ := findById_same (i := ofInput i order) (fun _ => rfl)
    h.conversations.mirrors h.conversations.plain hc
  unfold BothPerform
  rw [portAdapter_perform, implementation, hrun]
  show Agree _ _ _ (.ok (w.conversations.findById c), w) _
  refine .ok ?_ h
  rw [findById_values]
  cases hfound : w.conversations.conversations.values.find? fun d => d.id = c with
  | none =>
    rw [hfound] at hsame
    cases hsame
    exact .none
  | some a =>
    rw [hfound] at hsame
    cases hsame with
    | some hab => exact .some ⟨h.sameConversations ▸ List.mem_of_find?_eq_some hfound, hab⟩

theorem findByParticipant_agrees (h : Poised uuid i.now w₀ w v) {u : String} (hu : NulFree u) :
    BothPerform uuid i order (r := .findByParticipant u) (q := .findByParticipant u)
      (List.Forall₂ (Found w₀)) (Poised uuid i.now w₀) w v := by
  obtain ⟨found, hrun, hsame⟩ := findByParticipant_same (i := ofInput i order) (fun _ => rfl)
    h.conversations.mirrors h.conversations.plain hu
  unfold BothPerform
  rw [portAdapter_perform, implementation, hrun]
  refine .ok ?_ h
  show List.Forall₂ (Found w₀) (w.conversations.findByParticipant u) found
  have hmem : ∀ a ∈ w.conversations.findByParticipant u, a ∈ w₀.conversations.conversations.values :=
    fun a ha => h.sameConversations ▸ List.mem_of_mem_filter ha
  exact (List.forall₂_and_left _ _).mpr ⟨hmem, hsame⟩

/-- A write to one participant's record. -/
theorem update_agrees (h : Poised uuid i.now w₀ w v) {c u : String}
    {f : ConversationParticipant → ConversationParticipant} {g : ParticipantRecord → ParticipantRecord}
    (hfg : ∀ id p, participantRecord id (f p) = g (participantRecord id p))
    (hf : ∀ p, (f p).userId = p.userId)
    (hdates : ∀ p d, (f p).lastReadAt = some d → p.lastReadAt = some d ∨ ∃ t, d = Date.of t)
    (hcleared : ∀ p t, (f p).clearedAt = some t → p.clearedAt = some t ∨ Storable (Date.of t)) :
    SameService uuid { w with conversations := w.conversations.updateParticipant c u f }
      { v with database := updateParticipant v.database c u g } := by
  have hstore : SameStore (w.conversations.updateParticipant c u f)
      { v with database := updateParticipant v.database c u g } := h.sameStore.update hfg hf hdates
  refine ⟨⟨hstore.mirrors, hstore.plain, hstore.idle, ?_, ?_, ?_⟩, h.messages, h.clock, h.published,
    h.asked, h.notified⟩
  all_goals
    show ∀ x ∈ (w.conversations.updateParticipant c u f).conversations.values, _
    rw [values_updateParticipant, List.forall_mem_map]
    intro x hx
  · split
    · exact h.conversations.canonical x hx
    · exact h.conversations.canonical x hx
  · split
    · intro p hp t ht
      rcases mem_mutateFirst hp with hp | ⟨q, hq, -, rfl⟩
      · exact h.conversations.cleared x hx p hp t ht
      · rcases hcleared q t ht with hold | hnew
        · exact h.conversations.cleared x hx q hq t hold
        · exact hnew
    · exact h.conversations.cleared x hx
  · split
    · exact h.conversations.past x hx
    · exact h.conversations.past x hx

theorem markRead_agrees (h : Poised uuid i.now w₀ w v) {c u : String} {at_ : Date}
    (hc : uuid c = some c) (hu : NulFree u) (hat : Storable at_) :
    BothPerform uuid i order (r := .markRead c u at_) (q := .markRead c u at_)
      (fun _ _ => True) (SameService uuid) w v := by
  obtain ⟨t, rfl, hparam⟩ := timestampParam_storable hat
  have hexec : execute uuid (ofInput i order) v.clock v.database (.updateLastReadAt (Date.of t) c u) =
      .ok ((), updateParticipant v.database c u fun p => { p with lastReadAt := some (t * 1000) }) := by
    simp only [execute, hparam, uuidParam, hc, textParam_of hu]
    rfl
  unfold BothPerform
  rw [portAdapter_perform, implementation, PostgresConversationStore.markRead, query_resolves rfl hexec]
  exact .ok trivial (update_agrees h (fun _ _ => rfl) (fun _ => rfl)
    (fun p d hd => .inr ⟨t, (Option.some.inj hd).symm⟩) fun p t ht => .inl ht)

theorem clear_agrees (h : Poised uuid i.now w₀ w v) {c u : String}
    (hc : uuid c = some c) (hu : NulFree u) (ht : Storable (Date.of t)) :
    BothPerform uuid i order (r := .clear c u t) (q := .clear c u t)
      (fun _ _ => True) (SameService uuid) w v := by
  obtain ⟨t', heq, hparam⟩ := timestampParam_storable ht
  cases heq
  have hexec : execute uuid (ofInput i order) v.clock v.database (.updateClearedAt (Date.of t) c u) =
      .ok ((), updateParticipant v.database c u fun p => { p with clearedAt := some (t * 1000) }) := by
    simp only [execute, hparam, uuidParam, hc, textParam_of hu]
    rfl
  unfold BothPerform
  rw [portAdapter_perform, implementation, PostgresConversationStore.clear, query_resolves rfl hexec]
  exact .ok trivial (update_agrees h (fun _ _ => rfl) (fun _ => rfl) (fun p d hd => .inl hd)
    fun p t' ht' => .inr (Option.some.inj ht' ▸ ht))

theorem createMessage_agrees (hdue : Due uuid i w₀) (h : Poised uuid i.now w₀ w v)
    (hearlier : ∀ m ∈ w₀.messages.messages, m.createdAt < i.now) {a b : Conversation} (hab : Found w₀ a b)
    {u body : String} (hu : NulFree u) (hbody : NulFree body) :
    BothPerform uuid i order (r := .createMessage ⟨a.id, u, body⟩) (q := .createMessage ⟨b.id, u, body⟩)
      (fun m m' => m' = m) (SameService uuid) w v := by
  obtain ⟨ha, hab⟩ := hab
  rw [← h.sameConversations] at ha
  generalize hm : InMemoryMessageStore.newMessage i.uuid w.clock ⟨a.id, u, body⟩ = m
  have hnew : ∀ m ∈ w.messages.messages, m.id ≠ i.uuid := by
    have hnone := hdue.newMessage
    rw [← h.sameMessages] at hnone
    simpa [InMemoryMessageStore.findById, List.find?_eq_none] using hnone
  have hunused : ¬ (v.database.messages.any fun m => m.id = (ofInput i order).uuid) = true := by
    rw [h.messages.rows, List.any_eq_true]
    rintro ⟨r, hr, hid⟩
    obtain ⟨m, hm, rfl⟩ := List.mem_map.mp hr
    exact hnew m hm (of_decide_eq_true hid)
  have hthere : (v.database.conversations.any fun c => c.id = a.id ∧ c.pending = none) = true := by
    rw [h.conversations.mirrors.records]
    exact List.any_eq_true.mpr ⟨conversationRecord a, List.mem_map_of_mem ha, by simp [conversationRecord]⟩
  have hexec : execute uuid (ofInput i order) v.clock v.database (.insertMessage a.id u body) =
      .ok ([(recordOf m).row], { v.database with messages := v.database.messages ++ [recordOf m] }) := by
    have hrecord : recordOf m = ⟨i.uuid, a.id, u, body, v.clock, none⟩ := by
      rw [← hm, h.clock]
      rfl
    simp only [execute, insertMessage, uuidParam, h.conversations.canonical a ha, textParam_of hu,
      textParam_of hbody, bind, Except.bind, hrecord]
    rw [if_neg hunused, if_pos hthere]
    rfl
  unfold BothPerform
  rw [portAdapter_perform, implementation, PostgresMessageStore.create, hab.id]
  simp only [Proc.bind_eq_bind, Adapter.run_bind, query_resolves (w := v) rfl hexec]
  show Agree _ _ _ (.ok (InMemoryMessageStore.newMessage i.uuid w.clock ⟨a.id, u, body⟩), _)
    (.ok (rowToMessage (recordOf m).row), _)
  rw [hm]
  refine .ok (rowToMessage_recordOf m) ⟨h.conversations.apart _, ⟨?_, ?_, ?_, ?_⟩, h.clock, h.published,
    h.asked, h.notified⟩
  · show _ = (w.messages.messages ++ [m]).map recordOf
    rw [List.map_append, ← h.messages.rows]
    rfl
  · show ((w.messages.messages ++ [m]).map fun m => m.id).Nodup
    rw [List.map_append, List.map_singleton, ← List.concat_eq_append]
    refine List.Nodup.concat (fun hmem => ?_) h.messages.ids
    obtain ⟨m', hm', hid⟩ := List.mem_map.mp hmem
    exact hnew m' hm' (hid.trans (congrArg (fun m => m.id) hm.symm))
  · show ((w.messages.messages ++ [m]).map fun m => m.createdAt).Nodup
    rw [List.map_append, List.map_singleton, ← List.concat_eq_append]
    refine List.Nodup.concat (fun hmem => ?_) h.messages.times
    obtain ⟨m', hm', ht⟩ := List.mem_map.mp hmem
    have hlt := hearlier m' (h.sameMessages ▸ hm')
    have hnow : m'.createdAt = i.now := ht.trans ((congrArg (fun m => m.createdAt) hm.symm).trans h.now)
    omega
  · show ∀ x ∈ w.messages.messages ++ [m], x.createdAt ≤ w.clock
    rw [List.forall_mem_append, List.forall_mem_singleton]
    exact ⟨h.messages.past, le_of_eq (congrArg (fun m => m.createdAt) hm.symm)⟩

/-- A message that both look up: the first and only one of its id. -/
theorem findMessage_agrees (h : Poised uuid i.now w₀ w v) {id : String} (hid : uuid id = some id) :
    BothPerform uuid i order (r := .findMessage id) (q := .findMessage id)
      (fun a b => b = a ∧ a = w₀.messages.findById id) (Poised uuid i.now w₀) w v := by
  have hexec : execute uuid (ofInput i order) v.clock v.database (.selectMessage id) =
      .ok ((v.database.messages.filter fun m => m.id = id).map MessageRecord.row, v.database) := by
    simp only [execute, uuidParam, hid]
    rfl
  have hhead : ((v.database.messages.filter fun m => m.id = id).map MessageRecord.row).head?.map rowToMessage =
      w.messages.findById id := by
    rw [h.messages.rows, List.filter_map, List.map_map, List.head?_map, List.head?_filter, Option.map_map]
    have hback : rowToMessage ∘ MessageRecord.row ∘ recordOf = fun m => m := funext rowToMessage_recordOf
    rw [hback, Option.map_id']
    rfl
  unfold BothPerform
  rw [portAdapter_perform, implementation, PostgresMessageStore.findById]
  simp only [Proc.bind_eq_bind, Adapter.run_bind, query_resolves (w := v) rfl hexec]
  exact .ok ⟨hhead, congrArg (fun store => store.findById id) h.sameMessages⟩ h

/-- The deletion of a message that is there and not deleted. -/
theorem softDelete_agrees (h : Poised uuid i.now w₀ w v) (ht : Storable (Date.of t)) {id : String}
    (hid : uuid id = some id) {m : Message} (hm : w₀.messages.findById id = some m) (hlive : m.deletedAt = none) :
    BothPerform uuid i order (r := .softDelete id t) (q := .softDelete id t)
      (fun a b => b = a) (SameService uuid) w v := by
  obtain ⟨t', heq, hparam⟩ := timestampParam_storable ht
  cases heq
  rw [← h.sameMessages] at hm
  have hmem : m ∈ w.messages.messages := List.mem_of_find?_eq_some hm
  have hmid : m.id = id := by simpa using List.find?_some hm
  have honly : ∀ x ∈ w.messages.messages, x.id = id → x = m := fun x hx hxid =>
    List.inj_on_of_nodup_map h.messages.ids hx hmem (hxid.trans hmid.symm)
  have hhit : ∀ x ∈ w.messages.messages,
      decide ((recordOf x).id = id ∧ (recordOf x).deletedAt = none) = decide (x.id = id) := by
    intro x hx
    rw [decide_eq_decide]
    refine ⟨fun hx => hx.1, fun hxid => ⟨hxid, ?_⟩⟩
    rw [honly x hx hxid]
    simp [recordOf, hlive]
  have hrows : (v.database.messages.filter fun r => decide (r.id = id ∧ r.deletedAt = none)).head? =
      some (recordOf m) := by
    rw [h.messages.rows, List.filter_map, List.head?_map, List.head?_filter]
    have hfind : w.messages.messages.find? ((fun r : MessageRecord => decide (r.id = id ∧ r.deletedAt = none)) ∘
        recordOf) = w.messages.messages.find? fun x => x.id = id := List.find?_congr hhit
    rw [hfind]
    exact congrArg (Option.map recordOf) hm
  have hafter : (v.database.messages.map fun r =>
      if decide (r.id = id ∧ r.deletedAt = none) then tombstoneRecord r (t * 1000) else r) =
        (mutateFirst (fun m => m.id = id) (fun m => InMemoryMessageStore.tombstone m t)
          w.messages.messages).map recordOf := by
    rw [h.messages.rows, mutateFirst_eq_map h.messages.ids, List.map_map, List.map_map]
    refine List.map_congr_left fun x hx => ?_
    simp only [Function.comp, hhit x hx, decide_eq_true_eq]
    split <;> rfl
  have hexec : execute uuid (ofInput i order) v.clock v.database (.updateDeleted id (Date.of t)) =
      .ok ((v.database.messages.filter fun r => decide (r.id = id ∧ r.deletedAt = none)).map
        fun r => (tombstoneRecord r (t * 1000)).row, { v.database with
          messages := v.database.messages.map fun r =>
            if decide (r.id = id ∧ r.deletedAt = none) then tombstoneRecord r (t * 1000) else r }) := by
    simp only [execute, updateDeleted, uuidParam, hid, hparam, bind, Except.bind, pure, Except.pure]
  have hdelete : InMemory.adapter.perform i (.softDelete id t) w =
      (.ok (InMemoryMessageStore.tombstone m t), { w with messages :=
        ⟨mutateFirst (fun m => m.id = id) (fun m => InMemoryMessageStore.tombstone m t) w.messages.messages⟩ }) := by
    simp [InMemory.perform, InMemoryMessageStore.softDelete, hm, hlive]
  unfold BothPerform
  rw [hdelete, portAdapter_perform, implementation, PostgresMessageStore.softDelete]
  simp only [Proc.bind_eq_bind, Adapter.run_bind, query_resolves (w := v) rfl hexec, List.head?_map, hrows]
  refine .ok (rowToMessage_recordOf (InMemoryMessageStore.tombstone m t)) ⟨h.conversations.apart _,
    ⟨hafter, ?_, ?_, ?_⟩, h.clock, h.published, h.asked, h.notified⟩
  · rw [InMemoryMessageStore.ids_tombstone]
    exact h.messages.ids
  · have htimes := map_mutateFirst (p := fun m : Message => decide (m.id = id))
      (f := fun m => InMemoryMessageStore.tombstone m t) (fun m => m.createdAt) (fun _ _ => rfl)
      w.messages.messages
    exact (congrArg List.Nodup htimes).mpr h.messages.times
  · intro x hx
    rcases mem_mutateFirst hx with hx | ⟨y, hy, -, rfl⟩
    · exact h.messages.past x hx
    · exact h.messages.past y hy

-- ---------------------------------------------------------------------------
-- Histories
-- ---------------------------------------------------------------------------

/-- Options that ask for a page: bounds that a TIMESTAMPTZ holds, if any, and, as
the router requires it, a limit of one message or more, if any. -/
structure Pageable (options : ListMessagesOptions) : Prop where
  before : ∀ d, options.before = some d → Storable d
  after : ∀ d, options.after = some d → Storable d
  limit : options.limit = none ∨ ∃ n : Nat, 0 < n ∧ options.limit = some (.finite n)

theorem run_history (h : Poised uuid i.now w₀ w v) {c : String} (hc : uuid c = some c)
    {options : ListMessagesOptions} (hoptions : Pageable options) :
    (adapter uuid).run (ofInput i order) (PostgresMessageStore.listByConversation c options) v =
      (.ok ((w₀.messages.listByConversation c options).rtake (pageCap options)), v) := by
  obtain ⟨page, hrun, rfl, -⟩ := listByConversation_agrees (i := ofInput i order) (fun _ => rfl)
    (List.Perm.of_eq h.messages.rows) h.messages.times hc hoptions.before hoptions.after hoptions.limit
  rw [← h.sameMessages]
  exact hrun

theorem listByConversation_page_agrees (h : Poised uuid i.now w₀ w v) {c : String} (hc : uuid c = some c)
    {options : ListMessagesOptions} (hoptions : Pageable options) :
    BothPerform uuid i order (r := .listByConversation c options) (q := .listByConversation c options)
      (fun a b => b = a.rtake (pageCap options)) (Poised uuid i.now w₀) w v := by
  unfold BothPerform
  rw [portAdapter_perform, implementation, run_history h hc hoptions]
  refine .ok ?_ h
  rw [← h.sameMessages]

/-- A page of one message is no longer than a page may be. -/
theorem rtake_newest (store : InMemoryMessageStore) (c : String) {options : ListMessagesOptions}
    (hlimit : options.limit = some (.finite 1)) :
    (store.listByConversation c options).rtake (pageCap options) = store.listByConversation c options := by
  have hone := @InMemoryMessageStore.listByConversation_limit store c options 1 Nat.one_pos
  have hsame : { options with limit := some (.finite (1 : ℕ)) } = options := by
    rw [Nat.cast_one, ← hlimit]
  rw [hsame] at hone
  rw [pageCap, if_neg (by rw [hlimit]; simp), hone, rtake_rtake]
  rfl

/-- The preview of one conversation, its newest message if there is one. -/
def SamePreview (w₀ : Jiffy.World) (u : String) (x y : PreviewQuery × List Message) : Prop :=
  ∃ a b, Found w₀ a b ∧ x.1 = previewQuery u a ∧ y.1 = previewQuery u b ∧ y.2 = x.2

theorem Found.clearedAt (h : SameConversations uuid w₀.conversations t db) {a b : Conversation}
    (hab : Found w₀ a b) (u : String) : clearedAtOf b u = clearedAtOf a u :=
  hab.2.clearedAtOf (h.plain.users a hab.1) u

/-- What a deletion hides is bounded by an instant that was stored. -/
theorem Found.pageable (h : SameConversations uuid w₀.conversations t db) {a b : Conversation}
    (hab : Found w₀ a b) (u : String) {options : ListMessagesOptions} (hoptions : Pageable options) :
    Pageable (withCleared options (clearedAtOf a u)) := by
  unfold withCleared
  split
  · next at_ hat =>
    refine ⟨hoptions.before, fun d hd => ?_, hoptions.limit⟩
    cases hd
    obtain ⟨p, hp, hcleared⟩ := Option.bind_eq_some_iff.mp hat
    exact h.cleared a hab.1 p (List.mem_of_find?_eq_some hp) at_ hcleared
  · exact hoptions

theorem previewQuery_same (h : SameConversations uuid w₀.conversations t db) {a b : Conversation}
    (hab : Found w₀ a b) (u : String) :
    previewQuery u b = { previewQuery u a with conversation := b } := by
  unfold previewQuery
  rw [hab.clearedAt h u]

/-- Previews, each with the newest message of its conversation if there is one. -/
theorem listPreviews_agrees (h : Poised uuid i.now w₀ w v) {u : String} {as bs : List Conversation}
    (habs : List.Forall₂ (Found w₀) as bs) :
    BothPerform uuid i order (r := .listPreviews (as.map (previewQuery u)))
      (q := .listPreviews (bs.map (previewQuery u))) (List.Forall₂ (SamePreview w₀ u))
      (Poised uuid i.now w₀) w v := by
  have hconversations : SameConversations uuid w₀.conversations w.clock v.database :=
    h.sameConversations ▸ h.conversations
  suffices hrun : ∃ previews, (adapter uuid).run (ofInput i order) (listPreviews (bs.map (previewQuery u))) v =
      (.ok previews, v) ∧ List.Forall₂ (SamePreview w₀ u) ((as.map (previewQuery u)).map fun q =>
        (q, w.messages.listByConversation q.conversation.id q.options)) previews by
    obtain ⟨previews, hrun, hsame⟩ := hrun
    unfold BothPerform
    rw [portAdapter_perform, implementation, hrun]
    exact .ok hsame h
  induction habs with
  | nil => exact ⟨[], rfl, .nil⟩
  | @cons a b as bs hab _ ih =>
    obtain ⟨previews, hrest, hsame⟩ := ih
    have hone : Pageable { limit := some (.finite 1) } := by
      refine ⟨fun d hd => ?_, fun d hd => ?_, .inr ⟨1, Nat.one_pos, ?_⟩⟩
      · cases hd
      · cases hd
      · rw [Nat.cast_one]
    have hoptions : Pageable (previewQuery u a).options := hab.pageable hconversations u hone
    have hid : uuid b.id = some b.id := hab.2.id ▸ hconversations.canonical a hab.1
    have hlimit : (previewQuery u a).options.limit = some (.finite 1) := by
      simp only [previewQuery, withCleared]
      split <;> rfl
    have hpage : (adapter uuid).run (ofInput i order)
        (PostgresMessageStore.listByConversation b.id (previewQuery u a).options) v =
          (.ok (w₀.messages.listByConversation a.id (previewQuery u a).options), v) := by
      rw [run_history h hid hoptions, hab.2.id, rtake_newest _ _ hlimit]
    refine ⟨(previewQuery u b, w₀.messages.listByConversation a.id (previewQuery u a).options) :: previews,
      ?_, .cons ⟨a, b, hab, rfl, rfl, ?_⟩ hsame⟩
    · rw [List.map_cons, previewQuery_same hconversations hab u]
      unfold listPreviews
      simp only [Proc.bind_eq_bind, Adapter.run_bind, hpage, hrest]
      rfl
    · rw [h.sameMessages]
      rfl

-- ---------------------------------------------------------------------------
-- The rest of the ports
-- ---------------------------------------------------------------------------

theorem settled_agrees (h : Poised uuid i.now w₀ w v) {a b : Conversation} (hab : Found w₀ a b) :
    BothPerform uuid i order (r := .settled a) (q := .settled b) (Found w₀) (Poised uuid i.now w₀) w v :=
  .ok hab h

theorem newDate_agrees (h : Poised uuid i.now w₀ w v) :
    BothPerform uuid i order (r := .newDate) (q := .newDate) (fun a b => b = a ∧ a = i.now)
      (Poised uuid i.now w₀) w v :=
  .ok ⟨(congrArg toMillis h.clock).trans (toMillis_mul _), h.now⟩ h

theorem publish_agrees (h : SameService uuid w v) (m : Message) :
    BothPerform uuid i order (r := .publish m) (q := .publish m) (fun _ _ => True) (SameService uuid) w v :=
  .ok trivial ⟨h.conversations, h.messages, h.clock, congrArg (· ++ [m]) h.published, h.asked, h.notified⟩

theorem notify_agrees (h : SameService uuid w v) (m : Message) {ids ids' : List String}
    (hids : ids'.Perm ids) : BothPerform uuid i order (r := .notify m ids) (q := .notify m ids')
      (fun _ _ => True) (SameService uuid) w v :=
  .ok trivial ⟨h.conversations, h.messages, h.clock, h.published, h.asked,
    List.rel_append h.notified (.cons ⟨rfl, hids⟩ .nil)⟩

-- ---------------------------------------------------------------------------
-- The methods
-- ---------------------------------------------------------------------------

/-- A program on both sets of adapters. -/
abbrev BothRun (uuid : String → Option String) (i : Jiffy.Input) (order : RowOrder) {α : Type}
    (Q : α → α → Prop) (R : Jiffy.World → World → Prop) (p : Service α) (w : Jiffy.World) (v : World) : Prop :=
  Agree SameFailure Q R (InMemory.adapter.run i p w) ((portAdapter uuid).run (ofInput i order) p v)

theorem awaitParticipant_agrees (h : Poised uuid i.now w₀ w v) {c : String} (hc : uuid c = some c) (u : String) :
    BothRun uuid i order (Found w₀) (Poised uuid i.now w₀) (awaitParticipant c u) w v := by
  unfold BothRun awaitParticipant requireParticipant
  simp only [Proc.bind_eq_bind]
  refine Agree.bind (Agree.bind (findConversation_agrees h hc).awaited id ?_) id fun {a b s t} hab h =>
    (settled_agrees h hab).awaited
  intro found found' s t hfound h
  cases hfound with
  | none => exact .throw (.same _) h
  | @some a b hab =>
    simp only [hab.2.isParticipant]
    split
    · exact .ret hab h
    · exact .throw (.same _) h

theorem createConversation_same (hdue : Due uuid i w₀) (h : Poised uuid i.now w₀ w v)
    (hlater : ∀ c ∈ w₀.conversations.conversations.values, c.createdAt < i.now) (u : String)
    {ids : List String} (hne : ids ≠ []) (hids : Insertable ids) :
    BothRun uuid i order SameUpToOrder (SameService uuid) (createConversation u ids) w v := by
  unfold BothRun createConversation
  simp only [Proc.bind_eq_bind]
  refine Agree.bind (canCreateConversation_agrees hdue h u (.refl _)).awaited Poised.toSameService ?_
  intro allowed allowed' s t hallowed h
  cases hallowed
  cases allowed with
  | false => exact .throw (.same _) h.toSameService
  | true => exact (createConversation_agrees hdue h hlater hne hids).awaited

theorem withPreviews_same {u : String} {xs ys : List (PreviewQuery × List Message)}
    (h : List.Forall₂ (SamePreview w₀ u) xs ys)
    (hconversations : SameConversations uuid w₀.conversations t db) :
    List.Forall₂ SameUpToOrder (withPreviews xs) (withPreviews ys) := by
  refine List.rel_filterMap (R := SamePreview w₀ u) (P := SameUpToOrder) ?_ h
  rintro x y ⟨a, b, hab, hx, hy, hmessages⟩
  rw [previewQuery_same hconversations hab u] at hy
  simp only [hx, hy, hmessages]
  split
  · exact .some ⟨hab.2.id, hab.2.participants, hab.2.createdAt, rfl⟩
  · exact .none

theorem listConversations_same (h : Poised uuid i.now w₀ w v) {u : String} (hu : NulFree u) :
    BothRun uuid i order (List.Forall₂ SameUpToOrder) (SameService uuid) (listConversations u) w v := by
  unfold BothRun listConversations
  simp only [Proc.bind_eq_bind]
  refine Agree.bind (findByParticipant_agrees h hu).awaited Poised.toSameService ?_
  intro as bs s t habs h
  refine Agree.bind (listPreviews_agrees h habs).awaited Poised.toSameService ?_
  intro xs ys s t hxys h
  exact .ret (withPreviews_same hxys (h.sameConversations ▸ h.conversations)) h.toSameService

theorem sendMessage_same (hdue : Due uuid i w₀) (h : Poised uuid i.now w₀ w v)
    (hearlier : ∀ m ∈ w₀.messages.messages, m.createdAt < i.now) {input : SendMessageInput}
    (hc : uuid input.conversationId = some input.conversationId) (hu : NulFree input.senderId)
    (hbody : NulFree input.body) :
    BothRun uuid i order (fun m m' => m' = m) (SameService uuid) (sendMessage input) w v := by
  unfold BothRun sendMessage
  split
  · exact .throw (.same _) h.toSameService
  simp only [Proc.bind_eq_bind]
  refine Agree.bind (awaitParticipant_agrees h hc _) Poised.toSameService ?_
  intro a b s t hab h
  have hids : (b.participants.map fun p => p.userId).Perm (a.participants.map fun p => p.userId) := hab.2.userIds
  refine Agree.bind (canCreateConversation_agrees hdue h _ hids).awaited Poised.toSameService ?_
  intro allowed allowed' s t hallowed h
  cases hallowed
  cases allowed with
  | false => exact .throw (.notAllowed _ hids) h.toSameService
  | true =>
    refine Agree.bind (createMessage_agrees hdue h hearlier hab hu hbody).awaited id ?_
    intro m m' s t hm h
    cases hm
    refine Agree.bind (publish_agrees h m).unawaited id fun _ h => ?_
    exact Agree.bind (notify_agrees h m (hids.filter _)).unawaited id fun _ h => .ret rfl h

theorem listMessages_same (h : Poised uuid i.now w₀ w v) {c : String} (hc : uuid c = some c) (u : String)
    {options : ListMessagesOptions} (hoptions : Pageable options) :
    BothRun uuid i order (fun ms ms' => ms' = ms.rtake (pageCap options)) (SameService uuid)
      (listMessages c u options) w v := by
  unfold BothRun listMessages
  simp only [Proc.bind_eq_bind]
  refine Agree.bind (awaitParticipant_agrees h hc _) Poised.toSameService ?_
  intro a b s t hab h
  have hconversations : SameConversations uuid w₀.conversations s.clock t.database :=
    h.sameConversations ▸ h.conversations
  have hcap : pageCap (withCleared options (clearedAtOf a u)) = pageCap options := by
    unfold withCleared
    split <;> rfl
  rw [hab.clearedAt hconversations u, ← hcap]
  exact (listByConversation_page_agrees h hc (hab.pageable hconversations u hoptions)).awaited.mono id
    Poised.toSameService

theorem deleteMessage_same (hdue : Due uuid i w₀) (h : Poised uuid i.now w₀ w v) {c messageId : String}
    (hc : uuid c = some c) (hid : uuid messageId = some messageId) (u : String) :
    BothRun uuid i order (fun m m' => m' = m) (SameService uuid) (deleteMessage c messageId u) w v := by
  unfold BothRun deleteMessage
  simp only [Proc.bind_eq_bind]
  refine Agree.bind (awaitParticipant_agrees h hc _) Poised.toSameService ?_
  intro a b s t hab h
  refine Agree.bind (findMessage_agrees h hid).awaited Poised.toSameService ?_
  rintro _ found s t ⟨rfl, hfound⟩ h
  cases found with
  | none => exact .throw (.same _) h.toSameService
  | some m =>
    simp only
    split
    · exact .throw (.same _) h.toSameService
    split
    · exact .throw (.same _) h.toSameService
    split
    · exact .ret rfl h.toSameService
    next hlive =>
    refine Agree.bind (newDate_agrees h).unawaited Poised.toSameService ?_
    rintro now _ s t ⟨rfl, rfl⟩ h
    refine Agree.bind (softDelete_agrees h hdue.storable hid hfound.symm (not_not.mp hlive)).awaited id ?_
    intro deleted deleted' s t hdeleted h
    cases hdeleted
    exact Agree.bind (publish_agrees h deleted).unawaited id fun _ h => .ret rfl h

theorem deleteConversation_same (hdue : Due uuid i w₀) (h : Poised uuid i.now w₀ w v) {c u : String}
    (hc : uuid c = some c) (hu : NulFree u) :
    BothRun uuid i order (fun _ _ => True) (SameService uuid) (deleteConversation c u) w v := by
  unfold BothRun deleteConversation
  simp only [Proc.bind_eq_bind]
  refine Agree.bind (awaitParticipant_agrees h hc _) Poised.toSameService ?_
  intro a b s t hab h
  refine Agree.bind (newDate_agrees h).unawaited Poised.toSameService ?_
  rintro now _ s t ⟨rfl, rfl⟩ h
  exact (clear_agrees h hc hu hdue.storable).awaited

theorem markRead_same (h : Poised uuid i.now w₀ w v) {c u : String} {at_ : Date} (hc : uuid c = some c)
    (hu : NulFree u) (hat : Storable at_) :
    BothRun uuid i order (fun _ _ => True) (SameService uuid) (markRead c u at_) w v := by
  unfold BothRun markRead
  simp only [Proc.bind_eq_bind]
  refine Agree.bind (awaitParticipant_agrees h hc _) Poised.toSameService ?_
  exact fun _ h => (markRead_agrees h hc hu hat).awaited

-- ---------------------------------------------------------------------------
-- Operations
-- ---------------------------------------------------------------------------

/-- Arguments that fit the columns of the tables: ids of conversations and
messages in the canonical text in which they are generated, no NUL in a text,
instants in range. A new conversation has participants, nobody twice, and a
listing asks for a page. -/
def Fitting (uuid : String → Option String) : Op → Prop
  | .createConversation _ ids => ids ≠ [] ∧ Insertable ids
  | .getConversation c _ => uuid c = some c
  | .listConversations u => NulFree u
  | .sendMessage input => uuid input.conversationId = some input.conversationId ∧
    NulFree input.senderId ∧ NulFree input.body
  | .listMessages c _ options => uuid c = some c ∧ Pageable options
  | .deleteMessage c messageId _ => uuid c = some c ∧ uuid messageId = some messageId
  | .deleteConversation c u => uuid c = some c ∧ NulFree u
  | .markRead c u at_ => uuid c = some c ∧ NulFree u ∧ Storable at_

/-- The same reply: participants in any order, and of a long history its end. -/
inductive SameReply (op : Op) : Reply → Reply → Prop where
  | conversation {a b : Conversation} (h : SameUpToOrder a b) :
    SameReply op (.conversation a) (.conversation b)
  | conversations {as bs : List Conversation} (h : List.Forall₂ SameUpToOrder as bs) :
    SameReply op (.conversations as) (.conversations bs)
  | message (m : Message) : SameReply op (.message m) (.message m)
  | messages {c u : String} {options : ListMessagesOptions} (hop : op = .listMessages c u options)
    (ms : List Message) : SameReply op (.messages ms) (.messages (ms.rtake (pageCap options)))
  | done : SameReply op .done .done

theorem program_same (hdue : Due uuid i w₀) (h₀ : SameService uuid w₀ v₀) (h : Poised uuid i.now w₀ w v)
    {op : Op} (hop : Fitting uuid op) : BothRun uuid i order (SameReply op) (SameService uuid) op.program w v := by
  cases op with
  | createConversation u ids =>
    have hlater : ∀ c ∈ w₀.conversations.conversations.values, c.createdAt < i.now := fun c hc =>
      (h₀.conversations.past c hc).trans_lt hdue.later
    exact (createConversation_same hdue h hlater u hop.1 hop.2).map .conversation
  | getConversation c u =>
    refine (awaitParticipant_agrees h hop u).map (S := SameReply _) (fun hab => .conversation hab.2) |>.mono id ?_
    exact Poised.toSameService
  | listConversations u => exact (listConversations_same h hop).map .conversations
  | sendMessage input =>
    have hearlier : ∀ m ∈ w₀.messages.messages, m.createdAt < i.now := fun m hm =>
      (h₀.messages.past m hm).trans_lt hdue.later
    refine (sendMessage_same hdue h hearlier hop.1 hop.2.1 hop.2.2).map ?_
    rintro _ m rfl
    exact .message m
  | listMessages c u options =>
    refine (listMessages_same h hop.1 u hop.2).map ?_
    rintro ms _ rfl
    exact .messages rfl ms
  | deleteMessage c messageId u =>
    refine (deleteMessage_same hdue h hop.1 hop.2 u).map ?_
    rintro _ m rfl
    exact .message m
  | deleteConversation c u => exact (deleteConversation_same hdue h hop.1 hop.2).map fun _ => .done
  | markRead c u at_ => exact (markRead_same h hop.1 hop.2.1 hop.2.2).map fun _ => .done

end Calls

-- ---------------------------------------------------------------------------
-- Runs
-- ---------------------------------------------------------------------------

/-- The same result of one operation. -/
inductive SameResult (op : Op) : Except Failure Reply → Except Failure Reply → Prop where
  | error {e e' : Failure} (h : SameFailure e e') : SameResult op (.error e) (.error e')
  | ok {r r' : Reply} (h : SameReply op r r') : SameResult op (.ok r) (.ok r')

section Runs

variable {uuid : String → Option String} {w w' : Jiffy.World} {v : World}

theorem SameService.admissible (h : SameService uuid w v) {i : Jiffy.Input} (hdue : Due uuid i w)
    (order : RowOrder) : admissible uuid (ofInput i order) v = true := by
  have hconversations : ∀ c ∈ w.conversations.conversations.values, c.id ≠ i.uuid := by
    have hnew := hdue.newConversation
    rw [findById_values, List.find?_eq_none] at hnew
    simpa using hnew
  have hmessages : ∀ m ∈ w.messages.messages, m.id ≠ i.uuid := by
    have hnew := hdue.newMessage
    rw [InMemoryMessageStore.findById, List.find?_eq_none] at hnew
    simpa using hnew
  have hclock : v.clock ≤ i.now * 1000 := by
    have hlater := hdue.later
    have hsame := h.clock
    omega
  simp only [Postgres.admissible, Bool.and_eq_true, decide_eq_true_eq, List.all_eq_true]
  refine ⟨⟨⟨hclock, hdue.canonical⟩, ?_⟩, ?_⟩
  · rw [h.conversations.mirrors.records]
    intro r hr
    obtain ⟨c, hc, rfl⟩ := List.mem_map.mp hr
    exact hconversations c hc
  · rw [h.messages.rows]
    intro r hr
    obtain ⟨m, hm, rfl⟩ := List.mem_map.mp hr
    exact hmessages m hm

/-- One call on both. -/
theorem SameService.step (h : SameService uuid w v) {i : Jiffy.Input} {op : Op} (hdue : Due uuid i w)
    (hop : Fitting uuid op) {x : Except Failure Reply}
    (hs : InMemory.machine.step (i, op) w = some (x, w')) (order : RowOrder) :
    ∃ y v', (machine uuid).step (ofInput i order, op) v = some (y, v') ∧ SameService uuid w' v' ∧
      SameResult op x y := by
  obtain ⟨hadm, hrun⟩ : InMemory.admissible i w = true ∧
      InMemory.adapter.run i op.program (InMemory.adapter.tick i w) = (x, w') := by
    simp only [InMemory.machine] at hs
    split at hs
    · next hadm => exact ⟨hadm, Option.some.inj hs⟩
    · cases hs
  have hserve : (machine uuid).step (ofInput i order, op) v = some ((portAdapter uuid).run (ofInput i order)
      op.program ((adapter uuid).tick (ofInput i order) v)) :=
    (if_pos (h.admissible hdue order)).trans (congrArg some (serve_eq uuid _ op v))
  have hboth : BothRun uuid i order (SameReply op) (SameService uuid) op.program _ _ :=
    program_same hdue h (h.poised hdue.later.le order) hop
  unfold BothRun at hboth
  rw [hrun] at hboth
  rw [hserve]
  generalize (portAdapter uuid).run (ofInput i order) op.program ((adapter uuid).tick (ofInput i order) v) =
    result at hboth
  cases hboth with
  | error he hsame => exact ⟨_, _, rfl, hsame, .error he⟩
  | ok hr hsame => exact ⟨_, _, rfl, hsame, .ok hr⟩

theorem sameService_init (clock : Int) : SameService uuid (Jiffy.World.init clock) (.init (clock * 1000)) := by
  have hstore := sameStore_init clock
  refine ⟨⟨hstore.mirrors, hstore.plain, rfl, ?_, ?_, ?_⟩, ⟨rfl, List.nodup_nil, List.nodup_nil, ?_⟩, rfl, rfl,
    .nil, .nil⟩
  all_goals exact fun _ h => by cases h

/-- Every run of the service over the in-memory adapters, with arguments that
fit, goes the same way over the Postgres ones, in whatever order rows come. -/
theorem service_refines {clock : Int} {log : InMemory.Log}
    (h : InMemory.machine.Run (Jiffy.World.init clock) log w)
    (hlog : ∀ e ∈ log, Due uuid e.input.1 e.before ∧ Fitting uuid e.input.2)
    (orders : List RowOrder) (horders : orders.length = log.length) :
    ∃ log' v, (machine uuid).Run (.init (clock * 1000)) log' v ∧ SameService uuid w v ∧
      log'.map Machine.Event.input =
        List.zipWith (fun e order => (ofInput e.input.1 order, e.input.2)) log orders ∧
      List.Forall₂ (fun e e' => SameResult e.input.2 e.output e'.output) log log' := by
  induction h generalizing orders with
  | nil => exact ⟨[], _, .nil, sameService_init clock, by simp, .nil⟩
  | @snoc es t t' i o _ hs ih =>
    obtain ⟨i, op⟩ := i
    obtain ⟨orders, order, rfl⟩ : ∃ os o, orders = os ++ [o] := by
      rcases List.eq_nil_or_concat orders with rfl | ⟨os, o, rfl⟩
      · simp at horders
      · exact ⟨os, o, List.concat_eq_append⟩
    have hlength : orders.length = es.length := by simpa using horders
    obtain ⟨log', v, hrun, hsame, hinputs, hresults⟩ :=
      ih (fun e he => hlog e (List.mem_append_left _ he)) orders hlength
    obtain ⟨hdue, hop⟩ := hlog ⟨t, (i, op), o, t'⟩ (List.mem_append_right _ (List.mem_singleton.mpr rfl))
    obtain ⟨y, v', hs', hsame', hresult⟩ := hsame.step hdue hop hs order
    refine ⟨_, v', hrun.snoc hs', hsame', ?_, List.rel_append hresults (.cons hresult .nil)⟩
    rw [List.map_append, hinputs, List.zipWith_append hlength.symm]
    rfl

/-- Rows the other way round. -/
def backwards : RowOrder := ⟨List.reverse, List.reverse_perm, List.reverse, List.reverse_perm⟩

theorem due_allowAll {now : Int} {id : String} {w : Jiffy.World} (hlater : w.clock < now)
    (hnow : Storable (Date.of now)) (hc : w.conversations.findById id = none)
    (hm : w.messages.findById id = none) : Due some (.allowAll now id) w :=
  ⟨hlater, hnow, rfl, hc, hm, fun _ _ _ _ => rfl⟩

/-- Ann writes to Bob, who reads, and takes it back. -/
theorem service_refines_backwards : ∃ log w log' v, log.length = 5 ∧
    InMemory.machine.Run (Jiffy.World.init 0) log w ∧ (machine some).Run (.init 0) log' v ∧
      List.Forall₂ (fun e e' => SameResult e.input.2 e.output e'.output) log log' := by
  have hrun := (Machine.Run.nil (M := InMemory.machine) (s := Jiffy.World.init 0))
    |>.snoc (i := (.allowAll 1 "c", .createConversation "ann" ["ann", "bob"])) rfl
    |>.snoc (i := (.allowAll 2 "m", .sendMessage ⟨"c", "ann", "hello"⟩)) rfl
    |>.snoc (i := (.allowAll 3 "x", .markRead "c" "bob" (Date.of 3))) rfl
    |>.snoc (i := (.allowAll 4 "x", .deleteMessage "c" "m" "ann")) rfl
    |>.snoc (i := (.allowAll 5 "x", .listMessages "c" "bob" { limit := some (.finite 2) })) rfl
  obtain ⟨log', v, hrun', -, -, hresults⟩ := @service_refines some _ 0 _ hrun (by
    simp only [List.nil_append, List.cons_append, List.forall_mem_cons, List.not_mem_nil,
      false_imp_iff, implies_true, and_true]
    refine ⟨⟨due_allowAll (by decide) ⟨1, rfl, by decide, by decide⟩ rfl rfl, by decide, by decide⟩,
      ⟨due_allowAll (by decide) ⟨2, rfl, by decide, by decide⟩ rfl rfl, rfl, by decide, by decide⟩,
      ⟨due_allowAll (by decide) ⟨3, rfl, by decide, by decide⟩ rfl rfl, rfl, by decide,
        3, rfl, by decide, by decide⟩,
      ⟨due_allowAll (by decide) ⟨4, rfl, by decide, by decide⟩ rfl rfl, rfl, rfl⟩,
      ⟨due_allowAll (by decide) ⟨5, rfl, by decide, by decide⟩ rfl rfl, rfl, nofun, nofun, ?_⟩⟩
    exact .inr ⟨2, by decide, rfl⟩) (List.replicate 5 backwards) rfl
  exact ⟨_, _, log', v, rfl, hrun, hrun', hresults⟩

end Runs

end Postgres

end Jiffy
