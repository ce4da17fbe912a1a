-- SUMMARY: Both conversation stores under the same calls: they answer the same, whatever order rows come in.
import Jiffy.Postgres.ConversationRows

/-!
# Two conversation stores

One call after another on the map of the in-memory store, and on the tables
through the statements of the Postgres store.
-/

namespace Jiffy

open Js Async

/-- A call of a conversation store. -/
inductive StoreCall where
  | create (participantIds : List String)
  | findById (id : String)
  | findByParticipant (userId : String)
  | markRead (conversationId userId : String) (at_ : Date)
  | clear (conversationId userId : String) (at_ : Int)

/-- The record that a call writes to. -/
def StoreCall.target : StoreCall → Option (String × String)
  | .markRead conversationId userId _ | .clear conversationId userId _ => some (conversationId, userId)
  | _ => none

inductive StoreAnswer where
  | conversation (conversation : Conversation)
  | found (conversation : Option Conversation)
  | conversations (conversations : List Conversation)
  | done

/-- What the environment supplies to a call: the clock in milliseconds, the
generated id, and the order in which rows come. -/
structure StoreInput where
  now : Int
  uuid : String
  order : RowOrder

namespace InMemoryConversationStore

/-- The in-memory store, one call after another. -/
def machine : Machine InMemoryConversationStore (StoreInput × StoreCall) StoreAnswer where
  step x store :=
    match x.2 with
    | .create participantIds =>
      let (conversation, store) := store.create x.1.uuid x.1.now participantIds
      some (.conversation conversation, store)
    | .findById id => some (.found (store.findById id), store)
    | .findByParticipant userId => some (.conversations (store.findByParticipant userId), store)
    | .markRead conversationId userId at_ => some (.done, store.markRead conversationId userId at_)
    | .clear conversationId userId at_ => some (.done, store.clear conversationId userId at_)

end InMemoryConversationStore

namespace Postgres

def storeProgram : StoreCall → StoreMethod StoreAnswer
  | .create participantIds => do
    let conversation ← PostgresConversationStore.create participantIds
    return .conversation conversation
  | .findById id => do
    let found ← PostgresConversationStore.findById id
    return .found found
  | .findByParticipant userId => do
    let conversations ← PostgresConversationStore.findByParticipant userId
    return .conversations conversations
  | .markRead conversationId userId at_ => do
    PostgresConversationStore.markRead conversationId userId at_
    return .done
  | .clear conversationId userId at_ => do
    PostgresConversationStore.clear conversationId userId at_
    return .done

/-- A turn in which nothing fails. -/
def ofStoreInput (i : StoreInput) : Input :=
  ⟨i.now * 1000, i.uuid, fun _ _ => .ok true, fun _ => none, i.order⟩

/-- The Postgres store, one call after another. -/
def storeMachine (uuid : String → Option String) :
    Machine World (StoreInput × StoreCall) (Except Failure StoreAnswer) where
  step x w :=
    let i := ofStoreInput x.1
    some ((adapter uuid).run i (storeProgram x.2) ((adapter uuid).tick i w))

-- ---------------------------------------------------------------------------
-- Writes
-- ---------------------------------------------------------------------------

section Writes

variable {store : InMemoryConversationStore} {db : Database} {c u : String}
  {f : ConversationParticipant → ConversationParticipant} {g : ParticipantRecord → ParticipantRecord}

theorem findById_values (store : InMemoryConversationStore) (k : String) :
    store.findById k = store.conversations.values.find? fun c => c.id = k := by
  apply Option.ext
  intro c
  have hiff : store.findById k = some c ↔ c ∈ store.conversations.values ∧ c.id = k := by
    rw [OrderedMap.mem_values_iff]
    constructor
    · exact fun h => ⟨⟨k, h⟩, store.keyed h⟩
    · rintro ⟨⟨k', h⟩, rfl⟩
      rw [store.keyed h]
      exact h
  rw [hiff]
  constructor
  · rintro ⟨hc, rfl⟩
    have hone := filter_key store.nodup_ids hc
    rw [← List.head?_filter, hone]
    rfl
  · intro h
    exact ⟨List.mem_of_find?_eq_some h, by simpa using List.find?_some h⟩

theorem values_updateParticipant : (store.updateParticipant c u f).conversations.values =
    store.conversations.values.map fun x => if x.id = c then x.mutateParticipant u f else x := by
  unfold OrderedMap.values
  rw [InMemoryConversationStore.entries_updateParticipant, List.map_map, List.map_map]
  refine List.map_congr_left fun e he => ?_
  have hid := store.keyed (OrderedMap.get_of_mem_entries he)
  simp only [Function.comp, hid]
  split <;> rfl

/-- A record and a row that are written alike stay alike. -/
theorem mirrors_updateParticipant (hm : Mirrors store.conversations.values db)
    (h : Plain store.conversations.values)
    (hfg : ∀ id p, participantRecord id (f p) = g (participantRecord id p)) :
    Mirrors (store.updateParticipant c u f).conversations.values (updateParticipant db c u g) := by
  refine ⟨?_, ?_⟩
  · rw [values_updateParticipant, List.map_map]
    refine hm.records.trans (List.map_congr_left fun x _ => ?_)
    simp only [Function.comp]
    split <;> rfl
  · rw [values_updateParticipant, List.flatMap_map]
    unfold updateParticipant
    simp only [hm.members, List.map_flatMap]
    refine List.flatMap_congr fun x hx => ?_
    unfold participantRecords
    rw [List.map_map]
    split
    · next hid =>
      have husers : (x.participants.map fun p => p.userId).Nodup := h.users x hx
      unfold Conversation.mutateParticipant
      simp only [mutateFirst_eq_map husers, List.map_map]
      refine List.map_congr_left fun p _ => ?_
      by_cases hu : p.userId = u
      · simp only [Function.comp, hu, if_true, hfg]
        exact if_pos ⟨rfl, hid, hu⟩
      · simp only [Function.comp, hu, if_false]
        exact if_neg fun hp => hu hp.2.2
    · next hid =>
      refine List.map_congr_left fun p _ => ?_
      exact if_neg fun hp => hid hp.2.1

theorem plain_updateParticipant (h : Plain store.conversations.values) (hf : ∀ p, (f p).userId = p.userId)
    (hdates : ∀ p d, (f p).lastReadAt = some d → p.lastReadAt = some d ∨ ∃ t, d = Date.of t) :
    Plain (store.updateParticipant c u f).conversations.values := by
  have hmem : ∀ x ∈ (store.updateParticipant c u f).conversations.values,
      ∃ y ∈ store.conversations.values, x = y ∨ x = y.mutateParticipant u f := by
    intro x hx
    rw [values_updateParticipant] at hx
    obtain ⟨y, hy, rfl⟩ := List.mem_map.mp hx
    refine ⟨y, hy, ?_⟩
    split
    · exact .inr rfl
    · exact .inl rfl
  refine ⟨InMemoryConversationStore.nodup_ids _, ?_, fun x hx => ?_, fun x hx => ?_, fun x hx => ?_, fun x hx p hp d hd => ?_⟩
  · have hsame : (store.updateParticipant c u f).conversations.values.map (fun x => x.createdAt) =
        store.conversations.values.map fun x => x.createdAt := by
      rw [values_updateParticipant, List.map_map]
      refine List.map_congr_left fun x _ => ?_
      simp only [Function.comp]
      split <;> rfl
    rw [hsame]
    exact h.times
  · obtain ⟨y, hy, rfl | rfl⟩ := hmem x hx
    · exact h.members _ hy
    · intro hnil
      have hlength := congrArg List.length (@userIds_mutateParticipant y u f hf)
      simp only [Conversation.userIds, List.length_map, hnil, List.length_nil] at hlength
      exact h.members y hy (List.length_eq_zero_iff.mp hlength.symm)
  · obtain ⟨y, hy, rfl | rfl⟩ := hmem x hx
    · exact h.users _ hy
    · rw [userIds_mutateParticipant hf]
      exact h.users y hy
  · obtain ⟨y, hy, rfl | rfl⟩ := hmem x hx
    · exact h.bare _ hy
    · exact h.bare y hy
  · obtain ⟨y, hy, rfl | rfl⟩ := hmem x hx
    · exact h.dates _ hy p hp d hd
    · rcases mem_mutateFirst hp with hp | ⟨q, hq, -, rfl⟩
      · exact h.dates y hy p hp d hd
      · rcases hdates q d hd with hd | hd
        · exact h.dates y hy q hq d hd
        · exact hd

/-- A record that is not there is not written. -/
theorem updateParticipant_unknown (hm : Mirrors store.conversations.values db)
    (hunknown : ¬ ∃ conversation, store.findById c = some conversation ∧
      isParticipant conversation u = true) :
    store.updateParticipant c u f = store ∧ updateParticipant db c u g = db := by
  have hnone : ∀ x ∈ store.conversations.values, x.id = c → ¬ isParticipant x u = true := by
    rintro x hx rfl hu
    obtain ⟨k, hk⟩ := OrderedMap.mem_values_iff.mp hx
    exact hunknown ⟨x, store.keyed hk ▸ hk, hu⟩
  constructor
  · unfold InMemoryConversationStore.updateParticipant
    split
    · rfl
    · next conversation hc =>
      split
      · rfl
      · next p hp =>
        have hu : isParticipant conversation u = true := by
          rw [isParticipant_iff]
          have huser : p.userId = u := by simpa using List.find?_some hp
          exact huser ▸ List.mem_map_of_mem (f := fun p => p.userId) (List.mem_of_find?_eq_some hp)
        exact absurd ⟨conversation, hc, hu⟩ hunknown
  · unfold updateParticipant
    rw [List.map_congr_left (g := id), List.map_id]
    intro p hp
    rw [hm.members] at hp
    obtain ⟨x, hx, hp⟩ := List.mem_flatMap.mp hp
    obtain ⟨q, hq, rfl⟩ := List.mem_map.mp hp
    refine if_neg fun hkey => hnone x hx hkey.2.1 ?_
    rw [isParticipant_iff, ← hkey.2.2]
    exact List.mem_map_of_mem (f := fun p => p.userId) hq

end Writes

-- ---------------------------------------------------------------------------
-- The two stores, call by call
-- ---------------------------------------------------------------------------

/-- What the calls of the comparison are: new conversations have participants,
no user twice, a new id and a later instant; ids are written the way they are
generated, and the values of all parameters fit their columns. -/
def Fits (uuid : String → Option String) (store : InMemoryConversationStore) (x : StoreInput × StoreCall) :
    Prop :=
  match x.2 with
  | .create participantIds => participantIds ≠ [] ∧ Insertable participantIds ∧
    uuid x.1.uuid = some x.1.uuid ∧ store.findById x.1.uuid = none ∧
      ∀ c ∈ store.conversations.values, c.createdAt < x.1.now
  | .findById id => uuid id = some id
  | .findByParticipant userId => NulFree userId
  | .markRead conversationId userId at_ =>
    uuid conversationId = some conversationId ∧ NulFree userId ∧ Storable at_
  | .clear conversationId userId at_ =>
    uuid conversationId = some conversationId ∧ NulFree userId ∧ Storable (Date.of at_)

/-- The same answer, participants in any order. -/
inductive SameAnswer : StoreAnswer → Except Failure StoreAnswer → Prop where
  | conversation {c c' : Conversation} (h : SameUpToOrder c c') :
    SameAnswer (.conversation c) (.ok (.conversation c'))
  | found {c c' : Option Conversation} (h : Option.Rel SameUpToOrder c c') :
    SameAnswer (.found c) (.ok (.found c'))
  | conversations {cs cs' : List Conversation} (h : List.Forall₂ SameUpToOrder cs cs') :
    SameAnswer (.conversations cs) (.ok (.conversations cs'))
  | done : SameAnswer .done (.ok .done)

abbrev MapEvent : Type := Machine.Event InMemoryConversationStore (StoreInput × StoreCall) StoreAnswer

abbrev TableEvent : Type := Machine.Event World (StoreInput × StoreCall) (Except Failure StoreAnswer)

/-- The same call with the same answer, which does nothing in either store when
its record is not there. -/
structure Agrees (e : MapEvent) (e' : TableEvent) : Prop where
  input : e'.input = e.input
  answer : SameAnswer e.output e'.output
  noop : ∀ c u, e.input.2.target = some (c, u) →
    (¬ ∃ conversation, e.before.findById c = some conversation ∧ isParticipant conversation u = true) →
      e.after = e.before ∧ e'.after.database = e'.before.database

/-- The tables hold what the map holds, and no connection is in use. -/
structure SameStore (store : InMemoryConversationStore) (w : World) : Prop where
  mirrors : Mirrors store.conversations.values w.database
  plain : Plain store.conversations.values
  idle : w.database.connections = []

variable {uuid : String → Option String} {store store' : InMemoryConversationStore} {w : World}
  {x : StoreInput × StoreCall} {answer : StoreAnswer}

theorem SameStore.pooled (h : SameStore store w) : Pooled w.database := by
  refine ⟨fun c hc => ?_, fun c hc k hk => ?_, fun p hp k hk => ?_⟩
  · rw [h.idle] at hc
    cases hc
  · rw [h.mirrors.records] at hc
    obtain ⟨d, -, rfl⟩ := List.mem_map.mp hc
    cases hk
  · rw [h.mirrors.members] at hp
    obtain ⟨d, -, hp⟩ := List.mem_flatMap.mp hp
    obtain ⟨q, -, rfl⟩ := List.mem_map.mp hp
    cases hk

theorem SameStore.keys (h : SameStore store w) :
    (w.database.participants.map ParticipantRecord.key).Nodup := by
  have hkeys : ∀ c : Conversation, (participantRecords c).map ParticipantRecord.key =
      c.userIds.map fun u => (c.id, u) := by
    intro c
    simp only [participantRecords, Conversation.userIds, List.map_map]
    rfl
  simp only [h.mirrors.members, List.map_flatMap, hkeys]
  refine List.nodup_flatMap.mpr ⟨fun c hc => ?_, ?_⟩
  · exact (h.plain.users c hc).map fun _ _ h => congrArg Prod.snd h
  · refine (List.pairwise_map.mp h.plain.ids).imp fun hne => ?_
    rintro _ hk hk'
    obtain ⟨u, -, rfl⟩ := List.mem_map.mp hk
    obtain ⟨v, -, hv⟩ := List.mem_map.mp hk'
    exact hne (congrArg Prod.fst hv).symm

theorem SameStore.fresh (h : SameStore store w) {i : Input} (hid : uuid i.uuid = some i.uuid)
    (hnew : store.findById i.uuid = none) : Fresh uuid i w.database := by
  have hne : ∀ c ∈ store.conversations.values, c.id ≠ i.uuid := by
    intro c hc
    rw [findById_values, List.find?_eq_none] at hnew
    simpa using hnew c hc
  refine ⟨hid, fun r hr => ?_, fun p hp => ?_⟩
  · rw [h.mirrors.records] at hr
    obtain ⟨c, hc, rfl⟩ := List.mem_map.mp hr
    exact hne c hc
  · rw [h.mirrors.members] at hp
    obtain ⟨c, hc, hp⟩ := List.mem_flatMap.mp hp
    obtain ⟨q, -, rfl⟩ := List.mem_map.mp hp
    exact hne c hc

/-- A new conversation goes to the end of the map. -/
theorem values_create {i : StoreInput} {ids : List String} (hnew : store.findById i.uuid = none) :
    (store.create i.uuid i.now ids).2.conversations.values = store.conversations.values ++
      [InMemoryConversationStore.newConversation i.uuid i.now ids] := by
  have hentries := OrderedMap.entries_set_of_none (v := InMemoryConversationStore.newConversation i.uuid
    i.now ids) hnew
  unfold OrderedMap.values
  refine (congrArg (List.map Prod.snd) hentries).trans ?_
  rw [List.map_append]
  rfl

theorem SameStore.create (h : SameStore store w) {i : StoreInput} {ids : List String}
    (hne : ids ≠ []) (hids : Insertable ids) (hnew : store.findById i.uuid = none)
    (hlater : ∀ c ∈ store.conversations.values, c.createdAt < i.now) :
    SameStore (store.create i.uuid i.now ids).2
      { w with clock := i.now * 1000, database := created w.database i.uuid (i.now * 1000) ids } := by
  have hvalues := @values_create _ _ ids hnew
  refine ⟨⟨?_, ?_⟩, ⟨InMemoryConversationStore.nodup_ids _, ?_, ?_, ?_, ?_, ?_⟩, h.idle⟩
  · rw [hvalues, List.map_append, ← h.mirrors.records]
    rfl
  · rw [hvalues, List.flatMap_append, ← h.mirrors.members]
    simp only [created, newRecords, InMemoryConversationStore.newConversation, List.flatMap_cons,
      List.flatMap_nil, List.append_nil, participantRecords, List.map_map]
    rfl
  · rw [hvalues, List.map_append, List.pairwise_append]
    refine ⟨h.plain.times, List.pairwise_singleton _ _, fun t ht t' ht' => ?_⟩
    obtain ⟨c, hc, rfl⟩ := List.mem_map.mp ht
    rw [List.map_singleton, List.mem_singleton] at ht'
    exact ht' ▸ hlater c hc
  all_goals
    rw [hvalues]
    simp only [List.forall_mem_append, List.forall_mem_singleton]
  · exact ⟨h.plain.members, by simpa [InMemoryConversationStore.newConversation] using hne⟩
  · refine ⟨h.plain.users, ?_⟩
    simpa [InMemoryConversationStore.newConversation, Conversation.userIds, Function.comp_def]
      using hids.2
  · exact ⟨h.plain.bare, rfl⟩
  · refine ⟨h.plain.dates, fun p hp d hd => ?_⟩
    obtain ⟨u, -, rfl⟩ := List.mem_map.mp hp
    cases hd

/-- A write to one record, on both stores. -/
theorem SameStore.update (h : SameStore store w) {c u : String} {now : Int}
    {f : ConversationParticipant → ConversationParticipant} {g : ParticipantRecord → ParticipantRecord}
    (hfg : ∀ id p, participantRecord id (f p) = g (participantRecord id p))
    (hf : ∀ p, (f p).userId = p.userId)
    (hdates : ∀ p d, (f p).lastReadAt = some d → p.lastReadAt = some d ∨ ∃ t, d = Date.of t) :
    SameStore (store.updateParticipant c u f)
      { w with clock := now, database := updateParticipant w.database c u g } :=
  ⟨mirrors_updateParticipant h.mirrors h.plain hfg, plain_updateParticipant h.plain hf hdates, h.idle⟩

theorem SameStore.clock (h : SameStore store w) (now : Int) : SameStore store { w with clock := now } :=
  ⟨h.mirrors, h.plain, h.idle⟩

theorem run_answer {α : Type} {i : Input} {p : StoreMethod α} {f : α → StoreAnswer} {a : α}
    {w' : World} (h : (adapter uuid).run i p w = (.ok a, w')) :
    (adapter uuid).run i (p.bind fun a => .ret (f a)) w = (.ok (f a), w') := by
  rw [Adapter.run_map, h]
  rfl

/-- One call on both stores. -/
theorem SameStore.step (h : SameStore store w) (hx : Fits uuid store x)
    (hs : InMemoryConversationStore.machine.step x store = some (answer, store')) :
    ∃ x' answer' w', (storeMachine uuid).step x' w = some (answer', w') ∧ SameStore store' w' ∧
      Agrees ⟨store, x, answer, store'⟩ ⟨w, x', answer', w'⟩ := by
  obtain ⟨i, call⟩ := x
  have hfault : ∀ s, (ofStoreInput i).fault s = none := fun _ => rfl
  have hw : SameStore store { w with clock := i.now * 1000 } := h.clock _
  suffices hstep : ∃ answer' w', (adapter uuid).run (ofStoreInput i) (storeProgram call)
      { w with clock := i.now * 1000 } = (answer', w') ∧ SameStore store' w' ∧
        Agrees ⟨store, (i, call), answer, store'⟩ ⟨w, (i, call), answer', w'⟩ by
    obtain ⟨answer', w', hrun, hrest⟩ := hstep
    exact ⟨(i, call), answer', w', congrArg some hrun, hrest⟩
  cases call with
  | create ids =>
    cases hs
    obtain ⟨hne, hids, hid, hnew, hlater⟩ := hx
    rcases run_create hfault hw.pooled (hw.fresh hid hnew) hw.keys ids with ⟨-, hrun⟩ | ⟨hbad, -⟩
    · refine ⟨_, _, run_answer hrun, h.create hne hids hnew hlater, rfl, ?_, fun _ _ h => by cases h⟩
      exact .conversation ⟨rfl, .refl _, toMillis_mul _, rfl⟩
    · exact absurd hids hbad
  | findById k =>
    cases hs
    obtain ⟨found, hrun, hsame⟩ := findById_same hfault hw.mirrors hw.plain hx
    refine ⟨_, _, run_answer hrun, hw, rfl, ?_, fun _ _ h => by cases h⟩
    rw [findById_values]
    exact .found hsame
  | findByParticipant u =>
    cases hs
    obtain ⟨found, hrun, hsame⟩ := findByParticipant_same hfault hw.mirrors hw.plain hx
    exact ⟨_, _, run_answer hrun, hw, rfl, .conversations hsame, fun _ _ h => by cases h⟩
  | markRead c u d =>
    cases hs
    obtain ⟨hc, hu, hd⟩ := hx
    obtain ⟨t, rfl, ht⟩ := timestampParam_storable hd
    have hexec : execute uuid (ofStoreInput i) (i.now * 1000) w.database
        (.updateLastReadAt (Date.of t) c u) = .ok ((), updateParticipant w.database c u fun p =>
          { p with lastReadAt := some (t * 1000) }) := by
      simp only [execute, ht, uuidParam, hc, textParam_of hu]
      rfl
    have hrun := query_resolves (w := { w with clock := i.now * 1000 }) (hfault _) hexec
    refine ⟨_, _, run_answer (f := fun _ => .done) hrun, ?_, rfl, .done, fun c' u' htarget hunknown => ?_⟩
    · exact h.update (fun _ _ => rfl) (fun _ => rfl) fun p d hd => .inr ⟨t, (Option.some.inj hd).symm⟩
    · cases htarget
      exact updateParticipant_unknown h.mirrors hunknown
  | clear c u t =>
    cases hs
    obtain ⟨hc, hu, hd⟩ := hx
    obtain ⟨t', ht', ht⟩ := timestampParam_storable hd
    cases ht'
    have hexec : execute uuid (ofStoreInput i) (i.now * 1000) w.database
        (.updateClearedAt (Date.of t) c u) = .ok ((), updateParticipant w.database c u fun p =>
          { p with clearedAt := some (t * 1000) }) := by
      simp only [execute, ht, uuidParam, hc, textParam_of hu]
      rfl
    have hrun := query_resolves (w := { w with clock := i.now * 1000 }) (hfault _) hexec
    refine ⟨_, _, run_answer (f := fun _ => .done) hrun, ?_, rfl, .done, fun c' u' htarget hunknown => ?_⟩
    · exact h.update (fun _ _ => rfl) (fun _ => rfl) fun p d hd => .inl hd
    · cases htarget
      exact updateParticipant_unknown h.mirrors hunknown

theorem sameStore_init (clock : Int) : SameStore .empty (.init clock) :=
  ⟨⟨rfl, rfl⟩, ⟨List.nodup_nil, .nil, by simp [InMemoryConversationStore.empty, OrderedMap.values,
    OrderedMap.empty], by simp [InMemoryConversationStore.empty, OrderedMap.values, OrderedMap.empty],
    by simp [InMemoryConversationStore.empty, OrderedMap.values, OrderedMap.empty],
    by simp [InMemoryConversationStore.empty, OrderedMap.values, OrderedMap.empty]⟩, rfl⟩

/-- The stores agree on every sequence of calls whose parameters fit. -/
theorem stores_agree {clock : Int} {log : List MapEvent}
    (h : InMemoryConversationStore.machine.Run .empty log store)
    (hfits : ∀ e ∈ log, Fits uuid e.before e.input) :
    ∃ log' w, (storeMachine uuid).Run (.init clock) log' w ∧ List.Forall₂ Agrees log log' := by
  obtain ⟨log', w, hrun, -, hagrees⟩ :=
    h.matched (P := Fits uuid) SameStore.step (sameStore_init clock) hfits
  exact ⟨log', w, hrun, hagrees⟩

/-- Ann and bob, and what bob reads and clears. -/
theorem stores_agree_two : ∃ log store log' w,
    InMemoryConversationStore.machine.Run .empty log store ∧ log.length = 4 ∧
      (storeMachine some).Run (.init 0) log' w ∧ List.Forall₂ Agrees log log' := by
  have hrun := (Machine.Run.nil (M := InMemoryConversationStore.machine) (s := .empty))
    |>.snoc (i := (⟨1, "c", .stored⟩, .create ["ann", "bob"])) rfl
    |>.snoc (i := (⟨2, "x", .stored⟩, .markRead "c" "bob" (Date.of 2))) rfl
    |>.snoc (i := (⟨3, "x", .stored⟩, .clear "c" "eve" 3)) rfl
    |>.snoc (i := (⟨4, "x", .stored⟩, .findByParticipant "bob")) rfl
  obtain ⟨log', w, hrun', hagrees⟩ := @stores_agree some _ 0 _ hrun (by
    simp only [List.nil_append, List.cons_append, List.forall_mem_cons, List.not_mem_nil,
      false_imp_iff, implies_true, and_true]
    refine ⟨⟨by decide, by decide, rfl, rfl, ?_⟩, ⟨rfl, by decide, 2, rfl, by decide, by decide⟩,
      ⟨rfl, by decide, 3, rfl, by decide, by decide⟩, (by decide : NulFree "bob")⟩
    exact fun c hc => by cases hc)
  exact ⟨_, _, log', w, hrun, rfl, hrun', hagrees⟩

/-- An id in upper case, an invalid `Date`, and a NUL. -/
theorem stores_disagree : ∃ log store log' w,
    InMemoryConversationStore.machine.Run .empty log store ∧
    (storeMachine canonicalUuid).Run (.init 0) log' w ∧
    log'.map Machine.Event.input = log.map Machine.Event.input ∧
    canonicalUuid "0A000000-0000-4000-8000-000000000000" = some "0a000000-0000-4000-8000-000000000000" ∧
    (log.map Machine.Event.output).drop 1 = [.found none, .done, .conversations []] ∧
    ∃ c e₁ e₂, (log'.map Machine.Event.output).drop 1 =
      [.ok (.found (some c)), .error e₁, .error e₂] := by
  have hrun := (Machine.Run.nil (M := InMemoryConversationStore.machine) (s := .empty))
    |>.snoc (i := (⟨1, "0a000000-0000-4000-8000-000000000000", .stored⟩, .create ["ann"])) rfl
    |>.snoc (i := (⟨2, "x", .stored⟩, .findById "0A000000-0000-4000-8000-000000000000")) rfl
    |>.snoc (i := (⟨3, "x", .stored⟩,
      .markRead "0a000000-0000-4000-8000-000000000000" "ann" ⟨none⟩)) rfl
    |>.snoc (i := (⟨4, "x", .stored⟩, .findByParticipant "\x00")) rfl
  have hrun' := (Machine.Run.nil (M := storeMachine canonicalUuid) (s := .init 0))
    |>.snoc (i := (⟨1, "0a000000-0000-4000-8000-000000000000", .stored⟩, .create ["ann"])) rfl
    |>.snoc (i := (⟨2, "x", .stored⟩, .findById "0A000000-0000-4000-8000-000000000000")) rfl
    |>.snoc (i := (⟨3, "x", .stored⟩,
      .markRead "0a000000-0000-4000-8000-000000000000" "ann" ⟨none⟩)) rfl
    |>.snoc (i := (⟨4, "x", .stored⟩, .findByParticipant "\x00")) rfl
  exact ⟨_, _, _, _, hrun, hrun', rfl, rfl, rfl, _, _, _, rfl⟩

end Postgres

end Jiffy
