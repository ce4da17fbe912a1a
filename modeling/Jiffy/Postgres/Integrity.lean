-- SUMMARY: What holds of the tables in every state that interleaved calls can reach.
import Jiffy.Postgres.Transactions

/-!
# Integrity of the tables

Keys and foreign keys, and that every stored value came through a parameter of
its column's type.
-/

namespace Jiffy

open Js Async

namespace Postgres

variable {uuid : String → Option String} {i : Input} {now : Int} {db db' : Database}

structure Integrity (uuid : String → Option String) (db : Database) : Prop where
  pooled : Pooled db
  keys : (db.participants.map ParticipantRecord.key).Nodup
  canonical : ∀ c ∈ db.conversations, uuid c.id = some c.id
  /-- A row whose conversation is pending is pending in the same transaction. -/
  owned : ∀ p ∈ db.participants, ∃ c ∈ db.conversations, c.id = p.conversationId ∧
    (c.pending = none ∨ c.pending = p.pending)
  users : ∀ p ∈ db.participants, NulFree p.userId
  cleared : ∀ p ∈ db.participants, ∀ t, p.clearedAt = some t →
    ∃ ms, t = ms * 1000 ∧ timestampParam (Date.of ms) = .ok t

theorem integrity_init (uuid : String → Option String) (clock : Int) :
    Integrity uuid (World.init clock).database := by
  constructor <;> try simp [World.init]
  constructor <;> simp

theorem transactionOf_lt (hpool : Pooled db) {client k : Nat} {start : Option Int}
    (hstart : transactionOf db client = start) (hk : (start.map fun _ => client) = some k) :
    k < db.connected := by
  cases start with
  | none => cases hk
  | some t =>
    cases hk
    obtain ⟨c, hfind, -⟩ := Option.bind_eq_some_iff.mp hstart
    have hclient : c.1 = client := by simpa using List.find?_some hfind
    exact hclient ▸ hpool.connections c (List.mem_of_find?_eq_some hfind)

/-- A statement that leaves conversations and connections alone, and the keys
and the origin of every participant. -/
theorem Integrity.participants (h : Integrity uuid db) {f : ParticipantRecord → ParticipantRecord}
    (hf : ∀ p, (f p).key = p.key ∧ (f p).pending = p.pending)
    (hcleared : ∀ p ∈ db.participants, ∀ t, (f p).clearedAt = some t → p.clearedAt = some t ∨
      ∃ ms, t = ms * 1000 ∧ timestampParam (Date.of ms) = .ok t) :
    Integrity uuid { db with participants := db.participants.map f } := by
  have hconv : ∀ p, (f p).conversationId = p.conversationId := fun p => congrArg Prod.fst (hf p).1
  have huser : ∀ p, (f p).userId = p.userId := fun p => congrArg Prod.snd (hf p).1
  refine ⟨⟨h.pooled.connections, h.pooled.conversations, ?_⟩, ?_, h.canonical, ?_, ?_, ?_⟩
  · intro p hp k hk
    obtain ⟨q, hq, rfl⟩ := List.mem_map.mp hp
    exact h.pooled.participants q hq k ((hf q).2 ▸ hk)
  · have hsame : (db.participants.map f).map ParticipantRecord.key =
        db.participants.map ParticipantRecord.key := by
      rw [List.map_map]
      exact List.map_congr_left fun p _ => (hf p).1
    exact hsame ▸ h.keys
  · intro p hp
    obtain ⟨q, hq, rfl⟩ := List.mem_map.mp hp
    rw [hconv, (hf q).2]
    exact h.owned q hq
  · intro p hp
    obtain ⟨q, hq, rfl⟩ := List.mem_map.mp hp
    rw [huser]
    exact h.users q hq
  · intro p hp t ht
    obtain ⟨q, hq, rfl⟩ := List.mem_map.mp hp
    rcases hcleared q hq t ht with ht | ht
    · exact h.cleared q hq t ht
    · exact ht

theorem Integrity.update (h : Integrity uuid db) {k u : String} {f : ParticipantRecord → ParticipantRecord}
    (hf : ∀ p, (f p).key = p.key ∧ (f p).pending = p.pending)
    (hcleared : ∀ p t, (f p).clearedAt = some t → p.clearedAt = some t ∨
      ∃ ms, t = ms * 1000 ∧ timestampParam (Date.of ms) = .ok t) :
    Integrity uuid (updateParticipant db k u f) := by
  refine h.participants (fun p => ?_) fun p _ t ht => ?_
  · split
    · exact hf p
    · exact ⟨rfl, rfl⟩
  · split at ht
    · exact hcleared p t ht
    · exact .inl ht

/-- Statements about messages. -/
theorem Integrity.messages (h : Integrity uuid db) (messages : List MessageRecord) :
    Integrity uuid { db with messages } :=
  ⟨⟨h.pooled.connections, h.pooled.conversations, h.pooled.participants⟩, h.keys, h.canonical, h.owned,
    h.users, h.cleared⟩

theorem Integrity.transaction (h : Integrity uuid db) (client : Nat) (start : Option Int) :
    Integrity uuid (setTransaction db client start) := by
  refine ⟨⟨fun c hc => ?_, h.pooled.conversations, h.pooled.participants⟩, h.keys, h.canonical, h.owned,
    h.users, h.cleared⟩
  obtain ⟨d, hd, rfl⟩ := List.mem_map.mp hc
  have hlt := h.pooled.connections d hd
  split <;> exact hlt

theorem Integrity.commit (h : Integrity uuid db) (client : Nat) : Integrity uuid { db with
    conversations := db.conversations.map fun c =>
      if c.pending = some client then { c with pending := none } else c
    participants := db.participants.map fun p =>
      if p.pending = some client then { p with pending := none } else p } := by
  refine ⟨⟨h.pooled.connections, fun c hc k hk => ?_, fun p hp k hk => ?_⟩, ?_, fun c hc => ?_,
    fun p hp => ?_, fun p hp => ?_, fun p hp t ht => ?_⟩
  · obtain ⟨d, hd, rfl⟩ := List.mem_map.mp hc
    split at hk
    · cases hk
    · exact h.pooled.conversations d hd k hk
  · obtain ⟨q, hq, rfl⟩ := List.mem_map.mp hp
    split at hk
    · cases hk
    · exact h.pooled.participants q hq k hk
  · have hsame : (db.participants.map fun p =>
        if p.pending = some client then { p with pending := none } else p).map ParticipantRecord.key =
          db.participants.map ParticipantRecord.key := by
      rw [List.map_map]
      refine List.map_congr_left fun p _ => ?_
      simp only [Function.comp]
      split <;> rfl
    exact hsame ▸ h.keys
  · obtain ⟨d, hd, rfl⟩ := List.mem_map.mp hc
    have hid := h.canonical d hd
    split <;> exact hid
  · obtain ⟨q, hq, rfl⟩ := List.mem_map.mp hp
    obtain ⟨c, hc, hid, howner⟩ := h.owned q hq
    refine ⟨_, List.mem_map_of_mem hc, ?_, ?_⟩
    · split <;> split <;> exact hid
    · rcases howner with hnone | hsame
      · left
        split <;> simp [hnone]
      · rw [← hsame]
        split <;> simp [hsame]
  · obtain ⟨q, hq, rfl⟩ := List.mem_map.mp hp
    have huser := h.users q hq
    split <;> exact huser
  · obtain ⟨q, hq, rfl⟩ := List.mem_map.mp hp
    have hcleared := h.cleared q hq t
    split at ht <;> exact hcleared ht

theorem Integrity.rollback (h : Integrity uuid db) (client : Nat) : Integrity uuid { db with
    conversations := db.conversations.filter fun c => c.pending ≠ some client
    participants := db.participants.filter fun p => p.pending ≠ some client } := by
  refine ⟨⟨h.pooled.connections, fun c hc => h.pooled.conversations c (List.mem_of_mem_filter hc),
    fun p hp => h.pooled.participants p (List.mem_of_mem_filter hp)⟩,
    h.keys.sublist (List.filter_sublist.map _), fun c hc => h.canonical c (List.mem_of_mem_filter hc),
    fun p hp => ?_, fun p hp => h.users p (List.mem_of_mem_filter hp),
    fun p hp => h.cleared p (List.mem_of_mem_filter hp)⟩
  obtain ⟨hp, hpending⟩ := List.mem_filter.mp hp
  obtain ⟨c, hc, hid, howner⟩ := h.owned p hp
  refine ⟨c, List.mem_filter.mpr ⟨hc, ?_⟩, hid, howner⟩
  rcases howner with hnone | hsame
  · simp [hnone]
  · rw [hsame]
    exact hpending

theorem Integrity.insertConversation (h : Integrity uuid db) (hid : uuid i.uuid = some i.uuid)
    {client : Nat} {rows : List (String × Int)}
    (hexec : Postgres.insertConversation i now db client = .ok (rows, db')) : Integrity uuid db' := by
  unfold Postgres.insertConversation at hexec
  simp only at hexec
  split at hexec
  · cases hexec
  · cases hexec
    refine ⟨⟨h.pooled.connections, fun c hc k hk => ?_, h.pooled.participants⟩, h.keys,
      fun c hc => ?_, fun p hp => ?_, h.users, h.cleared⟩
    · rcases List.mem_append.mp hc with hc | hc
      · exact h.pooled.conversations c hc k hk
      · rw [List.mem_singleton.mp hc] at hk
        exact transactionOf_lt h.pooled rfl hk
    · rcases List.mem_append.mp hc with hc | hc
      · exact h.canonical c hc
      · rw [List.mem_singleton.mp hc]
        exact hid
    · obtain ⟨c, hc, howner⟩ := h.owned p hp
      exact ⟨c, List.mem_append_left _ hc, howner⟩

theorem Integrity.insertParticipants (h : Integrity uuid db) {client : Nat} {k : String}
    {ids : List String} (hexec : Postgres.insertParticipants uuid db client k ids = .ok db') :
    Integrity uuid db' := by
  obtain ⟨id, hid, hinsert⟩ := bind_ok hexec
  obtain ⟨ids', hids, hrows⟩ := bind_ok hinsert
  clear hexec hinsert
  obtain ⟨rfl, hnul⟩ := mapM_textParam_ok hids
  simp only at hrows
  split at hrows
  · cases hrows
  · next hthere =>
    split at hrows
    · next hkeys =>
      cases hrows
      simp only [Bool.not_eq_true, Bool.not_eq_false', List.any_eq_true, decide_eq_true_eq] at hthere
      obtain ⟨c, hc, hcid, howner⟩ := hthere
      refine ⟨⟨h.pooled.connections, h.pooled.conversations, fun p hp k hk => ?_⟩, hkeys, h.canonical,
        fun p hp => ?_, fun p hp => ?_, fun p hp t ht => ?_⟩
      · rcases List.mem_append.mp hp with hp | hp
        · exact h.pooled.participants p hp k hk
        · obtain ⟨u, -, rfl⟩ := List.mem_map.mp hp
          exact transactionOf_lt h.pooled rfl hk
      · rcases List.mem_append.mp hp with hp | hp
        · exact h.owned p hp
        · obtain ⟨u, -, rfl⟩ := List.mem_map.mp hp
          exact ⟨c, hc, hcid, howner⟩
      · rcases List.mem_append.mp hp with hp | hp
        · exact h.users p hp
        · obtain ⟨u, hu, rfl⟩ := List.mem_map.mp hp
          exact hnul u hu
      · rcases List.mem_append.mp hp with hp | hp
        · exact h.cleared p hp t ht
        · obtain ⟨u, -, rfl⟩ := List.mem_map.mp hp
          cases ht
    · cases hrows

/-- Every statement keeps the integrity of the tables. -/
theorem Integrity.execute (h : Integrity uuid db) (hid : uuid i.uuid = some i.uuid) {s : Statement}
    {rows : s.Rows} (hexec : execute uuid i now db s = .ok (rows, db')) : Integrity uuid db' := by
  cases s with
  | begin client => cases hexec; exact h.transaction client _
  | commit client => cases hexec; exact (h.transaction client none).commit client
  | rollback client => cases hexec; exact (h.transaction client none).rollback client
  | insertConversation client => exact h.insertConversation hid hexec
  | insertParticipants client k ids =>
    obtain ⟨db₁, hdb, hexec⟩ := bind_ok hexec
    cases hexec
    exact h.insertParticipants hdb
  | selectConversation k =>
    obtain ⟨_, -, hexec⟩ := bind_ok hexec
    cases hexec
    exact h
  | selectConversationsOf u =>
    obtain ⟨_, -, hexec⟩ := bind_ok hexec
    cases hexec
    exact h
  | updateLastReadAt d c u =>
    obtain ⟨t, -, hexec⟩ := bind_ok hexec
    obtain ⟨_, -, hexec⟩ := bind_ok hexec
    obtain ⟨_, -, hexec⟩ := bind_ok hexec
    cases hexec
    exact h.update (fun _ => ⟨rfl, rfl⟩) fun _ _ ht => .inl ht
  | updateClearedAt d c u =>
    obtain ⟨t, ht, hexec⟩ := bind_ok hexec
    obtain ⟨_, -, hexec⟩ := bind_ok hexec
    obtain ⟨_, -, hexec⟩ := bind_ok hexec
    cases hexec
    refine h.update (fun _ => ⟨rfl, rfl⟩) fun _ t' ht' => .inr ?_
    cases ht'
    obtain ⟨ms, hms, rfl⟩ := timestampParam_ok ht
    cases d
    cases hms
    exact ⟨ms, rfl, ht⟩
  | insertMessage c u body =>
    obtain ⟨_, _, -, -, -, rfl⟩ := execute_insertMessage hexec
    exact h.messages _
  | selectMessage k =>
    obtain ⟨_, -, hexec⟩ := bind_ok hexec
    cases hexec
    exact h
  | updateDeleted k d =>
    obtain ⟨_, -, hexec⟩ := bind_ok hexec
    obtain ⟨_, -, hexec⟩ := bind_ok hexec
    cases hexec
    exact h.messages _
  | selectHistory query =>
    obtain ⟨_, -, hexec⟩ := bind_ok hexec
    cases hexec
    exact h

theorem Integrity.perform {w : World} (h : Integrity uuid w.database) (hid : uuid i.uuid = some i.uuid)
    (r : ServerCall) : Integrity uuid (perform uuid i r w).2.database := by
  cases r with
  | query s =>
    rcases perform_query_world uuid i w s with hsame | ⟨rows, db, hexec, hdb⟩
    · rw [hsame]
      exact h
    · rw [hdb]
      exact h.execute hid hexec
  | connect =>
    refine ⟨⟨fun c hc => ?_, fun c hc k hk => ?_, fun p hp k hk => ?_⟩, h.keys, h.canonical, h.owned,
      h.users, h.cleared⟩
    · rcases List.mem_append.mp hc with hc | hc
      · exact Nat.lt_succ_of_lt (h.pooled.connections c hc)
      · rw [List.mem_singleton.mp hc]
        exact Nat.lt_succ_self _
    · exact Nat.lt_succ_of_lt (h.pooled.conversations c hc k hk)
    · exact Nat.lt_succ_of_lt (h.pooled.participants p hp k hk)
  | release client =>
    exact ⟨⟨fun c hc => h.pooled.connections c (List.mem_of_mem_filter hc), h.pooled.conversations,
      h.pooled.participants⟩, h.keys, h.canonical, h.owned, h.users, h.cleared⟩
  | canCreateConversation | newDate | publish | notify | handleUpgrade | register | unregister
    | socketsOf | isOpen | send => exact h

theorem admissible_canonical {w : World} (h : admissible uuid i w = true) : uuid i.uuid = some i.uuid := by
  simp only [admissible, Bool.and_eq_true, decide_eq_true_eq] at h
  exact h.1.1.2

/-- The tables in every state that interleaved calls of the service reach. -/
theorem integrity_runs {clock : Int} {ls : List (Label Input Op)}
    {c : Config server Failure Reply World Op}
    (h : (system uuid).runs (.idle (.init clock)) ls = some c) : Integrity uuid c.world.database :=
  System.runs_inv (I := fun w => Integrity uuid w.database) (fun _ _ h => h)
    (fun _ _ _ heq h => by cases heq; exact h)
    (fun _ _ hadm r _ h => h.perform (admissible_canonical hadm) r) h (integrity_init uuid clock)

end Postgres

end Jiffy
