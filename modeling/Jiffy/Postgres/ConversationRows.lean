-- SUMMARY: Conversations as rows of two tables, and what the join of these rows reads back, in whatever order it comes.
import Jiffy.Postgres.HistoryPage
import Jiffy.Postgres.RowGrouping
import Jiffy.Postgres.Transactions

/-!
# Conversations as rows

A conversation is a row of its own and one for each participant. The join hands
these over in any order that the query leaves open, and grouping them gives the
conversation back, with its participants in that order.
-/

namespace Jiffy

open Js Async

/-- The same conversation, its participants in any order. -/
structure SameUpToOrder (c c' : Conversation) : Prop where
  id : c'.id = c.id
  participants : c'.participants.Perm c.participants
  createdAt : c'.createdAt = c.createdAt
  lastMessage : c'.lastMessage = c.lastMessage

-- ---------------------------------------------------------------------------
-- Grouping blocks
-- ---------------------------------------------------------------------------

section Blocks

variable {conversations : List Conversation} {blocks : Conversation → List ConversationParticipantRow}

/-- Blocks of rows, one after another, give one conversation each. -/
theorem rowsToConversations_blocks (hids : (conversations.map fun c => c.id).Nodup)
    (hrows : ∀ c ∈ conversations, ∀ row ∈ blocks c, row.id = c.id ∧ row.createdAt = c.createdAt)
    (hne : ∀ c ∈ conversations, blocks c ≠ []) : rowsToConversations (conversations.flatMap blocks) =
      conversations.map fun c => ⟨c.id, (blocks c).map rowToParticipant, c.createdAt, none⟩ := by
  have hpart : ∀ c ∈ conversations, ∀ row ∈ blocks c, row.id = c.id := fun c hc row hrow =>
    (hrows c hc row hrow).1
  have hgroup : ∀ c ∈ conversations, grouped (conversations.flatMap blocks) c.id =
      some ⟨c.id, (blocks c).map rowToParticipant, c.createdAt, none⟩ := by
    intro c hc
    have hblock : ((conversations.flatMap blocks).filter fun row => row.id = c.id) = blocks c := by
      rw [@filter_flatMap_key _ _ _ (fun d : Conversation => d.id) _ _ _ hpart fun k => decide (k = c.id),
        filter_key hids hc]
      simp
    obtain ⟨row, rows, hcons⟩ := List.exists_cons_of_ne_nil (hne c hc)
    have hcreated := (hrows c hc row (hcons ▸ List.mem_cons_self)).2
    rw [grouped, hblock, hcons, List.head?_cons, Option.map_some, hcreated]
  rw [rowsToConversations_eq, eraseDups_flatMap_key hpart hne hids, List.filterMap_map]
  exact (List.filterMap_congr hgroup).trans (congrFun List.filterMap_eq_map' conversations)

end Blocks

namespace Postgres

-- ---------------------------------------------------------------------------
-- The tables of a list of conversations
-- ---------------------------------------------------------------------------

def conversationRecord (c : Conversation) : ConversationRecord := ⟨c.id, c.createdAt * 1000, none⟩

def participantRecord (id : String) (p : ConversationParticipant) : ParticipantRecord where
  conversationId := id
  userId := p.userId
  lastReadAt := p.lastReadAt.bind fun d => d.time.map fun t => t * 1000
  clearedAt := p.clearedAt.map fun t => t * 1000
  pending := none

def participantRecords (c : Conversation) : List ParticipantRecord :=
  c.participants.map (participantRecord c.id)

/-- The tables hold these conversations. -/
structure Mirrors (conversations : List Conversation) (db : Database) : Prop where
  records : db.conversations = conversations.map conversationRecord
  members : db.participants = conversations.flatMap participantRecords

/-- Conversations that rows can hold, oldest first. -/
structure Plain (conversations : List Conversation) : Prop where
  ids : (conversations.map fun c => c.id).Nodup
  times : (conversations.map fun c => c.createdAt).Pairwise (· < ·)
  members : ∀ c ∈ conversations, c.participants ≠ []
  users : ∀ c ∈ conversations, c.userIds.Nodup
  bare : ∀ c ∈ conversations, c.lastMessage = none
  dates : ∀ c ∈ conversations, ∀ p ∈ c.participants, ∀ d, p.lastReadAt = some d → ∃ t, d = Date.of t

variable {conversations : List Conversation} {c : Conversation} {db : Database}

/-- The rows of the join for one conversation. -/
def joinedOf (c : Conversation) : List (ConversationRecord × ParticipantRecord) :=
  (participantRecords c).map fun p => (conversationRecord c, p)

theorem participantRecords_of (hids : (conversations.map fun c => c.id).Nodup) (hc : c ∈ conversations) :
    ((conversations.flatMap participantRecords).filter fun p =>
      p.pending = none ∧ p.conversationId = c.id) = participantRecords c := by
  have hrecord : ∀ d, ∀ p ∈ participantRecords d, p.pending = none ∧ p.conversationId = d.id := by
    intro d p hp
    obtain ⟨q, -, rfl⟩ := List.mem_map.mp hp
    exact ⟨rfl, rfl⟩
  have hpending : ∀ p ∈ conversations.flatMap participantRecords,
      decide (p.pending = none ∧ p.conversationId = c.id) = decide (p.conversationId = c.id) := by
    intro p hp
    obtain ⟨d, -, hp⟩ := List.mem_flatMap.mp hp
    rw [decide_eq_decide, and_iff_right (hrecord d p hp).1]
  rw [List.filter_congr hpending, @filter_flatMap_key _ _ _ (fun d : Conversation => d.id) _ _ _
    (fun d _ p hp => (hrecord d p hp).2) (fun k => decide (k = c.id)), filter_key hids hc]
  simp

theorem joined_eq (h : Mirrors conversations db) (hids : (conversations.map fun c => c.id).Nodup) :
    joined db = conversations.flatMap joinedOf := by
  unfold joined
  rw [h.records, h.members, List.filter_eq_self.mpr, List.flatMap_map]
  · refine List.flatMap_congr fun c hc => ?_
    unfold joinedOf
    rw [← participantRecords_of hids hc]
    rfl
  · intro r hr
    obtain ⟨c, -, rfl⟩ := List.mem_map.mp hr
    rfl

/-- A participant's row comes back as the participant. -/
theorem rowToParticipant_back {p : ConversationParticipant}
    (hdates : ∀ d, p.lastReadAt = some d → ∃ t, d = Date.of t) :
    rowToParticipant (joinedRow (conversationRecord c) (participantRecord c.id p)) = p := by
  obtain ⟨u, lastReadAt, clearedAt⟩ := p
  have hread : ((lastReadAt.bind fun d => d.time.map fun t => t * 1000).map fun t =>
      Date.of (toMillis t)) = lastReadAt := by
    cases lastReadAt with
    | none => rfl
    | some d =>
      obtain ⟨t, rfl⟩ := hdates d rfl
      exact congrArg (fun t => some (Date.of t)) (toMillis_mul t)
  have hcleared : (clearedAt.map fun t => t * 1000).map toMillis = clearedAt := by
    cases clearedAt with
    | none => rfl
    | some t => exact congrArg some (toMillis_mul t)
  unfold rowToParticipant joinedRow participantRecord
  simp only [hread, hcleared]

/-- Grouped rows of conversations, each block in any order. -/
theorem rowsToConversations_same (h : Plain conversations)
    {blocks : Conversation → List (ConversationRecord × ParticipantRecord)}
    (hblocks : ∀ c ∈ conversations, (blocks c).Perm (joinedOf c)) :
    List.Forall₂ SameUpToOrder conversations
      (rowsToConversations (joinedRows (conversations.flatMap blocks))) := by
  have hrow : ∀ c ∈ conversations, ∀ r ∈ blocks c, r.1 = conversationRecord c := by
    intro c hc r hr
    obtain ⟨p, -, rfl⟩ := List.mem_map.mp ((hblocks c hc).subset hr)
    rfl
  have hgroup := @rowsToConversations_blocks conversations (fun c => joinedRows (blocks c)) h.ids ?_ ?_
  · have hrows : joinedRows (conversations.flatMap blocks) =
        conversations.flatMap fun c => joinedRows (blocks c) := List.map_flatMap
    rw [hrows, hgroup, List.forall₂_map_right_iff]
    refine List.forall₂_same.mpr fun c hc => ⟨rfl, ?_, rfl, (h.bare c hc).symm⟩
    have hback : (joinedRows (joinedOf c)).map rowToParticipant = c.participants := by
      simp only [joinedRows, joinedOf, participantRecords, List.map_map]
      refine (List.map_congr_left fun p hp => ?_).trans (List.map_id _)
      exact rowToParticipant_back (h.dates c hc p hp)
    exact (((hblocks c hc).map _).map _).trans (List.Perm.of_eq hback)
  · intro c hc row hr
    obtain ⟨r, hmem, rfl⟩ := List.mem_map.mp hr
    rw [hrow c hc r hmem]
    exact ⟨rfl, toMillis_mul _⟩
  · intro c hc hnil
    have hempty : blocks c = [] := List.map_eq_nil_iff.mp hnil
    have hlength := (hblocks c hc).length_eq
    rw [hempty] at hlength
    simp only [joinedOf, participantRecords, List.length_map, List.length_nil] at hlength
    exact h.members c hc (List.length_eq_zero_iff.mp hlength.symm)

theorem Plain.filter (h : Plain conversations) (p : Conversation → Bool) :
    Plain (conversations.filter p) where
  ids := h.ids.sublist (List.filter_sublist.map _)
  times := h.times.sublist (List.filter_sublist.map _)
  members c hc := h.members c (List.mem_of_mem_filter hc)
  users c hc := h.users c (List.mem_of_mem_filter hc)
  bare c hc := h.bare c (List.mem_of_mem_filter hc)
  dates c hc := h.dates c (List.mem_of_mem_filter hc)

theorem mem_joinedOf {r : ConversationRecord × ParticipantRecord}
    (h : r ∈ conversations.flatMap joinedOf) : ∃ c ∈ conversations, r ∈ joinedOf c ∧
      r.1 = conversationRecord c := by
  obtain ⟨c, hc, hr⟩ := List.mem_flatMap.mp h
  refine ⟨c, hc, hr, ?_⟩
  obtain ⟨p, -, rfl⟩ := List.mem_map.mp hr
  rfl

theorem filter_joinedOf (p : String → Bool) :
    (conversations.flatMap joinedOf).filter (fun r => p r.1.id) =
      (conversations.filter fun c => p c.id).flatMap joinedOf := by
  refine @filter_flatMap_key _ _ _ (fun c : Conversation => c.id) _ _ _ (fun c _ r hr => ?_) p
  obtain ⟨q, -, rfl⟩ := List.mem_map.mp hr
  rfl

/-- The rows of conversations in the order of their instants, otherwise in any. -/
theorem rowsToConversations_sorted (h : Plain conversations)
    {rows : List (ConversationRecord × ParticipantRecord)}
    (hperm : rows.Perm (conversations.flatMap joinedOf))
    (hsorted : rows.Pairwise fun r r' => r.1.createdAt ≤ r'.1.createdAt) :
    List.Forall₂ SameUpToOrder conversations (rowsToConversations (joinedRows rows)) := by
  have htimes : (conversations.map fun c => c.createdAt * 1000).Pairwise (· < ·) := by
    have htimes := h.times
    rw [List.pairwise_map] at htimes ⊢
    exact htimes.imp fun hlt => by omega
  have hblocks := @sorted_blocks _ (fun r : ConversationRecord × ParticipantRecord => r.1.createdAt) _
    htimes _ hsorted ?_
  · rw [List.flatMap_map] at hblocks
    rw [hblocks]
    refine rowsToConversations_same h fun c hc => (hperm.filter _).trans (List.Perm.of_eq ?_)
    -- no other conversation has the instant of `c`
    have honly : ∀ r ∈ conversations.flatMap joinedOf,
        decide (r.1.createdAt = c.createdAt * 1000) = decide (r.1.id = c.id) := by
      intro r hr
      obtain ⟨d, hd, -, hrec⟩ := mem_joinedOf hr
      rw [hrec]
      have htimes : (conversations.map fun c => c.createdAt).Nodup := h.times.imp fun hlt => hlt.ne
      rw [decide_eq_decide]
      constructor
      · intro heq
        have hcreated : d.createdAt * 1000 = c.createdAt * 1000 := heq
        exact congrArg Conversation.id (List.inj_on_of_nodup_map htimes hd hc (by omega))
      · intro heq
        rw [List.inj_on_of_nodup_map h.ids hd hc heq]
        rfl
    rw [List.filter_congr honly, filter_joinedOf fun k => decide (k = c.id), filter_key h.ids hc]
    simp
  · intro r hr
    obtain ⟨c, hc, -, hrec⟩ := mem_joinedOf (hperm.subset hr)
    rw [hrec]
    exact List.mem_map.mpr ⟨c, hc, rfl⟩

-- ---------------------------------------------------------------------------
-- The queries
-- ---------------------------------------------------------------------------

section Queries

variable {uuid : String → Option String} {i : Input} {w : World} (hfault : ∀ s, i.fault s = none)
  (hm : Mirrors conversations w.database) (h : Plain conversations)

include hfault hm h

theorem findById_same {k : String} (hk : uuid k = some k) :
    ∃ found, (adapter uuid).run i (PostgresConversationStore.findById k) w = (.ok found, w) ∧
      Option.Rel SameUpToOrder (conversations.find? fun c => c.id = k) found := by
  generalize hrows : i.order.joined ((joined w.database).filter fun r => r.1.id = k) = rows
  have hexec : execute uuid i w.clock w.database (.selectConversation k) =
      .ok (joinedRows rows, w.database) := by
    simp only [execute, uuidParam, hk, ← hrows]
    rfl
  have hperm : rows.Perm ((conversations.filter fun c => c.id = k).flatMap joinedOf) := by
    rw [← filter_joinedOf fun id => decide (id = k), ← joined_eq hm h.ids, ← hrows]
    exact i.order.joined_perm _
  have hsame := rowsToConversations_sorted (h.filter _) hperm ?_
  · refine ⟨(rowsToConversations (joinedRows rows)).head?, findById_resolves (hfault _) hexec, ?_⟩
    · have hhead : ∀ {cs cs' : List Conversation}, List.Forall₂ SameUpToOrder cs cs' →
          Option.Rel SameUpToOrder cs.head? cs'.head? := by
        intro cs cs' hcs
        cases hcs with
        | nil => exact .none
        | cons hc _ => exact .some hc
      rw [← List.head?_filter]
      exact hhead hsame
  -- all of the rows are of one conversation
  · refine List.pairwise_of_forall_mem_list fun r hr r' hr' => ?_
    obtain ⟨c, hc, -, hrec⟩ := mem_joinedOf (hperm.subset hr)
    obtain ⟨c', hc', -, hrec'⟩ := mem_joinedOf (hperm.subset hr')
    simp only [List.mem_filter, decide_eq_true_eq] at hc hc'
    rw [hrec, hrec', List.inj_on_of_nodup_map h.ids hc.1 hc'.1 (hc.2.trans hc'.2.symm)]

theorem findByParticipant_same {u : String} (hu : NulFree u) :
    ∃ found, (adapter uuid).run i (PostgresConversationStore.findByParticipant u) w = (.ok found, w) ∧
      List.Forall₂ SameUpToOrder (conversations.filter fun c => isParticipant c u) found := by
  generalize hids : (w.database.participants.filter fun p => p.pending = none ∧ p.userId = u).map
    (fun p => p.conversationId) = ids
  have hmember : ∀ c ∈ conversations, ids.contains c.id = isParticipant c u := by
    intro c hc
    rw [Bool.eq_iff_iff, List.contains_iff_mem, isParticipant_iff, ← hids, hm.members]
    simp only [List.mem_map, List.mem_filter, List.mem_flatMap, decide_eq_true_eq, Conversation.userIds]
    constructor
    · rintro ⟨_, ⟨⟨d, hd, hp⟩, -, rfl⟩, hid⟩
      obtain ⟨q, hq, rfl⟩ := List.mem_map.mp hp
      obtain rfl := List.inj_on_of_nodup_map h.ids hd hc hid
      exact ⟨q, hq, rfl⟩
    · rintro ⟨q, hq, rfl⟩
      exact ⟨_, ⟨⟨c, hc, List.mem_map_of_mem hq⟩, rfl, rfl⟩, rfl⟩
  generalize hrows : i.order.joined ((joined w.database).filter fun r => ids.contains r.1.id) = rows
  have hexec : execute uuid i w.clock w.database (.selectConversationsOf u) =
      .ok (joinedRows (sortBy (fun r => r.1.createdAt) rows), w.database) := by
    simp only [execute, textParam_of hu, ← hrows, ← hids]
    rfl
  have hperm : (sortBy (fun r : ConversationRecord × ParticipantRecord => r.1.createdAt) rows).Perm
      ((conversations.filter fun c => isParticipant c u).flatMap joinedOf) := by
    rw [← List.filter_congr hmember, ← filter_joinedOf fun id => ids.contains id,
      ← joined_eq hm h.ids, ← hrows]
    exact (sortBy_perm _ _).trans (i.order.joined_perm _)
  refine ⟨_, ?_, rowsToConversations_sorted (h.filter _) hperm (sortBy_pairwise _ rows)⟩
  unfold PostgresConversationStore.findByParticipant
  rw [Proc.bind_eq_bind, Adapter.run_bind, query_resolves (hfault _) hexec]
  rfl

end Queries

end Postgres

end Jiffy
