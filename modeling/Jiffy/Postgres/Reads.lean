-- SUMMARY: What the Postgres stores read back: grouped rows, one participant's instant, and a page of history.
import Jiffy.Postgres.Statements

/-!
# Reading the tables

The grouping of joined rows, and what a conversation or a page of history read
from the tables says about them.
-/

namespace Jiffy

open Js Async

-- ---------------------------------------------------------------------------
-- Grouping
-- ---------------------------------------------------------------------------

/-- The conversation that the rows of one id make up. -/
def grouped (rows : List ConversationParticipantRow) (id : String) : Option Conversation :=
  (rows.filter fun row => row.id = id).head?.map fun row =>
    ⟨id, (rows.filter fun row => row.id = id).map rowToParticipant, row.createdAt, none⟩

theorem get_foldl_addRow (rows : List ConversationParticipantRow) (id : String) :
    (rows.foldl addRow .empty).get id = grouped rows id := by
  induction rows using List.reverseRecOn with
  | nil => rfl
  | append_singleton rows row ih =>
    rw [List.foldl_append, List.foldl_cons, List.foldl_nil, addRow, OrderedMap.get_set]
    by_cases hid : id = row.id
    · subst hid
      rw [if_pos rfl, ih]
      simp only [grouped, List.filter_append, List.filter_cons_of_pos, List.filter_nil,
        decide_true, List.head?_append, List.map_append]
      cases (rows.filter fun r => r.id = row.id) with
      | nil => rfl
      | cons r rs => rfl
    · rw [if_neg hid, ih]
      have hne : ¬ (row.id = id) := fun h => hid h.symm
      simp [grouped, List.filter_append, hne]

section Grouping

variable {rows : List ConversationParticipantRow} {conversation : Conversation}

theorem mem_rowsToConversations :
    conversation ∈ rowsToConversations rows ↔ grouped rows conversation.id = some conversation := by
  unfold rowsToConversations
  rw [OrderedMap.mem_values_iff]
  constructor
  · rintro ⟨id, h⟩
    rw [get_foldl_addRow] at h
    obtain ⟨row, -, rfl⟩ := Option.map_eq_some_iff.mp (show Option.map _ _ = _ from h)
    exact h
  · intro h
    exact ⟨conversation.id, (get_foldl_addRow rows _).trans h⟩

/-- A participant of a read conversation stands in a row of it. -/
theorem participant_row (h : conversation ∈ rowsToConversations rows) {p : ConversationParticipant}
    (hp : p ∈ conversation.participants) :
    ∃ row ∈ rows, row.id = conversation.id ∧ p = rowToParticipant row := by
  rw [mem_rowsToConversations] at h
  obtain ⟨first, -, hgroup⟩ := Option.map_eq_some_iff.mp (show Option.map _ _ = _ from h)
  rw [← hgroup] at hp
  obtain ⟨row, hrow, rfl⟩ := List.mem_map.mp hp
  obtain ⟨hmem, hid⟩ := List.mem_filter.mp hrow
  exact ⟨row, hmem, by simpa using hid, rfl⟩

/-- And every row stands in a conversation. -/
theorem row_participant {row : ConversationParticipantRow} (h : row ∈ rows) :
    ∃ conversation ∈ rowsToConversations rows,
      conversation.id = row.id ∧ rowToParticipant row ∈ conversation.participants := by
  have hfilter : row ∈ rows.filter fun r => r.id = row.id := List.mem_filter.mpr ⟨h, by simp⟩
  cases hrows : rows.filter fun r => r.id = row.id with
  | nil =>
    rw [hrows] at hfilter
    cases hfilter
  | cons first rest =>
    have hgroup : grouped rows row.id =
        some ⟨row.id, (first :: rest).map rowToParticipant, first.createdAt, none⟩ := by
      simp [grouped, hrows]
    refine ⟨⟨row.id, (first :: rest).map rowToParticipant, first.createdAt, none⟩,
      mem_rowsToConversations.mpr hgroup, rfl, ?_⟩
    exact List.mem_map_of_mem (hrows ▸ hfilter)

/-- A read conversation has a row. -/
theorem rowsToConversations_row (h : conversation ∈ rowsToConversations rows) :
    ∃ row ∈ rows, row.id = conversation.id := by
  rw [mem_rowsToConversations] at h
  obtain ⟨row, hrow, -⟩ := Option.map_eq_some_iff.mp (show Option.map _ _ = _ from h)
  obtain ⟨hmem, hid⟩ := List.mem_filter.mp (List.mem_of_mem_head? hrow)
  exact ⟨row, hmem, by simpa using hid⟩

/-- Rows of one id make up one conversation. -/
theorem head?_rowsToConversations {k : String} (hid : ∀ row ∈ rows, row.id = k) (hne : rows ≠ []) :
    ∃ row ∈ rows, (rowsToConversations rows).head? =
      some ⟨k, rows.map rowToParticipant, row.createdAt, none⟩ := by
  obtain ⟨row, hrow⟩ := List.exists_mem_of_ne_nil rows hne
  obtain ⟨conversation, hmem, -⟩ := row_participant hrow
  cases hhead : (rowsToConversations rows).head? with
  | none =>
    rw [List.head?_eq_none_iff.mp hhead] at hmem
    cases hmem
  | some read =>
    have hread := List.mem_of_mem_head? hhead
    obtain ⟨row', hrow', hrid⟩ := rowsToConversations_row hread
    have hgroup := mem_rowsToConversations.mp hread
    have hall : (rows.filter fun r => r.id = k) = rows :=
      List.filter_eq_self.mpr fun r hr => by simpa using hid r hr
    rw [← hrid, hid row' hrow', grouped, hall] at hgroup
    obtain ⟨first, hfirst, rfl⟩ := Option.map_eq_some_iff.mp hgroup
    exact ⟨first, List.mem_of_mem_head? hfirst, rfl⟩

theorem isParticipant_of_row (h : conversation ∈ rowsToConversations rows)
    {row : ConversationParticipantRow} (hrow : row ∈ rows) (hid : row.id = conversation.id)
    {u : String} (hu : row.userId = u) : isParticipant conversation u = true := by
  obtain ⟨c, hc, hcid, hp⟩ := row_participant hrow
  have hsame : c = conversation := by
    rw [mem_rowsToConversations] at h hc
    rw [hcid, hid, h] at hc
    exact (Option.some.inj hc).symm
  rw [isParticipant_iff, ← hsame, ← hu]
  exact List.mem_map_of_mem (f := fun p => p.userId) hp

end Grouping

namespace Postgres

variable {uuid : String → Option String} {i : Input} {now : Int} {db db' : Database}

-- ---------------------------------------------------------------------------
-- Conversations
-- ---------------------------------------------------------------------------

/-- A row of the join, out of the committed rows of the tables. -/
def FromTables (db : Database) (row : ConversationParticipantRow) : Prop :=
  ∃ r ∈ joined db, row = joinedRow r.1 r.2

theorem mem_joined {r : ConversationRecord × ParticipantRecord} : r ∈ joined db ↔
    r.1 ∈ db.conversations ∧ r.1.pending = none ∧ r.2 ∈ db.participants ∧ r.2.pending = none ∧
      r.2.conversationId = r.1.id := by
  simp only [joined, List.mem_flatMap, List.mem_map, List.mem_filter, decide_eq_true_eq]
  constructor
  · rintro ⟨c, ⟨hc, hcp⟩, p, ⟨hp, hpp, hid⟩, rfl⟩
    exact ⟨hc, hcp, hp, hpp, hid⟩
  · rintro ⟨hc, hcp, hp, hpp, hid⟩
    exact ⟨r.1, ⟨hc, hcp⟩, r.2, ⟨hp, hpp, hid⟩, rfl⟩

/-- The join of the conversations with one id. -/
theorem filter_joined (db : Database) (k : String) : (joined db).filter (fun r => r.1.id = k) =
    ((db.conversations.filter fun c => c.pending = none).filter fun c => c.id = k).flatMap fun c =>
      (db.participants.filter fun p => p.pending = none ∧ p.conversationId = c.id).map fun p => (c, p) := by
  refine @filter_flatMap_key _ _ _ (fun c : ConversationRecord => c.id)
    (fun r : ConversationRecord × ParticipantRecord => r.1.id) _ _ (fun c _ r hr => ?_)
    fun id => decide (id = k)
  obtain ⟨p, -, rfl⟩ := List.mem_map.mp hr
  rfl

theorem fromTables {row : ConversationParticipantRow}
    {rs : List (ConversationRecord × ParticipantRecord)} (hrs : ∀ r ∈ rs, r ∈ joined db)
    (h : row ∈ joinedRows rs) : FromTables db row := by
  obtain ⟨r, hr, rfl⟩ := List.mem_map.mp h
  exact ⟨r, hrs r hr, rfl⟩

theorem execute_selectConversation {c : String} {rows : List ConversationParticipantRow}
    (h : execute uuid i now db (.selectConversation c) = .ok (rows, db')) :
    db' = db ∧ ∃ k, uuid c = some k ∧ (∀ row ∈ rows, FromTables db row) ∧
      (∀ row ∈ rows, row.id = k) ∧
      ∀ r ∈ joined db, r.1.id = k → joinedRow r.1 r.2 ∈ rows := by
  obtain ⟨k, hk, h⟩ := bind_ok h
  cases h
  have hperm := i.order.joined_perm ((joined db).filter fun r => r.1.id = k)
  refine ⟨rfl, k, uuidParam_ok hk, fun row hrow => ?_, fun row hrow => ?_, fun r hr hid => ?_⟩
  · exact fromTables (fun r hr => List.mem_of_mem_filter (hperm.subset hr)) hrow
  · obtain ⟨r, hr, rfl⟩ := List.mem_map.mp hrow
    simpa [joinedRow] using (List.mem_filter.mp (hperm.subset hr)).2
  · exact List.mem_map_of_mem (f := fun r => joinedRow r.1 r.2)
      (hperm.symm.subset (List.mem_filter.mpr ⟨hr, by simpa using hid⟩))

theorem execute_selectConversationsOf {u : String} {rows : List ConversationParticipantRow}
    (h : execute uuid i now db (.selectConversationsOf u) = .ok (rows, db')) :
    db' = db ∧ (∀ row ∈ rows, FromTables db row) ∧
      ∀ row ∈ rows, ∃ row' ∈ rows, row'.id = row.id ∧ row'.userId = u := by
  obtain ⟨u', hu, h⟩ := bind_ok h
  obtain rfl := textParam_ok hu
  cases h
  generalize hids : (db.participants.filter fun p => p.pending = none ∧ p.userId = u').map
    (fun p => p.conversationId) = ids
  have hperm := i.order.joined_perm ((joined db).filter fun r => ids.contains r.1.id)
  refine ⟨rfl, fun row hrow => fromTables (fun r hr => ?_) hrow, fun row hrow => ?_⟩
  · rw [mem_sortBy] at hr
    exact List.mem_of_mem_filter (hperm.subset hr)
  · obtain ⟨r, hr, rfl⟩ := List.mem_map.mp hrow
    rw [mem_sortBy] at hr
    obtain ⟨hjoin, hmem⟩ := List.mem_filter.mp (hperm.subset hr)
    obtain ⟨hc, hcp, -⟩ := mem_joined.mp hjoin
    have hin : r.1.id ∈ ids := by simpa using hmem
    rw [← hids] at hin
    obtain ⟨p, hp, hid⟩ := List.mem_map.mp hin
    obtain ⟨hp, hkey⟩ := List.mem_filter.mp hp
    simp only [decide_eq_true_eq] at hkey
    refine ⟨joinedRow r.1 p, ?_, rfl, hkey.2⟩
    refine List.mem_map_of_mem (f := fun r => joinedRow r.1 r.2) (a := (r.1, p)) ?_
    rw [mem_sortBy]
    refine hperm.symm.subset (List.mem_filter.mpr ⟨mem_joined.mpr ⟨hc, hcp, hp, hkey.1, hid⟩, ?_⟩)
    simpa using hmem

/-- A conversation that was read, and the rows of it and of its participant `u`. -/
structure ReadFor (db : Database) (u : String) (conversation : Conversation)
    (r : ConversationRecord × ParticipantRecord) : Prop where
  stored : r ∈ joined db
  key : r.2.key = (conversation.id, u)
  clearedAt : clearedAtOf conversation u = r.2.clearedAt.map toMillis

/-- The `clearedAt` of a read conversation is that of a committed row. -/
theorem clearedAtOf_row {rows : List ConversationParticipantRow}
    (hrows : ∀ row ∈ rows, FromTables db row) {conversation : Conversation}
    (hc : conversation ∈ rowsToConversations rows) {u : String}
    (hu : isParticipant conversation u = true) : ∃ r, ReadFor db u conversation r := by
  cases hpart : participantOf conversation u with
  | none =>
    have hsome := participantOf_isSome hu
    rw [hpart] at hsome
    cases hsome
  | some part =>
    have huser : part.userId = u := by simpa using List.find?_some hpart
    obtain ⟨row, hrow, hid, rfl⟩ := participant_row hc (List.mem_of_find?_eq_some hpart)
    obtain ⟨r, hr, rfl⟩ := hrows row hrow
    refine ⟨r, hr, ?_, ?_⟩
    · rw [ParticipantRecord.key, (mem_joined.mp hr).2.2.2.2, ← hid, ← huser]
      rfl
    · unfold clearedAtOf
      rw [hpart]
      rfl

-- ---------------------------------------------------------------------------
-- History
-- ---------------------------------------------------------------------------

theorem mem_history {order : RowOrder} {messages : List MessageRecord} {k : String}
    {before after : Option Int} {limit : Nat} {m : MessageRecord}
    (h : m ∈ history order messages k before after limit) :
    m ∈ messages ∧ m.conversationId = k ∧ (∀ t, before = some t → m.createdAt < t) ∧
      ∀ t, after = some t → t < m.createdAt := by
  simp only [history, mem_sortBy] at h
  have h := List.mem_of_mem_take ((order.messages_perm _).subset h)
  rw [mem_sortBy] at h
  obtain ⟨hm, hadmit⟩ := List.mem_filter.mp ((order.messages_perm _).subset h)
  simp only [decide_eq_true_eq] at hadmit
  refine ⟨hm, hadmit.1, ?_, ?_⟩
  · rintro t rfl
    simpa using hadmit.2.1
  · rintro t rfl
    simpa using hadmit.2.2

/-- A page is only empty when nothing is admitted. -/
theorem history_ne_nil {order : RowOrder} {messages : List MessageRecord} {k : String}
    {before after : Option Int} {limit : Nat} (hlimit : 0 < limit) {m : MessageRecord}
    (hm : m ∈ messages) (hk : m.conversationId = k) (hbefore : ∀ t, before = some t → m.createdAt < t)
    (hafter : ∀ t, after = some t → t < m.createdAt) :
    history order messages k before after limit ≠ [] := by
  have hmem : m ∈ messages.filter fun m => m.conversationId = k ∧
      before.all (fun t => m.createdAt < t) ∧ after.all fun t => t < m.createdAt := by
    rw [List.mem_filter, decide_eq_true_eq]
    refine ⟨hm, hk, ?_, ?_⟩
    · cases before with
      | none => rfl
      | some t => simpa using hbefore t rfl
    · cases after with
      | none => rfl
      | some t => simpa using hafter t rfl
  intro hnil
  have hlength := congrArg List.length hnil
  simp only [history, (sortBy_perm _ _).length_eq, (order.messages_perm _).length_eq,
    List.length_take, List.length_nil, Nat.min_eq_zero_iff] at hlength
  rcases hlength with h | h
  · omega
  · rw [List.length_eq_zero_iff.mp h] at hmem
    cases hmem

/-- The parameters of the query stand where its comparisons look for them. -/
theorem selectHistory_historyQuery (i : Input) (db : Database) (c : String)
    (options : ListMessagesOptions) :
    selectHistory uuid i db (PostgresMessageStore.historyQuery c options) = do
      let k ← uuidParam uuid c
      let before ← options.before.mapM timestampParam
      let after ← options.after.mapM timestampParam
      let limit ← bigintParam (((options.limit.getD PostgresMessageStore.defaultLimit).max
        (.finite 1)).min PostgresMessageStore.maxLimit)
      return (history i.order db.messages k before after limit).map MessageRecord.row := by
  cases hbefore : options.before with
  | none =>
    cases hafter : options.after with
    | none => simp only [selectHistory, PostgresMessageStore.historyQuery, hbefore, hafter]; rfl
    | some after => simp only [selectHistory, PostgresMessageStore.historyQuery, hbefore, hafter]; rfl
  | some before =>
    cases hafter : options.after with
    | none => simp only [selectHistory, PostgresMessageStore.historyQuery, hbefore, hafter]; rfl
    | some after => simp only [selectHistory, PostgresMessageStore.historyQuery, hbefore, hafter]; rfl

theorem execute_selectHistory {c : String} {options : ListMessagesOptions} {rows : List MessageRow}
    (h : execute uuid i now db (.selectHistory (PostgresMessageStore.historyQuery c options)) =
      .ok (rows, db')) :
    db' = db ∧ ∃ k, uuid c = some k ∧ ∀ row ∈ rows, ∃ m ∈ db.messages, row = m.row ∧
      m.conversationId = k ∧ ∀ t, options.after = some (Date.of t) → t * 1000 < m.createdAt := by
  obtain ⟨page, hpage, h⟩ := bind_ok h
  cases h
  rw [selectHistory_historyQuery] at hpage
  obtain ⟨k, hk, hpage⟩ := bind_ok hpage
  obtain ⟨before, -, hpage⟩ := bind_ok hpage
  obtain ⟨after, hafter, hpage⟩ := bind_ok hpage
  obtain ⟨limit, -, hpage⟩ := bind_ok hpage
  cases hpage
  refine ⟨rfl, k, uuidParam_ok hk, fun row hrow => ?_⟩
  obtain ⟨m, hm, rfl⟩ := List.mem_map.mp hrow
  obtain ⟨hm, hconv, -, hlate⟩ := mem_history hm
  refine ⟨m, hm, rfl, hconv, fun t ht => hlate _ ?_⟩
  rw [ht] at hafter
  obtain ⟨t', ht', hafter⟩ := bind_ok (show (timestampParam (Date.of t)).bind _ = _ from hafter)
  cases hafter
  obtain ⟨ms, hms, rfl⟩ := timestampParam_ok ht'
  cases hms
  rfl

end Postgres

end Jiffy
