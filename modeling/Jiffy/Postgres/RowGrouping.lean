-- SUMMARY: The grouping of joined rows is a stable partition: one conversation per id, with exactly the id's rows.
import Jiffy.Postgres.Reads

/-!
# Row grouping

`rowsToConversations` fills a map in one pass. Its conversations stand in the
order the ids first appear, each with the rows of its id in their order, so it
does not matter how rows of different conversations are interleaved.
-/

namespace Jiffy

/-- Rows of different conversations that change places, one pair of neighbours
at a time. -/
inductive Shuffled (rows : List ConversationParticipantRow) :
    List ConversationParticipantRow → Prop where
  | refl : Shuffled rows rows
  | swap {front back : List ConversationParticipantRow} {row row' : ConversationParticipantRow}
    (shuffled : Shuffled rows (front ++ row :: row' :: back)) (hne : row.id ≠ row'.id) :
    Shuffled rows (front ++ row' :: row :: back)

section Grouping

variable {rows rows' : List ConversationParticipantRow} {conversation : Conversation}

/-- Every id keeps its rows, in their order. -/
theorem Shuffled.filter (h : Shuffled rows rows') (id : String) :
    (rows'.filter fun row => row.id = id) = rows.filter fun row => row.id = id := by
  induction h with
  | refl => rfl
  | @swap front back row row' _ hne ih =>
    rw [← ih, List.filter_append, List.filter_append]
    congr 1
    by_cases hrow : row.id = id
    · have hrow' : row'.id ≠ id := fun h => hne (hrow.trans h.symm)
      simp [hrow, hrow']
    · simp [List.filter_cons, hrow]

/-- An entry of the map is the conversation of its key. -/
theorem id_of_entry {e : String × Conversation} (h : e ∈ (rows.foldl addRow .empty).entries) :
    e.2.id = e.1 := by
  have hget := OrderedMap.get_of_mem_entries (k := e.1) (v := e.2) h
  rw [get_foldl_addRow] at hget
  obtain ⟨row, -, hconversation⟩ := Option.map_eq_some_iff.mp (show Option.map _ _ = _ from hget)
  rw [← hconversation]

theorem ids_eq_keys : (rowsToConversations rows).map (fun c => c.id) =
    (rows.foldl addRow .empty).entries.map Prod.fst := by
  unfold rowsToConversations OrderedMap.values
  rw [List.map_map]
  exact List.map_congr_left fun e he => id_of_entry he

theorem ids_rowsToConversations (rows : List ConversationParticipantRow) :
    (rowsToConversations rows).map (fun c => c.id) = (rows.map fun row => row.id).eraseDups :=
  ids_eq_keys.trans (OrderedMap.keys_foldl_set _ _ rows)

/-- The rows are grouped by their ids, in the order these first appear. -/
theorem rowsToConversations_eq (rows : List ConversationParticipantRow) :
    rowsToConversations rows = (rows.map fun row => row.id).eraseDups.filterMap (grouped rows) := by
  have hentry : ∀ e ∈ (rows.foldl addRow .empty).entries, grouped rows e.1 = some e.2 := fun e he =>
    (get_foldl_addRow rows e.1).symm.trans (OrderedMap.get_of_mem_entries he)
  rw [← ids_rowsToConversations, ids_eq_keys, List.filterMap_map]
  exact ((List.filterMap_congr hentry).trans (congrFun List.filterMap_eq_map' _)).symm

theorem nodup_rowsToConversations (rows : List ConversationParticipantRow) :
    (rowsToConversations rows).Nodup := by
  apply List.Nodup.of_map fun c => c.id
  rw [ids_eq_keys]
  exact (rows.foldl addRow .empty).nodup

/-- A read conversation has exactly the rows of its id. -/
theorem rows_of_conversation (h : conversation ∈ rowsToConversations rows) :
    conversation.participants = (rows.filter fun row => row.id = conversation.id).map rowToParticipant ∧
      (rows.filter fun row => row.id = conversation.id).head?.map (fun row => row.createdAt) =
        some conversation.createdAt := by
  rw [mem_rowsToConversations] at h
  obtain ⟨row, hrow, hconversation⟩ := Option.map_eq_some_iff.mp (show Option.map _ _ = _ from h)
  rw [hrow, ← hconversation]
  exact ⟨rfl, rfl⟩

/-- The interleaving of the rows only decides the order of the conversations. -/
theorem rowsToConversations_perm (h : Shuffled rows rows') :
    (rowsToConversations rows').Perm (rowsToConversations rows) := by
  rw [List.perm_ext_iff_of_nodup (nodup_rowsToConversations rows') (nodup_rowsToConversations rows)]
  intro conversation
  rw [mem_rowsToConversations, mem_rowsToConversations, grouped, grouped, h.filter]

/-- A row adds one participant to the map. -/
theorem sum_addRow (byId : OrderedMap String Conversation) (row : ConversationParticipantRow) :
    ((addRow byId row).values.map fun c => c.participants.length).sum =
      (byId.values.map fun c => c.participants.length).sum + 1 := by
  have htotal := OrderedMap.sum_values_set (fun c => c.participants.length) byId row.id
  unfold addRow
  cases hget : byId.get row.id with
  | none =>
    have hset := htotal ⟨row.id, [rowToParticipant row], row.createdAt, none⟩
    rw [hget] at hset
    exact hset
  | some c =>
    have hset := htotal { c with participants := c.participants ++ [rowToParticipant row] }
    rw [hget] at hset
    simp only [Option.elim_some, Option.getD_some, List.length_append, List.length_singleton] at hset ⊢
    omega

theorem sum_participants (rows : List ConversationParticipantRow) :
    ((rowsToConversations rows).map fun c => c.participants.length).sum = rows.length := by
  unfold rowsToConversations
  induction rows using List.reverseRecOn with
  | nil => rfl
  | append_singleton rows row ih =>
    rw [List.foldl_append, List.foldl_cons, List.foldl_nil, sum_addRow, ih, List.length_append,
      List.length_singleton]

/-- Every conversation that is read has the participants in the rows of its id,
and every row is one of them, however the rows are interleaved. -/
theorem rowsToConversations_partition (rows : List ConversationParticipantRow) :
    (rowsToConversations rows).map (fun c => c.id) = (rows.map fun row => row.id).eraseDups ∧
      (∀ c ∈ rowsToConversations rows,
        c.participants = (rows.filter fun row => row.id = c.id).map
          (fun row => ⟨row.userId, row.lastReadAt, row.clearedAt⟩) ∧
        (rows.filter fun row => row.id = c.id).head?.map (fun row => row.createdAt) = some c.createdAt) ∧
      (∀ rows', Shuffled rows rows' → (rowsToConversations rows').Perm (rowsToConversations rows)) ∧
      ((rowsToConversations rows).map fun c => c.participants.length).sum = rows.length :=
  ⟨ids_rowsToConversations rows, fun _ => rows_of_conversation, fun _ => rowsToConversations_perm,
    sum_participants rows⟩

end Grouping

end Jiffy
