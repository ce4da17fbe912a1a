-- SUMMARY: Creating a conversation while statements fail: what a caller of the Postgres store can count on, and when it gets it.
import Jiffy.Postgres.ConversationRows
import Jiffy.Postgres.Integrity

/-!
# Creating under failures

Any statement of `create` may fail, the ROLLBACK included. A conversation that
was created is read back through the join, so it takes a participant to be found.
-/

namespace Jiffy

open Js Async

namespace Postgres

variable {uuid : String → Option String} {i : Input} {w : World} {db : Database} {ids : List String}

-- ---------------------------------------------------------------------------
-- The promise
-- ---------------------------------------------------------------------------

/-- `findById` gives the conversation back, its participants in any order and
with nothing read or cleared. -/
def ReadsBack (uuid : String → Option String) (v : Conversation) (w : World) : Prop :=
  ∀ i : Input, i.fault (.selectConversation v.id) = none → ∃ found,
    (adapter uuid).run i (PostgresConversationStore.findById v.id) w = (.ok (some found), w) ∧
      SameUpToOrder v found ∧ ∀ p ∈ found.participants, p.lastReadAt = none ∧ p.clearedAt = none

/-- Both tables are as they were. When the ROLLBACK fails the connection is
lost, and the server drops what was pending on it. -/
structure Restored (i : Input) (db db' : Database) : Prop where
  rolledBack : i.fault (.rollback db.connected) = none →
    db'.conversations = db.conversations ∧ db'.participants = db.participants
  lost : db'.conversations.filter (fun c => c.pending ≠ some db.connected) = db.conversations ∧
    db'.participants.filter (fun p => p.pending ≠ some db.connected) = db.participants

/-- `create` resolves with a conversation that can be read back, or it rejects
with the error of the first statement that failed and leaves the tables alone.
Either way its connection goes back to the pool, once. -/
def AllOrNothing (uuid : String → Option String) (i : Input) (w : World) (ids : List String) : Prop :=
  let (outcome, w', log) := (adapter uuid).logged.run i (PostgresConversationStore.create ids) (w, [])
  (match outcome with
    | .ok v => v.userIds = ids ∧ ReadsBack uuid v w'
    | .error e => firstError log = some e ∧ Restored i w.database w'.database) ∧
  poolEvents log = [.taken w.database.connected, .released w.database.connected]

-- ---------------------------------------------------------------------------
-- Reading back
-- ---------------------------------------------------------------------------

/-- The join yields a row for each participant, so none for a conversation
without participants. -/
theorem joined_created {k : String} (hconversations : ∀ c ∈ db.conversations, c.id ≠ k)
    (hparticipants : ∀ p ∈ db.participants, p.conversationId ≠ k) (now : Int) :
    ((joined (created db k now ids)).filter fun r => r.1.id = k) =
      (newRecords k ids none).map fun p => (⟨k, now, none⟩, p) := by
  have hrows : (created db k now ids).participants.filter
      (fun p => p.pending = none ∧ p.conversationId = k) = newRecords k ids none := by
    unfold created
    rw [List.filter_append, List.filter_eq_nil_iff.mpr, List.nil_append, List.filter_eq_self.mpr]
    · simp [newRecords]
    · intro p hp
      simpa using fun _ => hparticipants p hp
  have honly : ((created db k now ids).conversations.filter fun c => c.pending = none).filter
      (fun c => c.id = k) = [⟨k, now, none⟩] := by
    unfold created
    rw [List.filter_append, List.filter_append, List.filter_eq_nil_iff.mpr]
    · simp
    · intro c hc
      simpa using hconversations c (List.mem_of_mem_filter hc)
  rw [filter_joined, honly, List.flatMap_singleton, hrows]

section Created

variable {k : String} (hk : uuid k = some k) (hconversations : ∀ c ∈ w.database.conversations, c.id ≠ k)
  (hparticipants : ∀ p ∈ w.database.participants, p.conversationId ≠ k)

include hk hconversations hparticipants

/-- The rows that `findById` reads of a new conversation. -/
theorem execute_created (now t : Int) : ∃ rows : List (ConversationRecord × ParticipantRecord),
    rows.Perm ((newRecords k ids none).map fun p => (⟨k, t, none⟩, p)) ∧
      execute uuid i now (created w.database k t ids) (.selectConversation k) =
        .ok (joinedRows rows, created w.database k t ids) := by
  refine ⟨_, i.order.joined_perm _, ?_⟩
  rw [← joined_created hconversations hparticipants]
  simp only [execute, uuidParam, hk]
  rfl

theorem readsBack_created (t : Int) (hne : ids ≠ []) :
    ReadsBack uuid (newConversation k (toMillis t) ids) { w with database := created w.database k t ids } := by
  intro i hfault
  obtain ⟨rows, hperm, hexec⟩ := @execute_created uuid i w ids k hk hconversations hparticipants w.clock t
  have hrow : ∀ r ∈ rows, r.1 = ⟨k, t, none⟩ := by
    intro r hr
    obtain ⟨p, -, rfl⟩ := List.mem_map.mp (hperm.subset hr)
    rfl
  have hnonempty : joinedRows rows ≠ [] := by
    intro hnil
    have hlength := hperm.length_eq
    rw [List.map_eq_nil_iff.mp hnil] at hlength
    simp only [newRecords, List.length_map, List.length_nil] at hlength
    exact hne (List.length_eq_zero_iff.mp hlength.symm)
  have hid : ∀ row ∈ joinedRows rows, row.id = k ∧ row.createdAt = toMillis t := by
    intro row hmem
    obtain ⟨r, hr, rfl⟩ := List.mem_map.mp hmem
    rw [hrow r hr]
    exact ⟨rfl, rfl⟩
  obtain ⟨row, hmem, hhead⟩ := head?_rowsToConversations (fun row hr => (hid row hr).1) hnonempty
  have hparts : ((joinedRows rows).map rowToParticipant).Perm
      (newConversation k (toMillis t) ids).participants := by
    refine ((hperm.map fun r => joinedRow r.1 r.2).map rowToParticipant).trans (List.Perm.of_eq ?_)
    simp only [newRecords, newConversation, List.map_map]
    rfl
  refine ⟨⟨k, (joinedRows rows).map rowToParticipant, row.createdAt, none⟩, ?_,
    ⟨rfl, hparts, (hid row hmem).2, rfl⟩, ?_⟩
  · exact (findById_resolves (w := { w with database := created w.database k t ids }) hfault hexec).trans
      (congrArg (fun found => (Except.ok found, _)) hhead)
  · intro p hp
    obtain ⟨u, -, rfl⟩ := List.mem_map.mp (hparts.subset hp)
    exact ⟨rfl, rfl⟩

/-- A conversation without participants is not found. -/
theorem not_readsBack_created (t : Int) : ¬ ReadsBack uuid (newConversation k (toMillis t) [])
    { w with database := created w.database k t [] } := by
  intro hreads
  obtain ⟨rows, hperm, hexec⟩ :=
    @execute_created uuid (.calm 0 k) w [] k hk hconversations hparticipants w.clock t
  obtain ⟨found, hrun, -⟩ := hreads (.calm 0 k) rfl
  rw [List.perm_nil.mp hperm] at hexec
  have hnone := @findById_resolves uuid (.calm 0 k) { w with database := created w.database k t [] } k []
    rfl hexec
  cases hnone.symm.trans hrun

end Created

-- ---------------------------------------------------------------------------
-- The tables after a failure
-- ---------------------------------------------------------------------------

/-- What an abandoned transaction leaves behind is pending under a connection
that is gone. -/
theorem restored_abandoned (hpool : Pooled w.database) {conversations : List ConversationRecord}
    {participants : List ParticipantRecord}
    (hconversations : ∀ c ∈ conversations, c.pending = some w.database.connected)
    (hparticipants : ∀ p ∈ participants, p.pending = some w.database.connected) :
    Restored i w.database (abandoned i w conversations participants) := by
  have hcs : w.database.conversations.filter (fun c => c.pending ≠ some w.database.connected) =
      w.database.conversations := by
    rw [List.filter_eq_self]
    intro c hc
    simpa using fun h => (hpool.conversations c hc _ h).false
  have hps : w.database.participants.filter (fun p => p.pending ≠ some w.database.connected) =
      w.database.participants := by
    rw [List.filter_eq_self]
    intro p hp
    simpa using fun h => (hpool.participants p hp _ h).false
  unfold abandoned
  split
  · exact ⟨fun _ => ⟨rfl, rfl⟩, hcs, hps⟩
  · next hlost =>
    refine ⟨fun h => absurd h hlost, ?_, ?_⟩
    · rw [List.filter_append, hcs, List.filter_eq_nil_iff.mpr, List.append_nil]
      simpa using hconversations
    · rw [List.filter_append, hps, List.filter_eq_nil_iff.mpr, List.append_nil]
      simpa using hparticipants

theorem Integrity.ready (h : Integrity uuid db) (hid : uuid i.uuid = some i.uuid) : Ready uuid i db := by
  refine ⟨h.pooled, hid, fun p hp hconv => ?_, h.keys⟩
  obtain ⟨c, hc, hcid, -⟩ := h.owned p hp
  exact ⟨c, hc, hcid.trans hconv⟩

/-- A conversation is only created under an id that is new to both tables. -/
theorem Ready.fresh (h : Ready uuid i db) (hfine : firstFailure i db ids = none) : Fresh uuid i db := by
  unfold firstFailure conversationError at hfine
  simp only [Option.or_eq_none_iff, ite_eq_right_iff, List.any_eq_true, decide_eq_true_eq] at hfine
  have hnew : ∀ c ∈ db.conversations, c.id ≠ i.uuid := by
    intro c hc hid
    cases hfine.2.1.2 ⟨c, hc, hid⟩
  refine ⟨h.canonical, hnew, fun p hp hid => ?_⟩
  obtain ⟨c, hc, hcid⟩ := h.owned p hp hid
  exact hnew c hc hcid

-- ---------------------------------------------------------------------------
-- When the promise is kept
-- ---------------------------------------------------------------------------

/-- A conversation that was created can be read back unless it has no
participants; a failed transaction reports its first failure unless the ROLLBACK
fails with another error, which takes its place. -/
theorem create_allOrNothing_iff (h : Integrity uuid w.database) (hid : uuid i.uuid = some i.uuid) :
    AllOrNothing uuid i w ids ↔
      match firstFailure i w.database ids with
      | none => ids ≠ []
      | some e => i.fault (.rollback w.database.connected) = none ∨
          i.fault (.rollback w.database.connected) = some e := by
  have hready := h.ready hid
  unfold AllOrNothing
  rcases logged_create hready ids with ⟨hfine, t, -, hpool, hrun⟩ |
    ⟨e, t, conversations, participants, hfails, herror, hpool, hcs, hps, hrun⟩
  · have hfresh := hready.fresh hfine
    have husers : (newConversation i.uuid (toMillis w.clock) ids).userIds = ids := by
      simp only [newConversation, Conversation.userIds, List.map_map]
      exact List.map_id _
    rw [hrun, hfine]
    simp only [husers, hpool, true_and, and_true]
    constructor
    · rintro hreads rfl
      exact not_readsBack_created hid hfresh.conversations hfresh.participants w.clock hreads
    · exact readsBack_created hid hfresh.conversations hfresh.participants w.clock
  · have hrestored := @restored_abandoned i w h.pooled _ _ hcs hps
    rw [hrun, hfails]
    simp only [herror, hpool, hrestored, and_true, Option.some.injEq, Failure.port.injEq]
    cases i.fault (.rollback w.database.connected) with
    | none => simp
    | some e' => simp [eq_comm]

/-- The COMMIT of the first connection fails, its ROLLBACK as given. -/
def commitFault (rollback : Option String) : Statement → Option String
  | .commit 0 => some "could not serialize access"
  | .rollback 0 => rollback
  | _ => none

def commitFails (rollback : Option String) : Input :=
  { Input.calm 0 "c" with fault := commitFault rollback }

theorem create_allOrNothing_rolled_back :
    AllOrNothing some (commitFails none) (World.init 0) ["ann", "bob"] :=
  (create_allOrNothing_iff (integrity_init some 0) rfl).mpr (.inl rfl)

/-- The error of the ROLLBACK hides the one of the COMMIT, and a conversation
without participants is created but not found. -/
theorem create_not_allOrNothing :
    ¬ AllOrNothing some (commitFails (some "Connection terminated")) (World.init 0) ["ann"] ∧
      ¬ AllOrNothing some (.calm 0 "c") (World.init 0) [] := by
  refine ⟨fun h => ?_, fun h => ?_⟩
  · have hfirst : some (Failure.port "could not serialize access") =
        some (Failure.port "Connection terminated") := h.1.1
    revert hfirst
    decide
  · obtain ⟨found, hrun, -⟩ := h.1.2 (.calm 0 "c") rfl
    cases hrun

end Postgres

end Jiffy
