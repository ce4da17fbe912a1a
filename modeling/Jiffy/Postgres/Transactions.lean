-- SUMMARY: The transaction that creates a conversation, run with no other connection at work.
import Jiffy.Postgres.Calls

/-!
# Creating a conversation

A connection, three statements and a COMMIT: all of the rows are there at the
end, or none of them after the ROLLBACK.
-/

namespace Jiffy

open Js Async

namespace Postgres

/-- Transactions belong to connections that were taken out of the pool. -/
structure Pooled (db : Database) : Prop where
  connections : ∀ c ∈ db.connections, c.1 < db.connected
  conversations : ∀ c ∈ db.conversations, ∀ k, c.pending = some k → k < db.connected
  participants : ∀ p ∈ db.participants, ∀ k, p.pending = some k → k < db.connected

variable {uuid : String → Option String} {i : Input} {w : World} {db : Database} {ids : List String}
  {u : String}

/-- Text that a TEXT column can hold. -/
def NulFree (s : String) : Prop := Char.ofNat 0 ∉ s.toList

instance (s : String) : Decidable (NulFree s) := inferInstanceAs (Decidable (_ ∉ _))

/-- The rows of new participants. -/
def newRecords (id : String) (ids : List String) (pending : Option Nat) : List ParticipantRecord :=
  ids.map fun userId => ⟨id, userId, none, none, pending⟩

/-- The tables after `create`. -/
def created (db : Database) (id : String) (now : Int) (ids : List String) : Database :=
  { db with
    conversations := db.conversations ++ [⟨id, now, none⟩]
    participants := db.participants ++ newRecords id ids none
    connected := db.connected + 1 }

/-- The tables while the newest connection is out of the pool, with the rows
that are pending under it. -/
def during (db : Database) (start : Option Int) (conversations : List ConversationRecord)
    (participants : List ParticipantRecord) : Database where
  conversations := db.conversations ++ conversations
  participants := db.participants ++ participants
  messages := db.messages
  connections := db.connections ++ [(db.connected, start)]
  connected := db.connected + 1

-- ---------------------------------------------------------------------------
-- Statements of one connection
-- ---------------------------------------------------------------------------

theorem textParam_of (h : NulFree u) : textParam u = .ok u := by
  unfold textParam
  rw [if_neg]
  simpa [NulFree] using h

theorem mapM_textParam (h : ∀ u ∈ ids, NulFree u) : ids.mapM textParam = .ok ids := by
  induction ids with
  | nil => rfl
  | cons u ids ih =>
    rw [List.mapM_cons, textParam_of (h u List.mem_cons_self),
      ih fun v hv => h v (List.mem_cons_of_mem _ hv)]
    rfl

theorem mapM_textParam_ok {xs : List String} (h : ids.mapM textParam = .ok xs) :
    xs = ids ∧ ∀ u ∈ ids, NulFree u := by
  induction ids generalizing xs with
  | nil => cases h; exact ⟨rfl, fun u hu => by cases hu⟩
  | cons u ids ih =>
    rw [List.mapM_cons] at h
    obtain ⟨u', hu, h⟩ := bind_ok h
    obtain ⟨xs', hxs, h⟩ := bind_ok h
    cases h
    obtain ⟨rfl, hall⟩ := ih hxs
    refine ⟨congrArg (· :: xs') (textParam_ok hu), List.forall_mem_cons.mpr ⟨?_, hall⟩⟩
    unfold textParam at hu
    split at hu
    · cases hu
    · next hnul => simpa [NulFree] using hnul

section Statements

variable {start start' : Option Int} {conversations : List ConversationRecord}
  {participants : List ParticipantRecord}

theorem transactionOf_during (hpool : Pooled db) :
    transactionOf (during db start conversations participants) db.connected = start := by
  unfold transactionOf during
  rw [List.find?_append, List.find?_eq_none.mpr]
  · simp
  · intro c hc
    simpa using (hpool.connections c hc).ne

theorem setTransaction_during (hpool : Pooled db) :
    setTransaction (during db start conversations participants) db.connected start' =
      during db start' conversations participants := by
  unfold setTransaction during
  rw [List.map_append]
  congr 1
  rw [List.map_congr_left (g := id), List.map_id]
  · simp
  · intro c hc
    exact if_neg (hpool.connections c hc).ne

theorem execute_commit (hpool : Pooled db) (k : String) (now t : Int) (ids : List String) :
    execute uuid i now (during db start [⟨k, t, some db.connected⟩]
      (newRecords k ids (some db.connected))) (.commit db.connected) =
        .ok ((), during db none [⟨k, t, none⟩] (newRecords k ids none)) := by
  simp only [execute, setTransaction_during hpool]
  unfold during newRecords
  congr 3
  · rw [List.map_append, List.map_congr_left (g := id), List.map_id]
    · simp
    · intro c hc
      exact if_neg fun hp => (hpool.conversations c hc _ hp).false
  · rw [List.map_append, List.map_congr_left (g := id), List.map_id]
    · simp
    · intro p hp
      exact if_neg fun h => (hpool.participants p hp _ h).false

theorem execute_rollback (hpool : Pooled db) (hc : ∀ c ∈ conversations, c.pending = some db.connected)
    (hp : ∀ p ∈ participants, p.pending = some db.connected) (now : Int) :
    execute uuid i now (during db start conversations participants) (.rollback db.connected) =
      .ok ((), during db none [] []) := by
  simp only [execute, setTransaction_during hpool]
  unfold during
  congr 3
  · rw [List.filter_append, List.filter_eq_self.mpr, List.filter_eq_nil_iff.mpr]
    · simpa using hc
    · intro c hc
      simpa using fun h => (hpool.conversations c hc _ h).false
  · rw [List.filter_append, List.filter_eq_self.mpr, List.filter_eq_nil_iff.mpr]
    · simpa using hp
    · intro p hp
      simpa using fun h => (hpool.participants p hp _ h).false

/-- Why the INSERT of the conversation is refused. -/
def conversationError (i : Input) (db : Database) : Option String :=
  if db.conversations.any fun c => c.id = i.uuid then
    some "duplicate key value violates unique constraint conversations_pkey"
  else
    none

theorem execute_insertConversation (hpool : Pooled db) (now t : Int) :
    execute uuid i now (during db (some t) [] []) (.insertConversation db.connected) =
      match conversationError i db with
      | some e => .error e
      | none => .ok ([(i.uuid, toMillis t)],
          during db (some t) [⟨i.uuid, t, some db.connected⟩] []) := by
  have hrows : (during db (some t) [] []).conversations = db.conversations := List.append_nil _
  simp only [execute, insertConversation, transactionOf_during hpool, conversationError, hrows]
  split <;> simp [during]

theorem nodup_newRecords {id : String} {pending : Option Nat}
    (hnew : ∀ p ∈ db.participants, p.conversationId ≠ id)
    (hkeys : (db.participants.map ParticipantRecord.key).Nodup) :
    ((db.participants ++ newRecords id ids pending).map ParticipantRecord.key).Nodup ↔ ids.Nodup := by
  have hrecords : (newRecords id ids pending).map ParticipantRecord.key = ids.map fun u => (id, u) := by
    simp only [newRecords, List.map_map]
    rfl
  have hinj : Function.Injective fun u : String => (id, u) := fun _ _ h => congrArg Prod.snd h
  rw [List.map_append, hrecords, List.nodup_append, List.nodup_map_iff hinj]
  refine ⟨fun h => h.2.1, fun h => ⟨hkeys, h, ?_⟩⟩
  intro a ha b hb hab
  obtain ⟨p, hp, rfl⟩ := List.mem_map.mp ha
  obtain ⟨u, -, rfl⟩ := List.mem_map.mp hb
  exact hnew p hp (congrArg Prod.fst hab)

/-- What a list of participants has to be for the INSERT to accept it. -/
def Insertable (ids : List String) : Prop := (∀ u ∈ ids, NulFree u) ∧ ids.Nodup

instance (ids : List String) : Decidable (Insertable ids) := inferInstanceAs (Decidable (_ ∧ _))

/-- Why the INSERT of the participants is refused: a NUL or a repeated user. -/
def participantsError (ids : List String) : Option String :=
  match ids.mapM textParam with
  | .error e => some e
  | .ok ids =>
    if ids.Nodup then none
    else some "duplicate key value violates unique constraint conversation_participants_pkey"

theorem participantsError_eq_none : participantsError ids = none ↔ Insertable ids := by
  unfold participantsError Insertable
  by_cases hnul : ∀ u ∈ ids, NulFree u
  · rw [mapM_textParam hnul, and_iff_right hnul]
    simp
  · cases hxs : ids.mapM textParam with
    | error e => simp [hnul]
    | ok xs => exact absurd (mapM_textParam_ok hxs).2 hnul

theorem execute_insertParticipants (hid : uuid i.uuid = some i.uuid)
    (hpool : Pooled db) (hnew : ∀ p ∈ db.participants, p.conversationId ≠ i.uuid)
    (hkeys : (db.participants.map ParticipantRecord.key).Nodup) (now t : Int) (ids : List String) :
    execute uuid i now (during db (some t) [⟨i.uuid, t, some db.connected⟩] [])
        (.insertParticipants db.connected i.uuid ids) =
      match participantsError ids with
      | some e => .error e
      | none => .ok ((), during db (some t) [⟨i.uuid, t, some db.connected⟩]
          (newRecords i.uuid ids (some db.connected))) := by
  have hthere : ((during db (some t) [⟨i.uuid, t, some db.connected⟩] []).conversations.any fun c =>
      c.id = i.uuid ∧ (c.pending = none ∨ c.pending = some db.connected)) = true := by
    simp [during]
  have hrows : (during db (some t) [⟨i.uuid, t, some db.connected⟩] []).participants = db.participants :=
    List.append_nil _
  simp only [execute, insertParticipants, uuidParam, hid, transactionOf_during hpool, Option.map_some,
    participantsError]
  cases hids : ids.mapM textParam with
  | error e => rfl
  | ok ids' =>
    obtain ⟨rfl, -⟩ := mapM_textParam_ok hids
    have hnodup := @nodup_newRecords db ids' i.uuid (some db.connected) hnew hkeys
    simp only [bind, Except.bind, pure, Except.pure, hthere, hrows, Bool.not_true, Bool.false_eq_true,
      if_false]
    unfold newRecords at hnodup
    by_cases huniq : ids'.Nodup
    · rw [if_pos (hnodup.mpr huniq), if_pos huniq]
      simp [during, newRecords]
    · rw [if_neg fun h => huniq (hnodup.mp h), if_neg huniq]
      rfl

end Statements

-- ---------------------------------------------------------------------------
-- The whole transaction
-- ---------------------------------------------------------------------------

/-- What `create` relies on: connections of its own, an id in canonical form
whose participants have a conversation, and the primary key. -/
structure Ready (uuid : String → Option String) (i : Input) (db : Database) : Prop where
  pooled : Pooled db
  canonical : uuid i.uuid = some i.uuid
  owned : ∀ p ∈ db.participants, p.conversationId = i.uuid → ∃ c ∈ db.conversations, c.id = i.uuid
  keys : (db.participants.map ParticipantRecord.key).Nodup

def newConversation (id : String) (createdAt : Int) (ids : List String) : Conversation :=
  ⟨id, ids.map fun userId => ⟨userId, none, none⟩, createdAt, none⟩

/-- Why the participants are not inserted. -/
def participantsFailure (i : Input) (client : Nat) (ids : List String) : Option String :=
  if ids.length > 0 then
    (i.fault (.insertParticipants client i.uuid ids)).or (participantsError ids)
  else
    none

/-- Why the transaction of `create` fails: the error of the first of its
statements that does. -/
def firstFailure (i : Input) (db : Database) (ids : List String) : Option String :=
  (i.fault (.begin db.connected)).or <|
    ((i.fault (.insertConversation db.connected)).or (conversationError i db)).or <|
      (participantsFailure i db.connected ids).or <|
        i.fault (.commit db.connected)

/-- `w` while its newest connection is out of the pool. -/
abbrev World.during (w : World) (start : Option Int) (conversations : List ConversationRecord)
    (participants : List ParticipantRecord) : World :=
  { w with database := Postgres.during w.database start conversations participants }

/-- The first error among the answers. -/
def firstError (log : List (server.Event Failure)) : Option Failure :=
  log.findSome? fun e => match e.2 with
    | .ok _ => none
    | .error e => some e

inductive PoolEvent where
  | taken (client : Nat)
  | released (client : Nat)
deriving DecidableEq, Repr

/-- The connections taken out of the pool and put back, in order. -/
def poolEvents (log : List (server.Event Failure)) : List PoolEvent :=
  log.filterMap fun
    | ⟨.connect, .ok client⟩ => some (.taken client)
    | ⟨.release client, _⟩ => some (.released client)
    | _ => none

/-- Between `log` and `log'` there are statements, `error` the first error among
their answers. -/
def Issued (error : Option Failure) (log log' : List (server.Event Failure)) : Prop :=
  ∃ t, log' = log ++ t ∧ firstError t = error ∧ poolEvents t = []

section Issued

variable {log log' : List (server.Event Failure)} {s : Statement}

theorem firstError_append : firstError (log ++ log') = (firstError log).or (firstError log') :=
  List.findSome?_append

theorem poolEvents_append : poolEvents (log ++ log') = poolEvents log ++ poolEvents log' :=
  List.filterMap_append

theorem Issued.refl (log : List (server.Event Failure)) : Issued none log log :=
  ⟨[], (List.append_nil _).symm, rfl, rfl⟩

theorem Issued.resolved (h : Issued none log log') (rows : s.Rows) :
    Issued none log (log' ++ [⟨.query s, .ok rows⟩]) := by
  obtain ⟨t, rfl, herror, hpoolEvents⟩ := h
  refine ⟨_, List.append_assoc _ _ _, ?_, ?_⟩
  · rw [firstError_append, herror]
    rfl
  · rw [poolEvents_append, hpoolEvents]
    rfl

theorem Issued.rejected (h : Issued none log log') (e : Failure) :
    Issued (some e) log (log' ++ [⟨.query s, .error e⟩]) := by
  obtain ⟨t, rfl, herror, hpoolEvents⟩ := h
  refine ⟨_, List.append_assoc _ _ _, ?_, ?_⟩
  · rw [firstError_append, herror]
    rfl
  · rw [poolEvents_append, hpoolEvents]
    rfl

/-- A statement on tables that replace those of `w`. -/
theorem logged_query {refused : Option String} {rows : s.Rows} {db' : Database}
    (h : execute uuid i w.clock db s =
      match refused with
      | some e => .error e
      | none => .ok (rows, db')) :
    (adapter uuid).logged.run i (query s) ({ w with database := db }, log) =
      match (i.fault s).or refused with
      | some e => (.error (.port e), { w with database := db }, log ++ [⟨.query s, .error (.port e)⟩])
      | none => (.ok rows, { w with database := db' }, log ++ [⟨.query s, .ok rows⟩]) := by
  refine (Adapter.run_request (adapter uuid).logged i (.query s) _).trans ?_
  simp only [Adapter.logged_perform, adapter_perform, perform]
  cases i.fault s with
  | some e => rfl
  | none =>
    rw [h]
    cases refused <;> rfl

end Issued

/-- A statement is the first that fails, or the program goes on with its rows. -/
theorem logged_step {s : Statement} {f : s.Rows → StoreMethod α} {refused : Option String} {rows : s.Rows}
    {db' : Database} {log log' : List (server.Event Failure)}
    (h : execute uuid i w.clock db s =
      match refused with
      | some e => .error e
      | none => .ok (rows, db'))
    (hissued : Issued none log log') :
    (∃ e log'', (i.fault s).or refused = some e ∧ Issued (some (.port e)) log log'' ∧
      (adapter uuid).logged.run i ((query s).bind f) ({ w with database := db }, log') =
        (.error (.port e), { w with database := db }, log'')) ∨
    ∃ log'', (i.fault s).or refused = none ∧ Issued none log log'' ∧
      (adapter uuid).logged.run i ((query s).bind f) ({ w with database := db }, log') =
        (adapter uuid).logged.run i (f rows) ({ w with database := db' }, log'') := by
  have hrun := @logged_query uuid i w db log' s refused rows db' h
  rw [Adapter.run_bind]
  cases hfails : (i.fault s).or refused with
  | some e =>
    rw [hfails] at hrun
    rw [hrun]
    exact .inl ⟨e, _, rfl, hissued.rejected _, rfl⟩
  | none =>
    rw [hfails] at hrun
    rw [hrun]
    exact .inr ⟨_, rfl, hissued.resolved _, rfl⟩

section Create

open PostgresConversationStore

variable {log log' : List (server.Event Failure)} (h : Ready uuid i w.database)

include h

theorem logged_insertParticipants {f : Unit → StoreMethod α} (hnew : conversationError i w.database = none)
    (ids : List String) (hissued : Issued none log log') :
    (∃ e log'', participantsFailure i w.database.connected ids = some e ∧ Issued (some (.port e)) log log'' ∧
      (adapter uuid).logged.run i
        ((PostgresConversationStore.insertParticipants w.database.connected i.uuid ids).bind f)
        (w.during (some w.clock) [⟨i.uuid, w.clock, some w.database.connected⟩] [], log') =
      (.error (.port e), w.during (some w.clock) [⟨i.uuid, w.clock, some w.database.connected⟩] [], log'')) ∨
    ∃ log'', participantsFailure i w.database.connected ids = none ∧ Issued none log log'' ∧
      (adapter uuid).logged.run i
        ((PostgresConversationStore.insertParticipants w.database.connected i.uuid ids).bind f)
        (w.during (some w.clock) [⟨i.uuid, w.clock, some w.database.connected⟩] [], log') =
      (adapter uuid).logged.run i (f ())
        (w.during (some w.clock) [⟨i.uuid, w.clock, some w.database.connected⟩]
          (newRecords i.uuid ids (some w.database.connected)), log'') := by
  have hfresh : ∀ p ∈ w.database.participants, p.conversationId ≠ i.uuid := by
    intro p hp hid
    obtain ⟨c, hc, hcid⟩ := h.owned p hp hid
    unfold conversationError at hnew
    rw [if_pos (List.any_eq_true.mpr ⟨c, hc, by simpa using hcid⟩)] at hnew
    cases hnew
  unfold PostgresConversationStore.insertParticipants participantsFailure
  cases ids with
  | nil => exact .inr ⟨log', rfl, hissued, rfl⟩
  | cons u ids =>
    rw [if_pos (by simp), if_pos (by simp)]
    exact logged_step (execute_insertParticipants h.canonical h.pooled hfresh h.keys _ _ _) hissued

/-- The part of `create` between `connect` and `release`: all of the rows are
committed, or it stops at the first statement that fails. -/
theorem logged_insertAll (ids : List String) (log : List (server.Event Failure)) :
    (∃ log', firstFailure i w.database ids = none ∧ Issued none log log' ∧
      (adapter uuid).logged.run i (insertAll w.database.connected ids) (w.during none [] [], log) =
        (.ok (newConversation i.uuid (toMillis w.clock) ids),
          w.during none [⟨i.uuid, w.clock, none⟩] (newRecords i.uuid ids none), log')) ∨
    ∃ e log' start conversations participants, firstFailure i w.database ids = some e ∧
      Issued (some (.port e)) log log' ∧ (∀ c ∈ conversations, c.pending = some w.database.connected) ∧
      (∀ p ∈ participants, p.pending = some w.database.connected) ∧
      (adapter uuid).logged.run i (insertAll w.database.connected ids) (w.during none [] [], log) =
        (.error (.port e), w.during start conversations participants, log') := by
  have hbegin : execute uuid i w.clock (during w.database none [] []) (.begin w.database.connected) =
      .ok ((), during w.database (some w.clock) [] []) :=
    congrArg (fun db => Except.ok ((), db)) (setTransaction_during h.pooled)
  have hinsert := @execute_insertConversation uuid i w.database h.pooled w.clock w.clock
  have hcommit := @execute_commit uuid i w.database (some w.clock) h.pooled i.uuid w.clock w.clock ids
  have hown : ∀ c ∈ [(⟨i.uuid, w.clock, some w.database.connected⟩ : ConversationRecord)],
      c.pending = some w.database.connected := by simp
  have hrecords : ∀ p ∈ newRecords i.uuid ids (some w.database.connected),
      p.pending = some w.database.connected := by simp [newRecords]
  unfold insertAll firstFailure
  simp only [Proc.bind_eq_bind]
  -- BEGIN
  rcases @logged_step uuid i w _ _ _ _ none _ _ _ _ hbegin (.refl log) with
    ⟨e, log₁, hfails, hissued, hrun⟩ | ⟨log₁, hfine, hissued, hrun⟩
  · rw [Option.or_none] at hfails
    exact .inr ⟨e, log₁, none, [], [], by simp [hfails], hissued, by simp, by simp, hrun⟩
  rw [Option.or_none] at hfine
  rw [hrun, hfine, Option.none_or]
  -- the conversation
  rcases logged_step hinsert hissued with ⟨e, log₂, hfails, hissued, hrun⟩ | ⟨log₂, hfine, hissued, hrun⟩
  · exact .inr ⟨e, log₂, some w.clock, [], [], by simp [hfails], hissued, by simp, by simp, hrun⟩
  rw [hrun, hfine, Option.none_or]
  -- its participants
  rcases logged_insertParticipants h (Option.or_eq_none_iff.mp hfine).2 ids hissued with
    ⟨e, log₃, hfails, hissued, hrun⟩ | ⟨log₃, hfine, hissued, hinserted⟩
  · exact .inr ⟨e, log₃, some w.clock, _, [], by simp [hfails], hissued, hown, by simp, hrun⟩
  rw [hfine, Option.none_or]
  -- COMMIT
  rcases @logged_step uuid i w _ _ _ _ none _ _ _ _ hcommit hissued with
    ⟨e, log₄, hfails, hissued, hrun⟩ | ⟨log₄, hfine, hissued, hrun⟩
  · rw [Option.or_none] at hfails
    exact .inr ⟨e, log₄, some w.clock, _, _, hfails, hissued, hown, hrecords, hinserted.trans hrun⟩
  · rw [Option.or_none] at hfine
    exact .inl ⟨log₄, hfine, hissued, hinserted.trans hrun⟩

/-- What became of `create`'s rows when its transaction failed: nothing, unless
the ROLLBACK failed as well. -/
def abandoned (i : Input) (w : World) (conversations : List ConversationRecord)
    (participants : List ParticipantRecord) : Database :=
  if i.fault (.rollback w.database.connected) = none then
    { w.database with connected := w.database.connected + 1 }
  else
    { w.database with
      conversations := w.database.conversations ++ conversations
      participants := w.database.participants ++ participants
      connected := w.database.connected + 1 }

omit h in
theorem logged_release (hpool : Pooled w.database) (start : Option Int)
    (conversations : List ConversationRecord) (participants : List ParticipantRecord) :
    (adapter uuid).logged.run i (syncCall (.release w.database.connected))
      (w.during start conversations participants, log) =
    (.ok (), { w with database := { w.database with
        conversations := w.database.conversations ++ conversations
        participants := w.database.participants ++ participants
        connected := w.database.connected + 1 } },
      log ++ [⟨.release w.database.connected, .ok ()⟩]) := by
  have hout : (w.database.connections ++ [(w.database.connected, start)]).filter
      (fun c => c.1 ≠ w.database.connected) = w.database.connections := by
    rw [List.filter_append, List.filter_eq_self.mpr]
    · simp
    · intro c hc
      simpa using (hpool.connections c hc).ne
  refine (Adapter.run_perform (adapter uuid).logged i (.release w.database.connected) _).trans ?_
  simp only [Adapter.logged_perform, adapter_perform, perform, during, hout]

/-- `create` inserts the conversation with all of its participants, or it
rejects. -/
theorem logged_create (ids : List String) :
    (firstFailure i w.database ids = none ∧ ∃ t, firstError t = none ∧
      poolEvents t = [.taken w.database.connected, .released w.database.connected] ∧
      (adapter uuid).logged.run i (create ids) (w, []) =
        (.ok (newConversation i.uuid (toMillis w.clock) ids),
          { w with database := created w.database i.uuid w.clock ids }, t)) ∨
    ∃ e t conversations participants, firstFailure i w.database ids = some e ∧ firstError t = some (.port e) ∧
      poolEvents t = [.taken w.database.connected, .released w.database.connected] ∧
      (∀ c ∈ conversations, c.pending = some w.database.connected) ∧
      (∀ p ∈ participants, p.pending = some w.database.connected) ∧
      (adapter uuid).logged.run i (create ids) (w, []) =
        (.error (.port ((i.fault (.rollback w.database.connected)).getD e)),
          { w with database := abandoned i w conversations participants }, t) := by
  have hconnect : (adapter uuid).logged.run i connect (w, []) =
      (.ok w.database.connected, w.during none [] [], [⟨.connect, .ok w.database.connected⟩]) := by
    unfold World.during during
    rw [List.append_nil, List.append_nil]
    rfl
  unfold create
  simp only [Proc.bind_eq_bind, Adapter.run_bind, hconnect, Adapter.run_ensuring,
    Proc.tryCatch_eq_catching, Adapter.run_catching]
  generalize hfirst : [(⟨.connect, .ok w.database.connected⟩ : server.Event Failure)] = first
  have hnone : firstError first = none ∧ poolEvents first = [.taken w.database.connected] := by
    rw [← hfirst]
    exact ⟨rfl, rfl⟩
  rcases logged_insertAll h ids first with ⟨log, hfine, ⟨t, rfl, herror, hpoolEvents⟩, hrun⟩ |
    ⟨e, log, start, conversations, participants, hfails, ⟨t, rfl, herror, hpoolEvents⟩, hcs, hps, hrun⟩
  · refine .inl ⟨hfine, first ++ t ++ [⟨.release w.database.connected, .ok ()⟩], ?_, ?_, ?_⟩
    · rw [firstError_append, firstError_append, hnone.1, herror]
      rfl
    · rw [poolEvents_append, poolEvents_append, hnone.2, hpoolEvents]
      rfl
    · rw [hrun]
      simp only [logged_release h.pooled]
      rfl
  · have hrollback := @logged_query uuid i w _ (first ++ t) _ none _ _
      (@execute_rollback uuid i w.database start _ _ h.pooled hcs hps w.clock)
    have htail : ∀ answer : Except Failure Unit,
        firstError (first ++ t ++ [⟨.query (.rollback w.database.connected), answer⟩] ++
          [⟨.release w.database.connected, .ok ()⟩]) = some (.port e) ∧
        poolEvents (first ++ t ++ [⟨.query (.rollback w.database.connected), answer⟩] ++
          [⟨.release w.database.connected, .ok ()⟩]) =
            [.taken w.database.connected, .released w.database.connected] := by
      intro answer
      rw [firstError_append, firstError_append, firstError_append, hnone.1, herror, poolEvents_append,
        poolEvents_append, poolEvents_append, hnone.2, hpoolEvents]
      exact ⟨rfl, rfl⟩
    refine .inr ⟨e, _, conversations, participants, hfails, (htail ((i.fault
      (.rollback w.database.connected)).elim (.ok ()) fun e => .error (.port e))).1, (htail _).2, hcs, hps, ?_⟩
    rw [hrun]
    simp only [hrollback, Option.or_none]
    unfold abandoned
    cases i.fault (.rollback w.database.connected) with
    | some e' =>
      simp only [logged_release h.pooled]
      rfl
    | none =>
      simp only [Proc.throw_eq_throw, Adapter.run_throw, logged_release h.pooled, List.append_nil]
      rfl
end Create

-- ---------------------------------------------------------------------------
-- When no statement fails of itself
-- ---------------------------------------------------------------------------

/-- What the id and the rows of a new conversation are, before it is created. -/
structure Fresh (uuid : String → Option String) (i : Input) (db : Database) : Prop where
  canonical : uuid i.uuid = some i.uuid
  conversations : ∀ c ∈ db.conversations, c.id ≠ i.uuid
  participants : ∀ p ∈ db.participants, p.conversationId ≠ i.uuid

section Fresh

variable (hfault : ∀ s, i.fault s = none) (hpool : Pooled w.database) (hfresh : Fresh uuid i w.database)
  (hkeys : (w.database.participants.map ParticipantRecord.key).Nodup)

include hfault hpool hfresh hkeys

omit hpool hkeys in
theorem firstFailure_of_fresh : firstFailure i w.database ids = none ↔ Insertable ids := by
  have hnew : conversationError i w.database = none := if_neg (by simpa using hfresh.conversations)
  simp only [firstFailure, participantsFailure, hfault, hnew, Option.none_or, Option.or_none]
  cases ids with
  | nil => simp [Insertable]
  | cons u ids =>
    rw [if_pos (by simp)]
    exact participantsError_eq_none

/-- `create` inserts the conversation with all of its participants, or rejects
and leaves the tables as they were. -/
theorem run_create (ids : List String) :
    (Insertable ids ∧ (adapter uuid).run i (PostgresConversationStore.create ids) w =
      (.ok (newConversation i.uuid (toMillis w.clock) ids),
        { w with database := created w.database i.uuid w.clock ids })) ∨
    (¬ Insertable ids ∧ ∃ e, (adapter uuid).run i (PostgresConversationStore.create ids) w =
      (.error (.port e), { w with database := { w.database with connected := w.database.connected + 1 } })) := by
  have hready : Ready uuid i w.database :=
    ⟨hpool, hfresh.canonical, fun p hp hid => absurd hid (hfresh.participants p hp), hkeys⟩
  rw [Adapter.run_logged _ _ _ _ []]
  rcases logged_create hready ids with ⟨hfine, t, -, -, hrun⟩ | ⟨e, t, cs, ps, hfails, -, -, -, -, hrun⟩
  · refine .inl ⟨(firstFailure_of_fresh hfault hfresh).mp hfine, ?_⟩
    rw [hrun]
  · refine .inr ⟨fun hok => ?_, e, ?_⟩
    · rw [(firstFailure_of_fresh hfault hfresh).mpr hok] at hfails
      cases hfails
    · rw [hrun]
      simp [hfault, abandoned]

end Fresh

end Postgres

end Jiffy
