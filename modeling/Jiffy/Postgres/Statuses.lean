-- SUMMARY: The status of every HTTP request over the Postgres stores, and when it is a 500.
import Jiffy.Http.App
import Jiffy.Postgres.HistoryPage
import Jiffy.Postgres.Integrity

/-!
# Statuses

One request on the tables that interleaved calls have left behind. Every error
of a statement ends up as a 500, so a status depends on which parameters reach
the database, and on which of them the database takes.
-/

namespace Jiffy

open Js Async MessagingService

namespace Postgres

-- ---------------------------------------------------------------------------
-- What the ids of a request name
-- ---------------------------------------------------------------------------

/-- There is a committed conversation `k`. -/
def IsConversation (db : Database) (k : String) : Prop :=
  ∃ c ∈ db.conversations, c.pending = none ∧ c.id = k

/-- `u` is a committed participant of conversation `k`. -/
def Participates (db : Database) (k u : String) : Prop :=
  ∃ p ∈ db.participants, p.pending = none ∧ p.key = (k, u)

def IsMessage (db : Database) (k : String) : Prop := ∃ m ∈ db.messages, m.id = k

/-- The participants of conversation `k`, in the order in which their rows come. -/
def members (i : Input) (db : Database) (k : String) : List String :=
  (i.order.joined ((joined db).filter fun r => r.1.id = k)).map fun r => r.2.userId

section Requests

variable (uuid : String → Option String)

/-- The path names a conversation, if it is to name one. -/
def NamesConversation (db : Database) (route : Route) : Prop :=
  ∀ c, route.conversationId = some c → ∃ k, uuid c = some k ∧ IsConversation db k

/-- The path names a message, if it is to name one. -/
def NamesMessage (db : Database) (route : Route) : Prop :=
  ∀ m, route.messageId = some m → ∃ k, uuid m = some k ∧ IsMessage db k

/-- The caller is in the conversation that the path names. -/
def LetsIn (db : Database) (request : Request) : Prop :=
  ∃ c k, request.route.conversationId = some c ∧ uuid c = some k ∧ Participates db k request.userId

/-- The status is not a 500, malformed input gets a 400, and an id that names
nothing gets a 404. A message is looked up for participants only. -/
structure Answered (reader : TextReader) (db : Database) (request : Request) (status : Nat) : Prop where
  fine : status ≠ 500
  malformed : request.malformed reader = true → status = 400
  conversation : request.malformed reader = false → ¬ NamesConversation uuid db request.route →
    status = 404
  message : LetsIn uuid db request → ¬ NamesMessage uuid db request.route → status = 404

open ConversationsRouter in
/-- Every parameter that reaches a statement is one that the database takes. -/
def Acceptable (reader : TextReader) (i : Input) (db : Database) (request : Request) : Prop :=
  let u := request.userId
  match request.route with
  | .createConversation body => request.malformed reader = false →
    ∀ ids, participantIdsOf body = some ids → u ∈ ids → i.gate u ids = .ok true → Insertable ids
  | .listConversations => NulFree u
  | .getConversation c | .markRead c | .deleteConversation c => ∃ k, uuid c = some k
  | .sendMessage c body => request.malformed reader = false → ∃ k, uuid c = some k ∧
    (Participates db k u → i.gate u (members i db k) = .ok true →
      ∀ text, (bodyField body "body").bind Json.asString = some text → NulFree text)
  | .listMessages c _ before => request.malformed reader = false → ∃ k, uuid c = some k ∧
    (Participates db k u → ∀ raw, before = some raw → Storable (reader.date raw.text))
  | .deleteMessage c m => ∃ k, uuid c = some k ∧ (Participates db k u → ∃ l, uuid m = some l)

/-- An answer to a request with its body still in bytes. One that cannot be parsed
is malformed. -/
def AppAnswered (json : HttpApp.BodyParser) (reader : TextReader) (db : Database) (raw : RawRequest)
    (status : Nat) : Prop :=
  match json raw.body with
  | .error _ => status = 400
  | .ok body => Answered uuid reader db ⟨raw.userId, raw.endpoint.route body⟩ status

def AppAcceptable (json : HttpApp.BodyParser) (reader : TextReader) (i : Input) (db : Database)
    (raw : RawRequest) : Prop :=
  match json raw.body with
  | .error _ => False
  | .ok body => Acceptable uuid reader i db ⟨raw.userId, raw.endpoint.route body⟩

/-- One request of the app over the Postgres stores, at the time of the turn. -/
def httpApp (json : HttpApp.BodyParser) (reader : TextReader) (i : Input) (request : RawRequest)
    (w : World) : Except Failure Response × World :=
  (adapter uuid).run i ((HttpApp.handle json reader request).implement implementation)
    ((adapter uuid).tick i w)

end Requests

/-- The database is reachable and has room for what it is given, the gate answers,
and the clock shows a time that a TIMESTAMPTZ can hold. A refusal that does not
come from the type of a parameter, such as an index row over its maximum size,
is a fault of the statement and counts as the database being unavailable. -/
structure Available (i : Input) : Prop where
  reachable : ∀ s, i.fault s = none
  answers : ∀ u ids, ∃ allowed, i.gate u ids = .ok allowed
  clock : minTimestamp * 1000 ≤ i.now ∧ i.now < maxTimestamp * 1000

variable {uuid : String → Option String} {i : Input} {w : World}

-- ---------------------------------------------------------------------------
-- The participant check
-- ---------------------------------------------------------------------------

theorem Integrity.mem_joined_iff {db : Database} (h : Integrity uuid db) {p : ParticipantRecord} :
    (∃ c, (c, p) ∈ joined db) ↔ p ∈ db.participants ∧ p.pending = none := by
  constructor
  · rintro ⟨c, hr⟩
    obtain ⟨-, -, hp, hpending, -⟩ := mem_joined.mp hr
    exact ⟨hp, hpending⟩
  · rintro ⟨hp, hpending⟩
    obtain ⟨c, hc, hid, howner⟩ := h.owned p hp
    refine ⟨c, mem_joined.mpr ⟨hc, ?_, hp, hpending, hid.symm⟩⟩
    rcases howner with hnone | hsame
    · exact hnone
    · exact hsame.trans hpending

/-- What `requireParticipant` comes to. -/
inductive Check (uuid : String → Option String) (i : Input) (db : Database) (c u : String) :
    Except Failure Conversation → Prop where
  | unreadable {e : String} (hc : uuid c = none) : Check uuid i db c u (.error (.port e))
  | unknown {k : String} (hc : uuid c = some k) (hout : ¬ Participates db k u) :
    Check uuid i db c u (.error (.core (.conversationNotFound c)))
  | stranger {k : String} (hc : uuid c = some k) (hthere : IsConversation db k)
      (hout : ¬ Participates db k u) : Check uuid i db c u (.error (.core (.notAParticipant c u)))
  | participant {conversation : Conversation} {r : ConversationRecord × ParticipantRecord}
      (hc : uuid c = some conversation.id) (hthere : IsConversation db conversation.id)
      (hin : Participates db conversation.id u)
      (hmembers : conversation.userIds = members i db conversation.id)
      (hr : ReadFor db u conversation r) : Check uuid i db c u (.ok conversation)

theorem Integrity.fresh (h : Integrity uuid w.database) (hadm : admissible uuid i w = true) :
    Fresh uuid i w.database := by
  have hnew : ∀ c ∈ w.database.conversations, c.id ≠ i.uuid := by
    simp only [admissible, Bool.and_eq_true, List.all_eq_true, decide_eq_true_eq] at hadm
    exact hadm.1.2
  refine ⟨admissible_canonical hadm, hnew, fun p hp hid => ?_⟩
  obtain ⟨c, hc, hcid, -⟩ := h.owned p hp
  exact hnew c hc (hcid.trans hid)

theorem mem_members {db : Database} {k u : String} :
    u ∈ members i db k ↔ ∃ r ∈ joined db, r.2.key = (k, u) := by
  unfold members
  rw [List.mem_map]
  constructor
  · rintro ⟨r, hr, rfl⟩
    obtain ⟨hr, hid⟩ := List.mem_filter.mp ((i.order.joined_perm _).subset hr)
    have hk : r.1.id = k := by simpa using hid
    exact ⟨r, hr, Prod.ext ((mem_joined.mp hr).2.2.2.2.trans hk) rfl⟩
  · rintro ⟨r, hr, hkey⟩
    obtain ⟨hk, hu⟩ := Prod.mk.inj hkey
    refine ⟨r, (i.order.joined_perm _).symm.subset (List.mem_filter.mpr ⟨hr, ?_⟩), hu⟩
    simpa using (mem_joined.mp hr).2.2.2.2.symm.trans hk

theorem Integrity.participates_iff {db : Database} (h : Integrity uuid db) {k u : String} :
    Participates db k u ↔ u ∈ members i db k := by
  rw [mem_members]
  constructor
  · rintro ⟨p, hp, hpending, hkey⟩
    obtain ⟨c, hr⟩ := h.mem_joined_iff.mpr ⟨hp, hpending⟩
    exact ⟨(c, p), hr, hkey⟩
  · rintro ⟨r, hr, hkey⟩
    obtain ⟨hp, hpending⟩ := h.mem_joined_iff.mp ⟨r.1, hr⟩
    exact ⟨r.2, hp, hpending, hkey⟩

theorem awaitParticipant_check (hint : Integrity uuid w.database) (hfault : ∀ s, i.fault s = none)
    (c u : String) : ∃ x, (portAdapter uuid).run i (awaitParticipant c u) w = (x, w) ∧
      Check uuid i w.database c u x := by
  unfold awaitParticipant requireParticipant
  simp only [Proc.bind_eq_bind, Adapter.run_bind]
  rw [Adapter.run_request, portAdapter_perform, implementation]
  unfold PostgresConversationStore.findById
  rw [Proc.bind_eq_bind, Adapter.run_bind]
  cases hc : uuid c with
  | none =>
    have hexec : execute uuid i w.clock w.database (.selectConversation c) =
        .error s!"invalid input syntax for type uuid: {c}" := by
      simp only [execute, uuidParam, hc]
      rfl
    rw [query_rejects (hfault _) hexec]
    exact ⟨_, rfl, .unreadable hc⟩
  | some k =>
    generalize hrows : i.order.joined ((joined w.database).filter fun r => r.1.id = k) = rows
    have hexec : execute uuid i w.clock w.database (.selectConversation c) =
        .ok (joinedRows rows, w.database) := by
      simp only [execute, uuidParam, hc, ← hrows]
      rfl
    obtain ⟨-, k', hk', htables, hid, -⟩ := execute_selectConversation hexec
    obtain rfl : k = k' := Option.some.inj (hc.symm.trans hk')
    have hmembers : members i w.database k = (joinedRows rows).map fun row => row.userId := by
      unfold members joinedRows
      rw [hrows, List.map_map]
      rfl
    rw [query_resolves (hfault _) hexec]
    cases rows with
    | nil =>
      refine ⟨_, rfl, .unknown hc ?_⟩
      rw [hint.participates_iff (i := i), hmembers]
      exact List.not_mem_nil
    | cons r rows =>
      obtain ⟨first, -, hhead⟩ := head?_rowsToConversations hid (List.cons_ne_nil _ _)
      generalize hread : Conversation.mk k _ first.createdAt none = read at hhead
      have huserIds : read.userIds = members i w.database k := by
        rw [hmembers, ← hread]
        exact List.map_map
      have hthere : IsConversation w.database k := by
        obtain ⟨r', hr', hrow⟩ := htables _ List.mem_cons_self
        obtain ⟨hconv, hpending, -⟩ := mem_joined.mp hr'
        exact ⟨r'.1, hconv, hpending, (congrArg (fun row => row.id) hrow).symm.trans
          (hid _ List.mem_cons_self)⟩
      have hmember := @isParticipant_iff read u
      rw [huserIds, ← hint.participates_iff] at hmember
      simp only [Proc.pure_eq_ret, Adapter.run_ret, hhead]
      cases hu : isParticipant read u with
      | true =>
        obtain ⟨r', hr'⟩ := clearedAtOf_row htables (List.mem_of_mem_head? hhead) hu
        obtain rfl : k = read.id := congrArg (fun c => c.id) hread
        exact ⟨_, rfl, .participant hc hthere (hmember.mp hu) huserIds hr'⟩
      | false =>
        refine ⟨_, rfl, .stranger hc hthere fun hin => ?_⟩
        rw [hmember.mpr hin] at hu
        cases hu

-- ---------------------------------------------------------------------------
-- Statements past the check
-- ---------------------------------------------------------------------------

theorem timestampParam_unstorable {d : Date} (h : ¬ Storable d) : ∃ e, timestampParam d = .error e := by
  unfold timestampParam
  split
  · exact ⟨_, rfl⟩
  · next t ht =>
    split
    · next hrange =>
      refine absurd ⟨t, ?_, hrange⟩ h
      cases d
      exact congrArg Date.mk ht
    · exact ⟨_, rfl⟩

theorem textParam_nul {s : String} (h : ¬ NulFree s) : ∃ e, textParam s = .error e := by
  unfold textParam
  split
  · exact ⟨_, rfl⟩
  · next hnul => exact absurd (by simpa [NulFree] using hnul) h

/-- A page comes back unless its `before` is out of range. -/
theorem listByConversation_settles (hfault : ∀ s, i.fault s = none) {c k : String} (hc : uuid c = some k)
    {options : ListMessagesOptions} {limit : Option Int}
    (hlimit : options.limit = limit.map fun z => .finite z)
    (hafter : ∀ d, options.after = some d → Storable d) :
    ((∀ d, options.before = some d → Storable d) ∧ ∃ messages,
      (adapter uuid).run i (PostgresMessageStore.listByConversation c options) w = (.ok messages, w)) ∨
    (¬ (∀ d, options.before = some d → Storable d) ∧ ∃ e,
      (adapter uuid).run i (PostgresMessageStore.listByConversation c options) w = (.error (.port e), w)) := by
  unfold PostgresMessageStore.listByConversation
  simp only [Proc.bind_eq_bind, Adapter.run_bind]
  by_cases hbefore : ∀ d, options.before = some d → Storable d
  · refine .inl ⟨hbefore, ?_⟩
    obtain ⟨before, -, hbparam⟩ := bound_storable hbefore
    obtain ⟨after, -, haparam⟩ := bound_storable hafter
    obtain ⟨rows, hexec⟩ : ∃ rows, execute uuid i w.clock w.database
        (.selectHistory (PostgresMessageStore.historyQuery c options)) = .ok (rows, w.database) := by
      simp only [execute, selectHistory_historyQuery, uuidParam, hc, hbparam, haparam, hlimit,
        bigintParam_pageSize]
      exact ⟨_, rfl⟩
    rw [query_resolves (hfault _) hexec]
    exact ⟨_, rfl⟩
  · refine .inr ⟨hbefore, ?_⟩
    simp only [not_forall] at hbefore
    obtain ⟨d, hd, hout⟩ := hbefore
    obtain ⟨e, he⟩ := timestampParam_unstorable hout
    have hexec : execute uuid i w.clock w.database
        (.selectHistory (PostgresMessageStore.historyQuery c options)) = .error e := by
      simp only [execute, selectHistory_historyQuery, uuidParam, hc, hd, Option.mapM_some, he]
      rfl
    rw [query_rejects (hfault _) hexec]
    exact ⟨e, rfl⟩

theorem withCleared_before (options : ListMessagesOptions) (clearedAt : Option Int) :
    (withCleared options clearedAt).before = options.before := by
  unfold withCleared
  split <;> rfl

theorem withCleared_limit (options : ListMessagesOptions) (clearedAt : Option Int) :
    (withCleared options clearedAt).limit = options.limit := by
  unfold withCleared
  split <;> rfl

theorem Integrity.reader_nulFree {db : Database} (h : Integrity uuid db) {u : String}
    {conversation : Conversation} {r : ConversationRecord × ParticipantRecord}
    (hr : ReadFor db u conversation r) : NulFree u :=
  (Prod.mk.inj hr.key).2 ▸ h.users r.2 (mem_joined.mp hr.stored).2.2.1

theorem Integrity.storable {db : Database} (h : Integrity uuid db) {u : String}
    {conversation : Conversation} {r : ConversationRecord × ParticipantRecord}
    (hr : ReadFor db u conversation r) {options : ListMessagesOptions} (hnone : options.after = none) :
    ∀ d, (withCleared options (clearedAtOf conversation u)).after = some d → Storable d := by
  rw [hr.clearedAt]
  cases hcleared : r.2.clearedAt with
  | none =>
    intro d hd
    cases hnone.symm.trans hd
  | some t =>
    intro d hd
    cases hd
    obtain ⟨ms, rfl, hparam⟩ := h.cleared r.2 (mem_joined.mp hr.stored).2.2.1 t hcleared
    rw [toMillis_mul]
    by_contra hout
    obtain ⟨e, he⟩ := timestampParam_unstorable hout
    rw [he] at hparam
    cases hparam

theorem Available.storable (h : Available i) (hclock : w.clock = i.now) :
    timestampParam (Date.of (toMillis w.clock)) = .ok (toMillis w.clock * 1000) := by
  obtain ⟨hmin, hmax⟩ := h.clock
  unfold timestampParam
  simp only [Date.of, toMillis, hclock]
  rw [if_pos]
  exact ⟨Int.le_ediv_of_mul_le (by decide) hmin, Int.ediv_lt_of_lt_mul (by decide) hmax⟩

/-- The INSERT of a message fails on a NUL only. -/
theorem createMessage_settles (hfault : ∀ s, i.fault s = none)
    (hadm : ∀ m ∈ w.database.messages, m.id ≠ i.uuid)
    {c u body : String} (hc : uuid c = some c) (hthere : IsConversation w.database c) (hu : NulFree u) :
    (NulFree body ∧ ∃ m w', (adapter uuid).run i (PostgresMessageStore.create ⟨c, u, body⟩) w = (.ok m, w')) ∨
    (¬ NulFree body ∧ ∃ e,
      (adapter uuid).run i (PostgresMessageStore.create ⟨c, u, body⟩) w = (.error (.port e), w)) := by
  have hfresh : (w.database.messages.any fun m => m.id = i.uuid) = false := by
    simpa [List.any_eq_false] using hadm
  have hfound : (w.database.conversations.any fun x => x.id = c ∧ x.pending = none) = true := by
    obtain ⟨x, hx, hpending, hid⟩ := hthere
    exact List.any_eq_true.mpr ⟨x, hx, by simp [hid, hpending]⟩
  unfold PostgresMessageStore.create
  simp only [Proc.bind_eq_bind, Adapter.run_bind]
  by_cases hbody : NulFree body
  · refine .inl ⟨hbody, ?_⟩
    obtain ⟨row, db, hexec⟩ : ∃ row db, execute uuid i w.clock w.database (.insertMessage c u body) =
        .ok ([row], db) := by
      simp only [execute, insertMessage, uuidParam, hc, textParam_of hu, textParam_of hbody, bind,
        Except.bind, hfresh, hfound, Bool.false_eq_true, if_false, if_true]
      exact ⟨_, _, rfl⟩
    rw [query_resolves (hfault _) hexec]
    exact ⟨_, _, rfl⟩
  · refine .inr ⟨hbody, ?_⟩
    obtain ⟨e, he⟩ := textParam_nul hbody
    have hexec : execute uuid i w.clock w.database (.insertMessage c u body) = .error e := by
      simp only [execute, insertMessage, uuidParam, hc, textParam_of hu, he, bind, Except.bind]
    rw [query_rejects (hfault _) hexec]
    exact ⟨e, rfl⟩

/-- The lookup of a message. -/
theorem findMessage_settles (hfault : ∀ s, i.fault s = none) (id : String) :
    (uuid id = none ∧ ∃ e,
      (adapter uuid).run i (PostgresMessageStore.findById id) w = (.error (.port e), w)) ∨
    ∃ k, uuid id = some k ∧ ∃ found,
      (adapter uuid).run i (PostgresMessageStore.findById id) w = (.ok found, w) ∧
      (IsMessage w.database k → found ≠ none) ∧
      ∀ m, found = some m → ∃ r ∈ w.database.messages, r.id = k ∧ rowToMessage r.row = m := by
  unfold PostgresMessageStore.findById
  simp only [Proc.bind_eq_bind, Adapter.run_bind]
  cases hid : uuid id with
  | none =>
    have hexec : execute uuid i w.clock w.database (.selectMessage id) =
        .error s!"invalid input syntax for type uuid: {id}" := by
      simp only [execute, uuidParam, hid]
      rfl
    rw [query_rejects (hfault _) hexec]
    exact .inl ⟨rfl, _, rfl⟩
  | some k =>
    have hexec : execute uuid i w.clock w.database (.selectMessage id) =
        .ok ((w.database.messages.filter fun m => m.id = k).map MessageRecord.row, w.database) := by
      simp only [execute, uuidParam, hid]
      rfl
    rw [query_resolves (hfault _) hexec]
    refine .inr ⟨k, rfl, _, rfl, ?_, fun m hm => ?_⟩
    · rintro ⟨m, hm, hk⟩ hnone
      simp only [Option.map_eq_none_iff, List.head?_eq_none_iff, List.map_eq_nil_iff] at hnone
      have hmem : m ∈ w.database.messages.filter fun m => m.id = k :=
        List.mem_filter.mpr ⟨hm, by simpa using hk⟩
      rw [hnone] at hmem
      cases hmem
    · obtain ⟨row, hrow, hrm⟩ := Option.map_eq_some_iff.mp hm
      obtain ⟨r, hr, rfl⟩ := List.mem_map.mp (List.mem_of_mem_head? hrow)
      obtain ⟨hr, hk⟩ := List.mem_filter.mp hr
      exact ⟨r, hr, by simpa using hk, hrm⟩

/-- The tombstone of a message that is there and not deleted. -/
theorem softDelete_resolves (hfault : ∀ s, i.fault s = none) {id k : String} {at_ : Int}
    (hid : uuid id = some k) (hat : timestampParam (Date.of at_) = .ok (at_ * 1000))
    {r : MessageRecord} (hr : r ∈ w.database.messages) (hk : r.id = k) (hlive : r.deletedAt = none) :
    ∃ m w', (adapter uuid).run i (PostgresMessageStore.softDelete id at_) w = (.ok m, w') := by
  have hmem : r ∈ w.database.messages.filter fun m => decide (m.id = k ∧ m.deletedAt = none) :=
    List.mem_filter.mpr ⟨hr, by simp [hk, hlive]⟩
  obtain ⟨row, rows, db, hexec⟩ : ∃ row rows db, execute uuid i w.clock w.database
      (.updateDeleted id (Date.of at_)) = .ok (row :: rows, db) := by
    simp only [execute, updateDeleted, uuidParam, hid, hat, bind, Except.bind, pure, Except.pure]
    cases hhit : w.database.messages.filter fun m => decide (m.id = k ∧ m.deletedAt = none) with
    | nil =>
      rw [hhit] at hmem
      cases hmem
    | cons m ms => exact ⟨_, _, _, rfl⟩
  unfold PostgresMessageStore.softDelete
  simp only [Proc.bind_eq_bind, Adapter.run_bind]
  rw [query_resolves (hfault _) hexec]
  exact ⟨_, _, rfl⟩

theorem listPreviews_resolves {queries : List PreviewQuery}
    (h : ∀ q ∈ queries, ∃ messages, (adapter uuid).run i
      (PostgresMessageStore.listByConversation q.conversation.id q.options) w = (.ok messages, w)) :
    ∃ previews, (adapter uuid).run i (listPreviews queries) w = (.ok previews, w) := by
  induction queries with
  | nil => exact ⟨[], rfl⟩
  | cons q queries ih =>
    obtain ⟨messages, hpage⟩ := h q List.mem_cons_self
    obtain ⟨previews, hrest⟩ := ih fun q hq => h q (List.mem_cons_of_mem _ hq)
    unfold listPreviews
    simp only [Proc.bind_eq_bind, Adapter.run_bind, hpage, hrest]
    exact ⟨_, rfl⟩

/-- The list comes back unless the caller's own id holds a NUL. -/
theorem listConversations_settles (hint : Integrity uuid w.database) (hfault : ∀ s, i.fault s = none)
    (u : String) :
    (NulFree u ∧ ∃ conversations,
      (portAdapter uuid).run i (listConversations u) w = (.ok conversations, w)) ∨
    (¬ NulFree u ∧ ∃ e, (portAdapter uuid).run i (listConversations u) w = (.error (.port e), w)) := by
  unfold listConversations
  simp only [Proc.bind_eq_bind, Adapter.run_bind]
  rw [Adapter.run_request, portAdapter_perform, implementation]
  unfold PostgresConversationStore.findByParticipant
  simp only [Proc.bind_eq_bind, Adapter.run_bind]
  by_cases hu : NulFree u
  · refine .inl ⟨hu, ?_⟩
    obtain ⟨rows, hexec⟩ : ∃ rows, execute uuid i w.clock w.database (.selectConversationsOf u) =
        .ok (rows, w.database) := by
      simp only [execute, textParam_of hu]
      exact ⟨_, rfl⟩
    obtain ⟨-, htables, hown⟩ := execute_selectConversationsOf hexec
    rw [query_resolves (hfault _) hexec]
    obtain ⟨previews, hpreviews⟩ : ∃ previews, (adapter uuid).run i
        (listPreviews ((rowsToConversations rows).map (previewQuery u))) w = (.ok previews, w) := by
      refine listPreviews_resolves fun q hq => ?_
      obtain ⟨read, hread, rfl⟩ := List.mem_map.mp hq
      obtain ⟨row, hrow, hid⟩ := rowsToConversations_row hread
      obtain ⟨own, hown, hsame, huser⟩ := hown row hrow
      obtain ⟨r, hr⟩ := clearedAtOf_row htables hread
        (isParticipant_of_row hread hown (hsame.trans hid) huser)
      have hcanonical : uuid read.id = some read.id := by
        obtain ⟨hconv, -, -, -, hkey⟩ := mem_joined.mp hr.stored
        have hk : r.1.id = read.id := hkey.symm.trans (congrArg Prod.fst hr.key)
        exact hk ▸ hint.canonical _ hconv
      have hafter := @Integrity.storable _ _ hint _ _ _ hr { limit := some (.finite 1) } rfl
      rcases @listByConversation_settles _ _ w hfault _ _ hcanonical _ (some 1)
        (withCleared_limit _ _) hafter with ⟨-, hpage⟩ | ⟨hout, -⟩
      · exact hpage
      · refine absurd (fun d hd => ?_) hout
        rw [withCleared_before] at hd
        cases hd
    simp only [Proc.pure_eq_ret, Adapter.run_ret]
    rw [Adapter.run_request, portAdapter_perform, implementation, hpreviews]
    exact ⟨_, rfl⟩
  · refine .inr ⟨hu, ?_⟩
    obtain ⟨e, he⟩ := textParam_nul hu
    have hexec : execute uuid i w.clock w.database (.selectConversationsOf u) = .error e := by
      simp only [execute, he]
      rfl
    rw [query_rejects (hfault _) hexec]
    exact ⟨e, rfl⟩

-- ---------------------------------------------------------------------------
-- Answers
-- ---------------------------------------------------------------------------

section Answers

variable {reader : TextReader} {db : Database} {request : Request} {c k u : String} {status : Nat}

theorem answered_malformed (hmal : request.malformed reader = true) (hm : request.route.messageId = none) :
    Answered uuid reader db request 400 where
  fine := by decide
  malformed _ := rfl
  conversation h := by
    rw [hmal] at h
    cases h
  message _ h := by
    refine absurd (fun m hname => ?_) h
    rw [hm] at hname
    cases hname

/-- A route that names nothing. -/
theorem answered_nameless (hc : request.route.conversationId = none) (hm : request.route.messageId = none)
    (hmal : request.malformed reader = true → status = 400) (hfine : status ≠ 500) :
    Answered uuid reader db request status where
  fine := hfine
  malformed := hmal
  conversation _ h := by
    refine absurd (fun c hname => ?_) h
    rw [hc] at hname
    cases hname
  message _ h := by
    refine absurd (fun m hname => ?_) h
    rw [hm] at hname
    cases hname

/-- The check turned the caller away. -/
theorem answered_outside (hroute : request.route.conversationId = some c)
    (hmal : request.malformed reader = false) (hc : uuid c = some k)
    (hout : ¬ Participates db k request.userId) (hfine : status ≠ 500)
    (hstatus : ¬ IsConversation db k → status = 404) : Answered uuid reader db request status where
  fine := hfine
  malformed h := by
    rw [hmal] at h
    cases h
  conversation _ hname := by
    refine hstatus fun hthere => hname fun c' hroute' => ?_
    rw [hroute] at hroute'
    cases hroute'
    exact ⟨k, hc, hthere⟩
  message := by
    rintro ⟨c', k', hroute', hc', hin⟩ -
    rw [hroute] at hroute'
    cases hroute'
    rw [hc] at hc'
    cases hc'
    exact absurd hin hout

/-- The check let the caller in. -/
theorem answered_inside (hroute : request.route.conversationId = some c)
    (hmal : request.malformed reader = false) (hc : uuid c = some k) (hthere : IsConversation db k)
    (hfine : status ≠ 500) (hmessage : ¬ NamesMessage uuid db request.route → status = 404) :
    Answered uuid reader db request status where
  fine := hfine
  malformed h := by
    rw [hmal] at h
    cases h
  conversation _ hname := by
    refine absurd (fun c' hroute' => ?_) hname
    rw [hroute] at hroute'
    cases hroute'
    exact ⟨k, hc, hthere⟩
  message _ := hmessage

/-- The request gets its answer or a 500, as its parameters are. -/
def Meets (uuid : String → Option String) (reader : TextReader) (i : Input) (db : Database)
    (request : Request) (status : Nat) : Prop :=
  (Acceptable uuid reader i db request ∧ Answered uuid reader db request status) ∨
    (¬ Acceptable uuid reader i db request ∧ status = 500)

theorem Meets.iff (h : Meets uuid reader i db request status) :
    Answered uuid reader db request status ↔ Acceptable uuid reader i db request := by
  rcases h with ⟨hacc, hans⟩ | ⟨hout, h500⟩
  · exact ⟨fun _ => hacc, fun _ => hans⟩
  · exact ⟨fun hans => absurd h500 hans.fine, fun hacc => absurd hacc hout⟩

theorem namesMessage_of_none {route : Route} (hm : route.messageId = none) :
    NamesMessage uuid db route := by
  intro m hname
  rw [hm] at hname
  cases hname

end Answers

-- ---------------------------------------------------------------------------
-- The routes
-- ---------------------------------------------------------------------------

/-- The status that a request ends up with, with no other call at work. -/
def statusAt (uuid : String → Option String) (reader : TextReader) (i : Input) (w : World)
    (request : Request) : Nat :=
  statusOf ((portAdapter uuid).run i (ConversationsRouter.dispatch reader request) w).1

/-- What the router or the core rejects never reaches a statement. -/
theorem meets_of_malformed {reader : TextReader} {request : Request}
    (hmal : request.malformed reader = true) (hm : request.route.messageId = none)
    (hacc : Acceptable uuid reader i w.database request) :
    Meets uuid reader i w.database request (statusAt uuid reader i w request) := by
  have hstatus : statusAt uuid reader i w request = 400 :=
    ConversationsRouter.dispatch_malformed _ i w hmal
  rw [hstatus]
  exact .inl ⟨hacc, answered_malformed hmal hm⟩

section Routes

variable {reader : TextReader} (hint : Integrity uuid w.database) (havail : Available i)

include hint havail

/-- A route past the validation that starts with the check: what is left is what
it does for a participant. -/
theorem meets_of_check {request : Request} {c : String} {rest : Conversation → Service Response}
    {Q : String → Prop}
    (hprogram : (portAdapter uuid).run i (ConversationsRouter.dispatch reader request) w =
      (portAdapter uuid).run i ((awaitParticipant c request.userId).bind rest) w)
    (hroute : request.route.conversationId = some c) (hmal : request.malformed reader = false)
    (hacc : Acceptable uuid reader i w.database request ↔
      ∃ k, uuid c = some k ∧ (Participates w.database k request.userId → Q k))
    (hok : ∀ conversation r, uuid c = some conversation.id → IsConversation w.database conversation.id →
      conversation.userIds = members i w.database conversation.id →
      ReadFor w.database request.userId conversation r → ∃ status,
        statusOf ((portAdapter uuid).run i (rest conversation) w).1 = status ∧
          ((Q conversation.id ∧ status ≠ 500 ∧
            (¬ NamesMessage uuid w.database request.route → status = 404)) ∨
          (¬ Q conversation.id ∧ status = 500))) :
    Meets uuid reader i w.database request (statusAt uuid reader i w request) := by
  obtain ⟨x, hrun, hcheck⟩ := awaitParticipant_check (w := w) hint havail.reachable c request.userId
  unfold statusAt
  rw [hprogram, Adapter.run_bind, hrun]
  cases hcheck with
  | unreadable hc =>
    refine .inr ⟨fun h => ?_, rfl⟩
    obtain ⟨k, hk, -⟩ := hacc.mp h
    rw [hc] at hk
    cases hk
  | unknown hc hout =>
    refine .inl ⟨hacc.mpr ⟨_, hc, fun hin => absurd hin hout⟩, ?_⟩
    exact answered_outside hroute hmal hc hout (show 404 ≠ 500 by decide) fun _ => rfl
  | stranger hc hthere hout =>
    refine .inl ⟨hacc.mpr ⟨_, hc, fun hin => absurd hin hout⟩, ?_⟩
    exact answered_outside hroute hmal hc hout (show 403 ≠ 500 by decide) fun hno => absurd hthere hno
  | participant hc hthere hin hmembers hr =>
    obtain ⟨status, hstatus, hcases⟩ := hok _ _ hc hthere hmembers hr
    simp only [hstatus]
    rcases hcases with ⟨hQ, hfine, hmessage⟩ | ⟨hQ, h500⟩
    · exact .inl ⟨hacc.mpr ⟨_, hc, fun _ => hQ⟩, answered_inside hroute hmal hc hthere hfine hmessage⟩
    · refine .inr ⟨fun h => ?_, h500⟩
      obtain ⟨k, hk, hneeds⟩ := hacc.mp h
      rw [hc] at hk
      cases hk
      exact hQ (hneeds hin)

theorem getConversation_meets (u c : String) : Meets uuid reader i w.database ⟨u, .getConversation c⟩
    (statusAt uuid reader i w ⟨u, .getConversation c⟩) := by
  refine meets_of_check hint havail (Q := fun _ => True) rfl rfl rfl ?_ ?_
  · simp [Acceptable]
  · intro conversation r _ _ _ _
    exact ⟨200, rfl, .inl ⟨trivial, by decide, fun h => (h (namesMessage_of_none rfl)).elim⟩⟩

theorem deleteConversation_meets (hclock : w.clock = i.now) (u c : String) :
    Meets uuid reader i w.database ⟨u, .deleteConversation c⟩
      (statusAt uuid reader i w ⟨u, .deleteConversation c⟩) := by
  refine meets_of_check hint havail (Q := fun _ => True)
    (congrArg (fun p => (portAdapter uuid).run i p w) (Proc.bind_assoc _ _ _)) rfl rfl ?_ ?_
  · simp [Acceptable]
  · intro conversation r hc _ _ hr
    obtain ⟨db, hexec⟩ : ∃ db, execute uuid i w.clock w.database
        (.updateClearedAt (Date.of (toMillis w.clock)) c u) = .ok ((), db) := by
      simp only [execute, havail.storable hclock, uuidParam, hc, textParam_of (hint.reader_nulFree hr)]
      exact ⟨_, rfl⟩
    have hnow : (portAdapter uuid).run i (Jiffy.perform .newDate) w =
      (.ok (toMillis w.clock), w) := Adapter.run_perform ..
    refine ⟨204, ?_, .inl ⟨trivial, by decide, fun h => (h (namesMessage_of_none rfl)).elim⟩⟩
    simp only [Proc.bind_eq_bind, Adapter.run_bind, hnow]
    rw [Adapter.run_request, portAdapter_perform, implementation, PostgresConversationStore.clear,
      query_resolves (havail.reachable _) hexec]
    rfl

theorem markRead_meets (hclock : w.clock = i.now) (u c : String) :
    Meets uuid reader i w.database ⟨u, .markRead c⟩ (statusAt uuid reader i w ⟨u, .markRead c⟩) := by
  -- The handler reads the clock before the check.
  have hprogram : (portAdapter uuid).run i
      (ConversationsRouter.dispatch reader ⟨u, .markRead c⟩) w = (portAdapter uuid).run i
        ((MessagingService.markRead c u (Date.of (toMillis w.clock))).bind fun _ =>
          .ret ⟨204, .empty⟩) w := by
    have hnow : (portAdapter uuid).run i (Jiffy.perform .newDate) w =
      (.ok (toMillis w.clock), w) := Adapter.run_perform ..
    refine (Adapter.run_bind _ _ _ _ _).trans ?_
    rw [hnow]
    rfl
  refine meets_of_check hint havail (Q := fun _ => True)
    (hprogram.trans (congrArg (fun p => (portAdapter uuid).run i p w) (Proc.bind_assoc _ _ _)))
    rfl rfl ?_ ?_
  · simp [Acceptable]
  · intro conversation r hc _ _ hr
    obtain ⟨db, hexec⟩ : ∃ db, execute uuid i w.clock w.database
        (.updateLastReadAt (Date.of (toMillis w.clock)) c u) = .ok ((), db) := by
      simp only [execute, havail.storable hclock, uuidParam, hc, textParam_of (hint.reader_nulFree hr)]
      exact ⟨_, rfl⟩
    refine ⟨204, ?_, .inl ⟨trivial, by decide, fun h => (h (namesMessage_of_none rfl)).elim⟩⟩
    rw [Adapter.run_bind, Adapter.run_request, portAdapter_perform, implementation,
      PostgresConversationStore.markRead, query_resolves (havail.reachable _) hexec]
    rfl

theorem createConversation_meets (hadm : admissible uuid i w = true)
    (u : String) (body : Option Json) :
    Meets uuid reader i w.database ⟨u, .createConversation body⟩
      (statusAt uuid reader i w ⟨u, .createConversation body⟩) := by
  cases hmal : Request.malformed reader ⟨u, .createConversation body⟩ with
  | true => exact meets_of_malformed hmal rfl fun h => nomatch hmal.symm.trans h
  | false =>
    obtain ⟨ids, hids, hlength⟩ := ConversationsRouter.createConversation_wellFormed hmal
    have hacc : Acceptable uuid reader i w.database ⟨u, .createConversation body⟩ ↔
        (u ∈ ids → i.gate u ids = .ok true → Insertable ids) := by
      simp only [Acceptable, hmal, forall_const, hids, Option.some.injEq, forall_eq']
    have hanswered : ∀ {status}, status ≠ 500 →
        Answered uuid reader w.database ⟨u, .createConversation body⟩ status :=
      answered_nameless rfl rfl fun h => nomatch hmal.symm.trans h
    have hdispatch : ConversationsRouter.dispatch reader ⟨u, .createConversation body⟩ =
        if !ids.contains u then .ret (.failed 403 "Cannot create a conversation you are not part of")
        else (createConversation u ids).bind fun conversation =>
          .ret ⟨201, .conversation (toConversationResponse conversation)⟩ := by
      simp only [ConversationsRouter.dispatch, ConversationsRouter.createConversation, hids]
      exact if_neg (Nat.not_lt.mpr hlength)
    unfold Meets statusAt
    rw [hacc, hdispatch]
    cases hin : ids.contains u with
    | false =>
      refine .inl ⟨fun hmem => ?_, hanswered (show 403 ≠ 500 by decide)⟩
      rw [List.contains_iff_mem.mpr hmem] at hin
      cases hin
    | true =>
      have hmem : u ∈ ids := List.contains_iff_mem.mp hin
      obtain ⟨allowed, hgate⟩ := havail.answers u ids
      have hasked : (portAdapter uuid).run i (request (.canCreateConversation u ids)) w =
          (.ok allowed, { w with asked := w.asked ++ [(u, ids)] }) := by
        rw [Adapter.run_request, portAdapter_perform, implementation, Adapter.run_request]
        simp only [adapter_perform, perform, hgate]
        rfl
      unfold createConversation
      simp only [Bool.not_true, Bool.false_eq_true, if_false, Proc.bind_eq_bind, Adapter.run_bind, hasked]
      cases allowed with
      | false =>
        refine .inl ⟨fun _ h => ?_, hanswered (show 403 ≠ 500 by decide)⟩
        rw [hgate] at h
        cases h
      | true =>
        simp only [if_true]
        rw [Adapter.run_request, portAdapter_perform, implementation]
        rcases run_create (w := { w with asked := w.asked ++ [(u, ids)] }) havail.reachable hint.pooled
          (hint.fresh hadm) hint.keys ids with ⟨hok, hcreate⟩ | ⟨hbad, e, hcreate⟩
        · rw [hcreate]
          exact .inl ⟨fun _ _ => hok, hanswered (show 201 ≠ 500 by decide)⟩
        · rw [hcreate]
          exact .inr ⟨fun h => hbad (h hmem hgate), rfl⟩

theorem listConversations_meets (u : String) : Meets uuid reader i w.database ⟨u, .listConversations⟩
    (statusAt uuid reader i w ⟨u, .listConversations⟩) := by
  unfold Meets statusAt ConversationsRouter.dispatch ConversationsRouter.listConversations
  simp only [Proc.bind_eq_bind, Adapter.run_bind]
  rcases listConversations_settles hint havail.reachable u with ⟨hu, conversations, hlist⟩ | ⟨hu, e, hlist⟩
  · rw [hlist]
    exact .inl ⟨hu, answered_nameless rfl rfl (fun h => nomatch h) (show 200 ≠ 500 by decide)⟩
  · rw [hlist]
    exact .inr ⟨hu, rfl⟩

theorem deleteMessage_meets (hclock : w.clock = i.now) (u c m : String) :
    Meets uuid reader i w.database ⟨u, .deleteMessage c m⟩
      (statusAt uuid reader i w ⟨u, .deleteMessage c m⟩) := by
  refine meets_of_check hint havail (Q := fun _ => ∃ l, uuid m = some l)
    (congrArg (fun p => (portAdapter uuid).run i p w) (Proc.bind_assoc _ _ _)) rfl rfl Iff.rfl ?_
  intro conversation r hc hthere hmembers hr
  simp only [Proc.bind_eq_bind, Adapter.run_bind]
  rw [Adapter.run_request, portAdapter_perform, implementation]
  rcases @findMessage_settles uuid _ w havail.reachable m with
    ⟨hm, e, hfind⟩ | ⟨l, hm, found, hfind, hsome, hrow⟩
  · rw [hfind]
    refine ⟨500, rfl, .inr ⟨?_, rfl⟩⟩
    rintro ⟨l, hl⟩
    rw [hm] at hl
    cases hl
  · rw [hfind]
    cases found with
    | none => exact ⟨404, rfl, .inl ⟨⟨l, hm⟩, by decide, fun _ => rfl⟩⟩
    | some message =>
      obtain ⟨record, hrecord, hid, hmessage⟩ := hrow message rfl
      have hnames : NamesMessage uuid w.database (.deleteMessage c m) := by
        intro m' hm'
        cases hm'
        exact ⟨l, hm, record, hrecord, hid⟩
      refine ⟨_, rfl, .inl ⟨⟨l, hm⟩, ?_, fun h => absurd hnames h⟩⟩
      by_cases hconv : message.conversationId ≠ c
      · simp only [if_pos hconv]
        exact (show 404 ≠ 500 by decide)
      by_cases hsender : message.senderId ≠ u
      · simp only [if_neg hconv, if_pos hsender]
        exact (show 403 ≠ 500 by decide)
      by_cases hdeleted : message.deletedAt ≠ none
      · simp only [if_neg hconv, if_neg hsender, if_pos hdeleted]
        exact (show 200 ≠ 500 by decide)
      have hlive : record.deletedAt = none := by
        rw [← hmessage, not_not] at hdeleted
        exact Option.map_eq_none_iff.mp hdeleted
      have hnow : (portAdapter uuid).run i (Jiffy.perform .newDate) w =
        (.ok (toMillis w.clock), w) := Adapter.run_perform ..
      obtain ⟨deleted, w', hdelete⟩ := softDelete_resolves havail.reachable hm
        (havail.storable hclock) hrecord hid hlive
      simp only [if_neg hconv, if_neg hsender, if_neg hdeleted, Adapter.run_bind, hnow]
      rw [Adapter.run_request, portAdapter_perform, implementation, hdelete]
      exact (show 200 ≠ 500 by decide)

theorem sendMessage_meets (hadm : ∀ m ∈ w.database.messages, m.id ≠ i.uuid) (u c : String)
    (body : Option Json) : Meets uuid reader i w.database ⟨u, .sendMessage c body⟩
      (statusAt uuid reader i w ⟨u, .sendMessage c body⟩) := by
  cases hmal : Request.malformed reader ⟨u, .sendMessage c body⟩ with
  | true => exact meets_of_malformed hmal rfl fun h => nomatch hmal.symm.trans h
  | false =>
    obtain ⟨text, htext, htrim⟩ := ConversationsRouter.sendMessage_wellFormed hmal
    have hdispatch : ConversationsRouter.dispatch reader ⟨u, .sendMessage c body⟩ =
        (sendMessage ⟨c, u, text⟩).bind fun message => .ret ⟨201, .message message⟩ := by
      simp only [ConversationsRouter.dispatch, ConversationsRouter.sendMessage, htext]
      rfl
    have hsend : sendMessage ⟨c, u, text⟩ = (awaitParticipant c u).bind _ := if_neg htrim
    rw [hsend, Proc.bind_assoc] at hdispatch
    refine meets_of_check hint havail (Q := fun k => i.gate u (members i w.database k) = .ok true →
      NulFree text) (congrArg (fun p => (portAdapter uuid).run i p w) hdispatch) rfl hmal ?_ ?_
    · simp only [Acceptable, hmal, forall_const, htext, Option.some.injEq, forall_eq']
    · intro conversation r hc hthere hmembers hr
      obtain ⟨allowed, hgate⟩ := havail.answers u (members i w.database conversation.id)
      have hasked : (portAdapter uuid).run i (request (.canCreateConversation u conversation.userIds)) w =
          (.ok allowed, { w with asked := w.asked ++ [(u, conversation.userIds)] }) := by
        rw [Adapter.run_request, portAdapter_perform, implementation, Adapter.run_request, hmembers]
        simp only [adapter_perform, perform, hgate]
        rfl
      rw [hgate]
      simp only [Proc.bind_eq_bind, Adapter.run_bind]
      rw [show (conversation.participants.map fun p => p.userId) = conversation.userIds from rfl, hasked]
      cases allowed with
      | false =>
        refine ⟨403, rfl, .inl ⟨fun h => ?_, by decide, fun h => (h (namesMessage_of_none rfl)).elim⟩⟩
        cases h
      | true =>
        have hcanonical : uuid conversation.id = some conversation.id := by
          obtain ⟨x, hx, -, hid⟩ := hthere
          exact hid ▸ hint.canonical x hx
        simp only [if_true, Adapter.run_bind]
        rw [Adapter.run_request, portAdapter_perform, implementation]
        rcases @createMessage_settles uuid _
          { w with asked := w.asked ++ [(u, conversation.userIds)] } havail.reachable hadm _ _ text
          hcanonical hthere
          (hint.reader_nulFree hr) with ⟨hbody, m, w', hcreate⟩ | ⟨hbody, e, hcreate⟩
        · rw [hcreate]
          exact ⟨201, rfl, .inl ⟨fun _ => hbody, by decide, fun h => (h (namesMessage_of_none rfl)).elim⟩⟩
        · rw [hcreate]
          exact ⟨500, rfl, .inr ⟨fun h => hbody (h trivial), rfl⟩⟩

theorem listMessages_meets (u c : String) (limit before : Option QueryValue) :
    Meets uuid reader i w.database ⟨u, .listMessages c limit before⟩
      (statusAt uuid reader i w ⟨u, .listMessages c limit before⟩) := by
  cases hmal : Request.malformed reader ⟨u, .listMessages c limit before⟩ with
  | true => exact meets_of_malformed hmal rfl fun h => nomatch hmal.symm.trans h
  | false =>
    obtain ⟨⟨n, hn⟩, hlist⟩ := ConversationsRouter.listMessages_wellFormed hmal
    have hprogram : (portAdapter uuid).run i
        (ConversationsRouter.dispatch reader ⟨u, .listMessages c limit before⟩) w = _ :=
      congrArg (fun p => (portAdapter uuid).run i p w) (hlist.trans (Proc.bind_assoc _ _ _))
    refine meets_of_check hint havail (Q := fun _ => ∀ raw, before = some raw →
      Storable (reader.date raw.text)) hprogram rfl hmal ?_ ?_
    · simp only [Acceptable, hmal, forall_const]
    · intro conversation r hc _ _ hr
      generalize hoptions : ListMessagesOptions.mk (limit.map fun raw => reader.number raw.text)
        (before.map fun raw => reader.date raw.text) none = options
      have hbefore : (∀ d, (withCleared options (clearedAtOf conversation u)).before = some d →
          Storable d) ↔ ∀ raw, before = some raw → Storable (reader.date raw.text) := by
        rw [withCleared_before, ← hoptions]
        cases before <;> simp
      have hpage := listByConversation_settles (w := w) havail.reachable hc
        (((withCleared_limit options (clearedAtOf conversation u)).trans
          (congrArg (fun o => o.limit) hoptions).symm).trans hn)
        (hint.storable hr (congrArg (fun o => o.after) hoptions).symm)
      rw [hbefore] at hpage
      simp only [Adapter.run_bind]
      rw [Adapter.run_request, portAdapter_perform, implementation]
      rcases hpage with ⟨hQ, messages, hpage⟩ | ⟨hQ, e, hpage⟩
      · rw [hpage]
        exact ⟨200, rfl, .inl ⟨hQ, by decide, fun h => (h (namesMessage_of_none rfl)).elim⟩⟩
      · rw [hpage]
        exact ⟨500, rfl, .inr ⟨hQ, rfl⟩⟩

theorem dispatch_meets (hclock : w.clock = i.now) (hadm : admissible uuid i w = true) (request : Request) :
    Meets uuid reader i w.database request (statusAt uuid reader i w request) := by
  cases request with
  | mk u route =>
    cases route with
    | createConversation body => exact createConversation_meets hint havail hadm u body
    | listConversations => exact listConversations_meets hint havail u
    | getConversation c => exact getConversation_meets hint havail u c
    | sendMessage c body => exact sendMessage_meets hint havail (admissible_spec hadm).2 u c body
    | listMessages c limit before => exact listMessages_meets hint havail u c limit before
    | markRead c => exact markRead_meets hint havail hclock u c
    | deleteMessage c m => exact deleteMessage_meets hint havail hclock u c m
    | deleteConversation c => exact deleteConversation_meets hint havail hclock u c

end Routes

/-- A request gets the answer it should, if and only if all of its parameters that
reach the parser or the database are acceptable to them. The ids of the path are
those that Express hands to the router, already decoded; a path that does not
decode is an error before the router is reached. -/
theorem answered_iff_acceptable {json : HttpApp.BodyParser} {reader : TextReader} {clock : Int}
    {ls : List (Label Input Op)} {c : Config server Failure Reply World Op}
    (h : (system uuid).runs (.idle (.init clock)) ls = some c)
    (hadm : admissible uuid i c.world = true) (havail : Available i) (raw : RawRequest) :
    ∃ response w', httpApp uuid json reader i raw c.world = (.ok response, w') ∧
      (AppAnswered uuid json reader c.world.database raw response.status ↔
        AppAcceptable uuid json reader i c.world.database raw) := by
  have hrun : httpApp uuid json reader i raw c.world =
      (portAdapter uuid).run i (HttpApp.handle json reader raw) { c.world with clock := i.now } :=
    Adapter.run_implement _ _ _ _ _
  rw [hrun]
  unfold HttpApp.handle AppAnswered AppAcceptable
  cases json raw.body with
  | error e => exact ⟨_, _, rfl, fun h => absurd (show 500 = 400 from h) (by decide), False.elim⟩
  | ok body =>
    obtain ⟨response, w', hhandle, hstatus⟩ := ConversationsRouter.run_handle (portAdapter uuid) i reader
      ⟨raw.userId, raw.endpoint.route body⟩ { c.world with clock := i.now }
    have hticked : admissible uuid i { c.world with clock := i.now } = true := by
      simp only [admissible, Bool.and_eq_true, decide_eq_true_eq] at hadm ⊢
      exact ⟨⟨⟨le_rfl, hadm.1.1.2⟩, hadm.1.2⟩, hadm.2⟩
    have hmeets := @dispatch_meets _ _ { c.world with clock := i.now } reader
      (integrity_runs h) havail rfl hticked ⟨raw.userId, raw.endpoint.route body⟩
    rw [statusAt, ← hstatus] at hmeets
    exact ⟨response, w', hhandle, hmeets.iff⟩

theorem available_calm {now : Int} {id : String} (hmin : minTimestamp * 1000 ≤ now)
    (hmax : now < maxTimestamp * 1000) : Available (.calm now id) :=
  ⟨fun _ => rfl, fun _ _ => ⟨true, rfl⟩, hmin, hmax⟩

/-- Ann and Bob share a conversation, and Ann lists its messages. -/
theorem answered_iff_acceptable_listed : ∃ c response w',
    (system canonicalUuid).runs (.idle (.init 0))
      (Label.turns 0 (.createConversation "ann" ["ann", "bob"])
        (.calm 100 "0a000000-0000-4000-8000-000000000000") 6 ++
      List.replicate 5 (.resume 0 (.calm 100 "0b000000-0000-4000-8000-000000000000"))) = some c ∧
    Participates c.world.database "0a000000-0000-4000-8000-000000000000" "ann" ∧
    httpApp canonicalUuid (fun _ => .ok none) (.iso fun _ => .finite 2)
      (.calm 200 "0b000000-0000-4000-8000-000000000000")
      ⟨"ann", .listMessages "0A000000-0000-4000-8000-000000000000" (some (.one "2")) none, []⟩ c.world =
        (.ok response, w') ∧
    AppAnswered canonicalUuid (fun _ => .ok none) (.iso fun _ => .finite 2) c.world.database
      ⟨"ann", .listMessages "0A000000-0000-4000-8000-000000000000" (some (.one "2")) none, []⟩
        response.status := by
  obtain ⟨c, hc, hadm, hin⟩ : ∃ c, (system canonicalUuid).runs (.idle (.init 0))
      (Label.turns 0 (.createConversation "ann" ["ann", "bob"])
        (.calm 100 "0a000000-0000-4000-8000-000000000000") 6 ++
      List.replicate 5 (.resume 0 (.calm 100 "0b000000-0000-4000-8000-000000000000"))) = some c ∧
      admissible canonicalUuid (.calm 200 "0b000000-0000-4000-8000-000000000000") c.world = true ∧
      Participates c.world.database "0a000000-0000-4000-8000-000000000000" "ann" :=
    ⟨_, rfl, rfl, _, List.mem_cons_self, rfl, rfl⟩
  obtain ⟨response, w', happ, hiff⟩ := @answered_iff_acceptable _ _ (fun _ => .ok none)
    (.iso fun _ => .finite 2) _ _ _ hc hadm (available_calm (by decide) (by decide))
    ⟨"ann", .listMessages "0A000000-0000-4000-8000-000000000000" (some (.one "2")) none, []⟩
  refine ⟨c, response, w', hc, hin, happ, hiff.mpr fun _ => ?_⟩
  exact ⟨"0a000000-0000-4000-8000-000000000000", rfl, fun _ raw hraw => by cases hraw⟩

/-- A path id that is no UUID, and a body that is no JSON. -/
theorem internal_server_error : ∃ json reader i, Available i ∧
    (system canonicalUuid).runs (.idle (.init 0)) [] = some (.idle (.init 0)) ∧
    admissible canonicalUuid i (.init 0) = true ∧
    (∃ w', httpApp canonicalUuid json reader i ⟨"ann", .getConversation "nope", []⟩ (.init 0) =
      (.ok (.failed 500 "Internal server error"), w')) ∧
    ∃ w', httpApp canonicalUuid json reader i ⟨"ann", .createConversation, [123]⟩ (.init 0) =
      (.ok (.failed 500 "Internal server error"), w') := by
  refine ⟨fun body => if body = [] then .ok none else .error "Unexpected end of JSON input",
    .iso fun _ => .nan, .calm 100 "0a000000-0000-4000-8000-000000000000",
    available_calm (by decide) (by decide), rfl, rfl, ⟨_, rfl⟩, _, rfl⟩

end Postgres

end Jiffy
