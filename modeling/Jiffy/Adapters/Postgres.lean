-- SUMMARY: The Postgres stores: the tables, the statements the stores send and what they do, and the service's ports as programs over them.
import Jiffy.Core.MessagingService
import Jiffy.Lib.Interleaving
import Jiffy.Lib.Machine
import Jiffy.Lib.OrderedMap
import Jiffy.WebSocket.Server

/-!
# Postgres adapters

`src/adapters/postgres`: the schema, the queries of the two stores and the
mapping of rows. A TIMESTAMPTZ is a whole number of microseconds; the driver
hands it to the program as a `Date`, in whole milliseconds. The text in which
driver and server exchange it is not modelled: it is taken to mean the same
instant to both, for every instant in range. Every query takes
some connection of the pool, so it runs at a time of its own, and each statement
is one atomic action of the database.
-/

namespace Jiffy

open Js Async

-- ---------------------------------------------------------------------------
-- Tables
-- ---------------------------------------------------------------------------

/-- A row of `conversations`. A row that an open transaction inserted is
pending, and invisible to all other connections. -/
structure ConversationRecord where
  id : String
  createdAt : Int
  pending : Option Nat
deriving DecidableEq, Repr

/-- A row of `conversation_participants`. -/
structure ParticipantRecord where
  conversationId : String
  userId : String
  lastReadAt : Option Int
  clearedAt : Option Int
  pending : Option Nat
deriving DecidableEq, Repr

/-- A row of `messages`. -/
structure MessageRecord where
  id : String
  conversationId : String
  senderId : String
  body : String
  createdAt : Int
  deletedAt : Option Int
deriving DecidableEq, Repr

/-- The primary key of `conversation_participants`. -/
def ParticipantRecord.key (p : ParticipantRecord) : String × String := (p.conversationId, p.userId)

/-- The tables, and the connections taken out of the pool, each with the start
of its transaction if it is in one. -/
structure Database where
  conversations : List ConversationRecord
  participants : List ParticipantRecord
  messages : List MessageRecord
  connections : List (Nat × Option Int)
  connected : Nat

-- ---------------------------------------------------------------------------
-- Rows as the driver hands them over
-- ---------------------------------------------------------------------------

/-- The `Date` of a TIMESTAMPTZ, cut to milliseconds. -/
def toMillis (t : Int) : Int := t / 1000

structure ConversationParticipantRow where
  id : String
  createdAt : Int
  userId : String
  lastReadAt : Option Date
  clearedAt : Option Int
deriving DecidableEq, Repr

structure MessageRow where
  id : String
  conversationId : String
  senderId : String
  body : String
  createdAt : Int
  deletedAt : Option Int
deriving DecidableEq, Repr

/-- One row of `SELECT_WITH_PARTICIPANTS`. -/
def joinedRow (c : ConversationRecord) (p : ParticipantRecord) : ConversationParticipantRow where
  id := c.id
  createdAt := toMillis c.createdAt
  userId := p.userId
  lastReadAt := p.lastReadAt.map fun t => Date.of (toMillis t)
  clearedAt := p.clearedAt.map toMillis

def MessageRecord.row (m : MessageRecord) : MessageRow where
  id := m.id
  conversationId := m.conversationId
  senderId := m.senderId
  body := m.body
  createdAt := toMillis m.createdAt
  deletedAt := m.deletedAt.map toMillis

def rowToMessage (row : MessageRow) : Message where
  id := row.id
  conversationId := row.conversationId
  senderId := row.senderId
  body := row.body
  createdAt := row.createdAt
  deletedAt := row.deletedAt

def rowToParticipant (row : ConversationParticipantRow) : ConversationParticipant where
  userId := row.userId
  lastReadAt := row.lastReadAt
  clearedAt := row.clearedAt

/-- One turn of the loop in `rowsToConversations`. -/
def addRow (byId : OrderedMap String Conversation) (row : ConversationParticipantRow) :
    OrderedMap String Conversation :=
  let conversation := (byId.get row.id).getD ⟨row.id, [], row.createdAt, none⟩
  byId.set row.id
    { conversation with participants := conversation.participants ++ [rowToParticipant row] }

/-- Groups joined rows into conversations, in the order they first appear. -/
def rowsToConversations (rows : List ConversationParticipantRow) : List Conversation :=
  (rows.foldl addRow .empty).values

-- ---------------------------------------------------------------------------
-- Statements
-- ---------------------------------------------------------------------------

/-- A parameter as the driver sends it. -/
inductive Param where
  | text (s : String)
  | date (d : Date)
  | number (n : Number)
deriving DecidableEq

/-- The query that `listByConversation` builds: which positional parameter each
of its comparisons and its LIMIT refers to, and the parameters. -/
structure HistoryQuery where
  /-- `conversation_id = $n` -/
  conversationId : Nat
  /-- `created_at < $n` -/
  before : Option Nat
  /-- `created_at > $n` -/
  after : Option Nat
  /-- `LIMIT $n` -/
  limit : Nat
  params : List Param
deriving DecidableEq

/-- `$n`, counted from one. -/
def HistoryQuery.param (query : HistoryQuery) (n : Nat) : Option Param := query.params[n - 1]?

inductive Statement where
  | begin (client : Nat)
  | commit (client : Nat)
  | rollback (client : Nat)
  /-- `INSERT INTO conversations DEFAULT VALUES RETURNING id, created_at` -/
  | insertConversation (client : Nat)
  /-- `INSERT INTO conversation_participants .. SELECT $1, unnest($2::text[])` -/
  | insertParticipants (client : Nat) (conversationId : String) (userIds : List String)
  /-- `SELECT_WITH_PARTICIPANTS WHERE c.id = $1` -/
  | selectConversation (id : String)
  /-- `SELECT_WITH_PARTICIPANTS WHERE c.id IN (..) ORDER BY c.created_at ASC` -/
  | selectConversationsOf (userId : String)
  /-- `UPDATE conversation_participants SET last_read_at = $1 WHERE ..` -/
  | updateLastReadAt (at_ : Date) (conversationId userId : String)
  /-- `UPDATE conversation_participants SET cleared_at = $1 WHERE ..` -/
  | updateClearedAt (at_ : Date) (conversationId userId : String)
  /-- `INSERT INTO messages .. RETURNING ..` -/
  | insertMessage (conversationId senderId body : String)
  /-- `SELECT .. FROM messages WHERE id = $1` -/
  | selectMessage (id : String)
  /-- `UPDATE messages SET body = '', deleted_at = $2 WHERE id = $1 AND deleted_at IS NULL ..` -/
  | updateDeleted (id : String) (at_ : Date)
  /-- the page of history -/
  | selectHistory (query : HistoryQuery)
deriving DecidableEq

@[reducible] def Statement.Rows : Statement → Type
  | .begin _ | .commit _ | .rollback _ => Unit
  | .insertConversation _ => List (String × Int)
  | .insertParticipants _ _ _ => Unit
  | .selectConversation _ | .selectConversationsOf _ => List ConversationParticipantRow
  | .updateLastReadAt _ _ _ | .updateClearedAt _ _ _ => Unit
  | .insertMessage _ _ _ | .selectMessage _ | .updateDeleted _ _ => List MessageRow
  | .selectHistory _ => List MessageRow

/-- The order in which a query hands over rows that its ORDER BY does not
decide. -/
structure RowOrder where
  joined : List (ConversationRecord × ParticipantRecord) →
    List (ConversationRecord × ParticipantRecord)
  joined_perm : ∀ rows, (joined rows).Perm rows
  messages : List MessageRecord → List MessageRecord
  messages_perm : ∀ rows, (messages rows).Perm rows

/-- The order in which the rows stand in the tables. -/
def RowOrder.stored : RowOrder := ⟨id, fun _ => .refl _, id, fun _ => .refl _⟩

namespace Postgres

/-- What the environment supplies to a turn: the clock in microseconds, what
`gen_random_uuid()` yields, the gate's answers, which statements fail, and the
order of rows. -/
structure Input where
  now : Int
  uuid : String
  gate : String → List String → Except String Bool
  fault : Statement → Option String
  order : RowOrder

/-- A turn at `now` in which nothing fails and the gate allows everything. -/
def Input.calm (now : Int) (uuid : String) : Input :=
  ⟨now, uuid, fun _ _ => .ok true, fun _ => none, .stored⟩

section Execute

-- How Postgres reads a `uuid` literal: as its canonical text.
variable (uuid : String → Option String)

-- ---------------------------------------------------------------------------
-- Parameters
-- ---------------------------------------------------------------------------

def uuidParam (text : String) : Except String String :=
  match uuid text with
  | some id => .ok id
  | none => .error s!"invalid input syntax for type uuid: {text}"

def textParam (text : String) : Except String String :=
  if text.toList.contains (Char.ofNat 0) then
    .error "invalid byte sequence for encoding UTF8: 0x00"
  else
    .ok text

/-- The range of a TIMESTAMPTZ, in milliseconds. -/
def minTimestamp : Int := -210866803200000

def maxTimestamp : Int := 9224318016000000

def timestampParam (date : Date) : Except String Int :=
  match date.time with
  | none => .error "invalid input syntax for type timestamp with time zone"
  | some t =>
    if minTimestamp ≤ t ∧ t < maxTimestamp then .ok (t * 1000)
    else .error "timestamp out of range"

/-- A LIMIT. -/
def bigintParam : Number → Except String Nat
  | .finite q =>
    if q.den = 1 ∧ 0 ≤ q.num then .ok q.num.toNat
    else .error "invalid input syntax for type bigint"
  | _ => .error "invalid input syntax for type bigint"

/-- A parameter at a place where a value of the given type stands. -/
def asUuid : Option Param → Except String String
  | some (.text s) => uuidParam uuid s
  | _ => .error "bind message supplies a parameter of another type"

def asTimestamp : Option Param → Except String Int
  | some (.date d) => timestampParam d
  | _ => .error "bind message supplies a parameter of another type"

def asLimit : Option Param → Except String Nat
  | some (.number n) => bigintParam n
  | _ => .error "bind message supplies a parameter of another type"

-- ---------------------------------------------------------------------------
-- Execution
-- ---------------------------------------------------------------------------

/-- The connection's transaction, under whose number its rows are pending. -/
def transactionOf (db : Database) (client : Nat) : Option Int :=
  (db.connections.find? fun c => c.1 = client).bind Prod.snd

def setTransaction (db : Database) (client : Nat) (start : Option Int) : Database :=
  { db with connections := db.connections.map fun c => if c.1 = client then (c.1, start) else c }

/-- The join over what is committed. -/
def joined (db : Database) : List (ConversationRecord × ParticipantRecord) :=
  (db.conversations.filter fun c => c.pending = none).flatMap fun c =>
    (db.participants.filter fun p => p.pending = none ∧ p.conversationId = c.id).map fun p => (c, p)

def joinedRows (rows : List (ConversationRecord × ParticipantRecord)) :
    List ConversationParticipantRow :=
  rows.map fun r => joinedRow r.1 r.2

/-- `UPDATE conversation_participants .. WHERE conversation_id = .. AND user_id = ..` -/
def updateParticipant (db : Database) (conversationId userId : String)
    (f : ParticipantRecord → ParticipantRecord) : Database :=
  { db with
    participants := db.participants.map fun p =>
      if p.pending = none ∧ p.conversationId = conversationId ∧ p.userId = userId then f p else p }

def tombstoneRecord (m : MessageRecord) (at_ : Int) : MessageRecord :=
  { m with body := "", deletedAt := some at_ }

/-- The newest rows that the comparisons admit, oldest first. -/
def history (order : RowOrder) (messages : List MessageRecord) (conversationId : String)
    (before after : Option Int) (limit : Nat) : List MessageRecord :=
  let matching := messages.filter fun m =>
    m.conversationId = conversationId ∧ before.all (fun t => m.createdAt < t) ∧
      after.all fun t => t < m.createdAt
  let recent := (sortBy (fun m => -m.createdAt) (order.messages matching)).take limit
  sortBy (fun m => m.createdAt) (order.messages recent)

def selectHistory (i : Input) (db : Database) (query : HistoryQuery) :
    Except String (List MessageRow) := do
  let conversationId ← asUuid uuid (query.param query.conversationId)
  let before ← query.before.mapM fun n => asTimestamp (query.param n)
  let after ← query.after.mapM fun n => asTimestamp (query.param n)
  let limit ← asLimit (query.param query.limit)
  return (history i.order db.messages conversationId before after limit).map MessageRecord.row

def insertMessage (i : Input) (now : Int) (db : Database) (conversationId senderId body : String) :
    Except String (List MessageRow × Database) := do
  let conversationId ← uuidParam uuid conversationId
  let senderId ← textParam senderId
  let body ← textParam body
  if db.messages.any fun m => m.id = i.uuid then
    throw "duplicate key value violates unique constraint messages_pkey"
  else if db.conversations.any fun c => c.id = conversationId ∧ c.pending = none then
    let m : MessageRecord := ⟨i.uuid, conversationId, senderId, body, now, none⟩
    return ([m.row], { db with messages := db.messages ++ [m] })
  else
    throw "insert or update on table messages violates foreign key constraint"

def insertConversation (i : Input) (now : Int) (db : Database) (client : Nat) :
    Except String (List (String × Int) × Database) :=
  -- `now()` is the start of the transaction.
  let start := transactionOf db client
  let createdAt := start.getD now
  if db.conversations.any fun c => c.id = i.uuid then
    .error "duplicate key value violates unique constraint conversations_pkey"
  else
    .ok ([(i.uuid, toMillis createdAt)], { db with
      conversations := db.conversations ++ [⟨i.uuid, createdAt, start.map fun _ => client⟩] })

def insertParticipants (db : Database) (client : Nat) (conversationId : String)
    (userIds : List String) : Except String Database := do
  let conversationId ← uuidParam uuid conversationId
  let userIds ← userIds.mapM textParam
  let pending := (transactionOf db client).map fun _ => client
  if !db.conversations.any fun c => c.id = conversationId ∧ (c.pending = none ∨ c.pending = pending) then
    throw "insert or update on table conversation_participants violates foreign key constraint"
  else
    let records := userIds.map fun userId =>
      (⟨conversationId, userId, none, none, pending⟩ : ParticipantRecord)
    if ((db.participants ++ records).map ParticipantRecord.key).Nodup then
      return { db with participants := db.participants ++ records }
    else
      throw "duplicate key value violates unique constraint conversation_participants_pkey"

def updateDeleted (db : Database) (id : String) (at_ : Date) :
    Except String (List MessageRow × Database) := do
  let id ← uuidParam uuid id
  let at_ ← timestampParam at_
  let hit := fun m : MessageRecord => decide (m.id = id ∧ m.deletedAt = none)
  return ((db.messages.filter hit).map fun m => (tombstoneRecord m at_).row,
    { db with messages := db.messages.map fun m => if hit m then tombstoneRecord m at_ else m })

/-- One statement at time `now`. A failed statement changes nothing. -/
def execute (i : Input) (now : Int) (db : Database) :
    (s : Statement) → Except String (s.Rows × Database)
  | .begin client => .ok ((), setTransaction db client (some now))
  | .commit client => .ok ((), { setTransaction db client none with
      conversations := db.conversations.map fun c =>
        if c.pending = some client then { c with pending := none } else c
      participants := db.participants.map fun p =>
        if p.pending = some client then { p with pending := none } else p })
  | .rollback client => .ok ((), { setTransaction db client none with
      conversations := db.conversations.filter fun c => c.pending ≠ some client
      participants := db.participants.filter fun p => p.pending ≠ some client })
  | .insertConversation client => insertConversation i now db client
  | .insertParticipants client conversationId userIds => do
    return ((), ← insertParticipants uuid db client conversationId userIds)
  | .selectConversation id => do
    let id ← uuidParam uuid id
    return (joinedRows (i.order.joined ((joined db).filter fun r => r.1.id = id)), db)
  | .selectConversationsOf userId => do
    let userId ← textParam userId
    let ids := (db.participants.filter fun p => p.pending = none ∧ p.userId = userId).map
      fun p => p.conversationId
    let rows := i.order.joined ((joined db).filter fun r => ids.contains r.1.id)
    return (joinedRows (sortBy (fun r => r.1.createdAt) rows), db)
  | .updateLastReadAt at_ conversationId userId => do
    let at_ ← timestampParam at_
    let conversationId ← uuidParam uuid conversationId
    let userId ← textParam userId
    return ((), updateParticipant db conversationId userId fun p => { p with lastReadAt := some at_ })
  | .updateClearedAt at_ conversationId userId => do
    let at_ ← timestampParam at_
    let conversationId ← uuidParam uuid conversationId
    let userId ← textParam userId
    return ((), updateParticipant db conversationId userId fun p => { p with clearedAt := some at_ })
  | .insertMessage conversationId senderId body => insertMessage uuid i now db conversationId senderId body
  | .selectMessage id => do
    let id ← uuidParam uuid id
    return ((db.messages.filter fun m => m.id = id).map MessageRecord.row, db)
  | .updateDeleted id at_ => updateDeleted uuid db id at_
  | .selectHistory query => do
    return (← selectHistory uuid i db query, db)

end Execute

end Postgres

-- ---------------------------------------------------------------------------
-- The stores
-- ---------------------------------------------------------------------------

/-- What the stores, the service and the WebSocket layer ask of the outside. -/
inductive ServerCall where
  /-- `pool.connect()` -/
  | connect
  /-- `client.release()` -/
  | release (client : Nat)
  | query (statement : Statement)
  /-- `gate.canCreateConversation` -/
  | canCreateConversation (requesterId : String) (participantIds : List String)
  /-- `new Date()` -/
  | newDate
  /-- `messageBus.publish` -/
  | publish (message : Message)
  /-- `notifier.notify` -/
  | notify (message : Message) (recipientIds : List String)
  /-- `wss.handleUpgrade` -/
  | handleUpgrade
  /-- `registry.add` -/
  | register (userId : String) (socket : Nat)
  /-- `registry.remove` -/
  | unregister (userId : String) (socket : Nat)
  /-- `registry.get` -/
  | socketsOf (userId : String)
  /-- `socket.readyState === socket.OPEN` -/
  | isOpen (socket : Nat)
  /-- `socket.send` -/
  | send (socket : Nat) (message : Message)
deriving DecidableEq

@[reducible] def ServerCall.Resp : ServerCall → Type
  | .connect => Nat
  | .release _ => Unit
  | .query statement => statement.Rows
  | .canCreateConversation _ _ => Bool
  | .newDate => Int
  | .publish _ => Unit
  | .notify _ _ => Unit
  | .handleUpgrade => Nat
  | .register _ _ => Unit
  | .unregister _ _ => Unit
  | .socketsOf _ => List Nat
  | .isOpen _ => Bool
  | .send _ _ => Unit

abbrev server : Interface := ⟨ServerCall, ServerCall.Resp⟩

/-- A method of a store. -/
abbrev StoreMethod (α : Type) : Type := Proc server Failure α

/-- `await` of a call to the outside. -/
abbrev awaitCall (call : ServerCall) : StoreMethod call.Resp := @Proc.request server Failure call

/-- A call whose answer the same turn uses or drops. -/
abbrev syncCall (call : ServerCall) : StoreMethod call.Resp := @Proc.perform server Failure call

/-- `await pool.query(..)`: the statement runs when a connection gets to it, and
its rows come back later still. -/
def query (statement : Statement) : StoreMethod statement.Rows :=
  .pause (awaitCall (.query statement))

def connect : StoreMethod Nat := .pause (awaitCall .connect)

/-- A query by a key that was just inserted yields a row. -/
def firstRow (rows : List α) : StoreMethod α :=
  match rows with
  | [] => throw (.port "Expected at least one row, got none")
  | row :: _ => return row

namespace PostgresConversationStore

/-- One INSERT for all participants, and none when there are none. -/
def insertParticipants (client : Nat) (id : String) (participantIds : List String) :
    StoreMethod Unit :=
  if participantIds.length > 0 then
    query (.insertParticipants client id participantIds)
  else
    return ()

/-- The transaction of `create`, up to its COMMIT. -/
def insertAll (client : Nat) (participantIds : List String) : StoreMethod Conversation := do
  query (.begin client)
  let inserted ← query (.insertConversation client)
  let row ← firstRow inserted
  insertParticipants client row.1 participantIds
  query (.commit client)
  return ⟨row.1, participantIds.map fun userId => ⟨userId, none, none⟩, row.2, none⟩

def create (participantIds : List String) : StoreMethod Conversation := do
  let client ← connect
  Proc.ensuring
    (tryCatch (insertAll client participantIds) fun error => do
      query (.rollback client)
      throw error)
    (syncCall (.release client))

def findById (id : String) : StoreMethod (Option Conversation) := do
  let rows ← query (.selectConversation id)
  return (rowsToConversations rows).head?

def findByParticipant (userId : String) : StoreMethod (List Conversation) := do
  let rows ← query (.selectConversationsOf userId)
  return rowsToConversations rows

def markRead (conversationId userId : String) (at_ : Date) : StoreMethod Unit :=
  query (.updateLastReadAt at_ conversationId userId)

def clear (conversationId userId : String) (at_ : Int) : StoreMethod Unit :=
  query (.updateClearedAt (Date.of at_) conversationId userId)

end PostgresConversationStore

namespace PostgresMessageStore

def defaultLimit : Number := .finite 50

def maxLimit : Number := .finite 200

def create (input : NewMessage) : StoreMethod Message := do
  let rows ← query (.insertMessage input.conversationId input.senderId input.body)
  let row ← firstRow rows
  return rowToMessage row

def findById (id : String) : StoreMethod (Option Message) := do
  let rows ← query (.selectMessage id)
  return rows.head?.map rowToMessage

def softDelete (id : String) (at_ : Int) : StoreMethod Message := do
  let updated ← query (.updateDeleted id (Date.of at_))
  match updated.head? with
  | some row => return rowToMessage row
  | none => do
    let existing ← query (.selectMessage id)
    let row ← firstRow existing
    return rowToMessage row

/-- The WHERE clause and the parameters, in the order they are pushed. -/
def historyQuery (conversationId : String) (options : ListMessagesOptions) : HistoryQuery :=
  let params := [Param.text conversationId]
  let (before, params) := match options.before with
    | some before => (some (params.length + 1), params ++ [Param.date before])
    | none => (none, params)
  let (after, params) := match options.after with
    | some after => (some (params.length + 1), params ++ [Param.date after])
    | none => (none, params)
  let limit := ((options.limit.getD defaultLimit).max (.finite 1)).min maxLimit
  { conversationId := 1, before, after, limit := params.length + 1, params := params ++ [Param.number limit] }

def listByConversation (conversationId : String) (options : ListMessagesOptions) :
    StoreMethod (List Message) := do
  let rows ← query (.selectHistory (historyQuery conversationId options))
  return rows.map rowToMessage

end PostgresMessageStore

namespace Postgres

/-- The queries of `listConversations`, which only read. Each runs at a time of
its own. `Promise.all` sends them together; here they run one after another, in
the order of the conversations. -/
def listPreviews : List PreviewQuery → StoreMethod (List (PreviewQuery × List Message))
  | [] => return []
  | q :: queries => do
    let messages ← PostgresMessageStore.listByConversation q.conversation.id q.options
    let rest ← listPreviews queries
    return (q, messages) :: rest

/-- The ports of the core on the Postgres stores. -/
def implementation : (call : PortCall) → StoreMethod call.Resp
  | .canCreateConversation requesterId participantIds =>
    awaitCall (.canCreateConversation requesterId participantIds)
  | .createConversation participantIds => PostgresConversationStore.create participantIds
  | .findConversation id => PostgresConversationStore.findById id
  | .findByParticipant userId => PostgresConversationStore.findByParticipant userId
  | .markRead conversationId userId at_ =>
    PostgresConversationStore.markRead conversationId userId at_
  | .clear conversationId userId at_ => PostgresConversationStore.clear conversationId userId at_
  | .createMessage input => PostgresMessageStore.create input
  | .findMessage id => PostgresMessageStore.findById id
  | .listByConversation conversationId options =>
    PostgresMessageStore.listByConversation conversationId options
  | .listPreviews queries => listPreviews queries
  | .softDelete id at_ => PostgresMessageStore.softDelete id at_
  -- Every query builds objects of its own, so nothing changes under a caller.
  | .settled conversation => .pause (.ret conversation)
  | .newDate => syncCall .newDate
  | .publish message => syncCall (.publish message)
  | .notify message recipientIds => syncCall (.notify message recipientIds)

/-- The state behind the ports, and of the live connections. The bus has handed
over or lost the first `handed` of the published messages. `clock` is the
current reading of the clock, in microseconds. -/
structure World where
  database : Database
  asked : List (String × List String)
  published : List Message
  notified : List (Message × List String)
  handed : Nat
  sockets : Sockets Message
  clock : Int

/-- Empty tables and no connections, at time `clock`. -/
def World.init (clock : Int) : World := ⟨⟨[], [], [], [], 0⟩, [], [], [], 0, .empty, clock⟩

section System

variable (uuid : String → Option String)

def perform (i : Input) : (call : ServerCall) → World → Except Failure call.Resp × World
  | .connect, w =>
    let db := w.database
    (.ok db.connected, { w with database :=
      { db with connections := db.connections ++ [(db.connected, none)], connected := db.connected + 1 } })
  | .release client, w =>
    let db := w.database
    (.ok (), { w with database :=
      { db with connections := db.connections.filter fun c => c.1 ≠ client } })
  | .query statement, w =>
    match i.fault statement with
    | some e => (.error (.port e), w)
    | none =>
      match execute uuid i w.clock w.database statement with
      | .error e => (.error (.port e), w)
      | .ok (rows, database) => (.ok rows, { w with database })
  | .canCreateConversation requesterId participantIds, w =>
    ((i.gate requesterId participantIds).mapError Failure.port,
      { w with asked := w.asked ++ [(requesterId, participantIds)] })
  | .newDate, w => (.ok (toMillis w.clock), w)
  | .publish message, w => (.ok (), { w with published := w.published ++ [message] })
  | .notify message recipientIds, w =>
    (.ok (), { w with notified := w.notified ++ [(message, recipientIds)] })
  | .handleUpgrade, w =>
    let s := w.sockets
    (.ok s.next, { w with sockets := { s with opened := s.opened ++ [s.next], next := s.next + 1 } })
  | .register userId socket, w =>
    (.ok (), { w with sockets := { w.sockets with registry := w.sockets.registry.add userId socket } })
  | .unregister userId socket, w =>
    (.ok (), { w with sockets := { w.sockets with registry := w.sockets.registry.remove userId socket } })
  | .socketsOf userId, w => (.ok (w.sockets.registry.get userId), w)
  | .isOpen socket, w => (.ok (decide (socket ∈ w.sockets.opened)), w)
  | .send socket message, w =>
    (.ok (), { w with sockets := { w.sockets with frames := w.sockets.frames ++ [⟨socket, message⟩] } })

/-- The clock never goes backwards, and a generated id is new. -/
def admissible (i : Input) (w : World) : Bool :=
  decide (w.clock ≤ i.now) && decide (uuid i.uuid = some i.uuid) &&
    w.database.conversations.all (fun c => c.id ≠ i.uuid) &&
    w.database.messages.all fun m => m.id ≠ i.uuid

/-- The process and its database. -/
def adapter : Adapter server Failure World Input where
  perform := perform uuid
  refresh _ _ x := x
  admissible := admissible uuid
  tick i w := { w with clock := i.now }

/-- The service over the Postgres stores, its calls interleaving. -/
def system : System server Failure Reply World Input Op where
  toAdapter := adapter uuid
  program op := op.program.implement implementation
  arrive _ w := some w

/-- The WebSocket layer over the Postgres stores. -/
def live : LiveConnections server Message where
  findConversation message := PostgresConversationStore.findById message.conversationId
  handleUpgrade := syncCall .handleUpgrade
  add userId socket := syncCall (.register userId socket)
  remove userId socket := syncCall (.unregister userId socket)
  get userId := syncCall (.socketsOf userId)
  isOpen socket := syncCall (.isOpen socket)
  send socket message := syncCall (.send socket message)

/-- What happens to the process from outside. The bus hands messages over in
the order they were published, whenever it gets to them. -/
def arrive : Task → World → Option World
  | .service _, w | .upgraded _, w => some w
  | .deliver n message, w =>
    if w.handed ≤ n ∧ w.published[n]? = some message then some { w with handed := n + 1 } else none
  | .closing socket, w =>
    some { w with sockets := { w.sockets with opened := w.sockets.opened.filter fun s => s ≠ socket } }
  | .closed userId socket, w =>
    if socket ∈ w.sockets.registry.get userId ∧ socket ∉ w.sockets.opened then some w else none

/-- The service over the Postgres stores with live connections, all of its
calls and deliveries interleaving. -/
def realtime : System server Failure Reply World Input Task where
  toAdapter := adapter uuid
  program := Task.program (fun op => op.program.implement implementation) live
  arrive := arrive

/-- One whole call with no other in flight. -/
def serve (i : Input) (op : Op) (w : World) : Except Failure Reply × World :=
  (adapter uuid).run i (op.program.implement implementation) ((adapter uuid).tick i w)

/-- The service over the Postgres stores, one whole call after another. -/
def machine : Machine World (Input × Op) (Except Failure Reply) where
  step x w := if admissible uuid x.1 w then some (serve uuid x.1 x.2 w) else none

end System

end Postgres

end Jiffy
