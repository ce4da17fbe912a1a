-- SUMMARY: The in-memory stores, and the service's ports performed on them.
import Jiffy.Core.MessagingService
import Jiffy.Lib.OrderedMap
import Jiffy.Lib.Interleaving

/-!
# In-memory adapters

`src/adapters/in-memory`: a `Map` of conversations and an array of messages.
Both stores hand out references to their live objects; an object is known by
its id, and a reference shows what the store holds when it is read.
-/

namespace Jiffy

open Js Async

-- ---------------------------------------------------------------------------
-- Conversations
-- ---------------------------------------------------------------------------

/-- A `Map` from the id of each conversation to the conversation. -/
structure InMemoryConversationStore where
  conversations : OrderedMap String Conversation
  keyed : ∀ {id conversation}, conversations.get id = some conversation → conversation.id = id

namespace InMemoryConversationStore

@[ext] theorem ext {s t : InMemoryConversationStore} (h : s.conversations = t.conversations) :
    s = t := by
  cases s; cases t; cases h; rfl

def empty : InMemoryConversationStore := ⟨.empty, by simp⟩

/-- `this.conversations.set(conversation.id, conversation)`. On an object the
map already holds this is a mutation in place. -/
def put (store : InMemoryConversationStore) (conversation : Conversation) :
    InMemoryConversationStore :=
  ⟨store.conversations.set conversation.id conversation, by
    intro id c h
    rw [OrderedMap.get_set] at h
    split at h
    · next hid => cases h; exact hid.symm
    · exact store.keyed h⟩

def newConversation (uuid : String) (now : Int) (participantIds : List String) : Conversation where
  id := uuid
  participants := participantIds.map fun userId => ⟨userId, none, none⟩
  createdAt := now
  lastMessage := none

def create (store : InMemoryConversationStore) (uuid : String) (now : Int)
    (participantIds : List String) : Conversation × InMemoryConversationStore :=
  let conversation := newConversation uuid now participantIds
  (conversation, store.put conversation)

def findById (store : InMemoryConversationStore) (id : String) : Option Conversation :=
  store.conversations.get id

def findByParticipant (store : InMemoryConversationStore) (userId : String) : List Conversation :=
  store.conversations.values.filter fun conversation => isParticipant conversation userId

/-- Mutate the participant record of one user in one conversation, if both are
there. `markRead` and `clear` each set one field this way. -/
def updateParticipant (store : InMemoryConversationStore) (conversationId userId : String)
    (f : ConversationParticipant → ConversationParticipant) : InMemoryConversationStore :=
  match store.conversations.get conversationId with
  | none => store
  | some conversation =>
    match participantOf conversation userId with
    | none => store
    | some _ =>
      store.put { conversation with
        participants := mutateFirst (fun p => p.userId = userId) f conversation.participants }

def markRead (store : InMemoryConversationStore) (conversationId userId : String) (at_ : Date) :
    InMemoryConversationStore :=
  store.updateParticipant conversationId userId fun p => { p with lastReadAt := some at_ }

def clear (store : InMemoryConversationStore) (conversationId userId : String) (at_ : Int) :
    InMemoryConversationStore :=
  store.updateParticipant conversationId userId fun p => { p with clearedAt := some at_ }

end InMemoryConversationStore

-- ---------------------------------------------------------------------------
-- Messages
-- ---------------------------------------------------------------------------

structure InMemoryMessageStore where
  messages : List Message

namespace InMemoryMessageStore

def empty : InMemoryMessageStore := ⟨[]⟩

def newMessage (uuid : String) (now : Int) (input : NewMessage) : Message where
  id := uuid
  conversationId := input.conversationId
  senderId := input.senderId
  body := input.body
  createdAt := now
  deletedAt := none

def create (store : InMemoryMessageStore) (uuid : String) (now : Int) (input : NewMessage) :
    Message × InMemoryMessageStore :=
  let message := newMessage uuid now input
  (message, ⟨store.messages ++ [message]⟩)

def findById (store : InMemoryMessageStore) (id : String) : Option Message :=
  store.messages.find? fun message => message.id = id

/-- Empty the body and stamp the deletion, in place. -/
def tombstone (message : Message) (at_ : Int) : Message :=
  { message with body := "", deletedAt := some at_ }

/-- An already deleted message is handed back as it is. -/
def softDelete (store : InMemoryMessageStore) (id : String) (at_ : Int) :
    Except Failure Message × InMemoryMessageStore :=
  match store.findById id with
  | none => (.error (.port s!"Message not found: {id}"), store)
  | some message =>
    if message.deletedAt ≠ none then
      (.ok message, store)
    else
      (.ok (tombstone message at_),
        ⟨mutateFirst (fun m => m.id = id) (fun m => tombstone m at_) store.messages⟩)

def listByConversation (store : InMemoryMessageStore) (conversationId : String)
    (options : ListMessagesOptions) : List Message :=
  let results := sortBy (fun m => m.createdAt)
    (store.messages.filter fun m => m.conversationId = conversationId)
  let results := match options.before with
    | some before => results.filter fun m => (Date.of m.createdAt).before before
    | none => results
  let results := match options.after with
    | some after => results.filter fun m => after.before (Date.of m.createdAt)
    | none => results
  match options.limit with
  | some limit => slice results limit.neg
  | none => results

end InMemoryMessageStore

-- ---------------------------------------------------------------------------
-- The ports on one process
-- ---------------------------------------------------------------------------

/-- The state behind the ports: the two stores, and what the gate was asked,
the bus was given and the notifier was told, in order. `clock` is the current
reading of the clock. -/
structure World where
  conversations : InMemoryConversationStore
  messages : InMemoryMessageStore
  asked : List (String × List String)
  published : List Message
  notified : List (Message × List String)
  clock : Int

namespace World

/-- Nothing stored, at time `clock`. -/
def init (clock : Int) : World := ⟨.empty, .empty, [], [], [], clock⟩

/-- What a reference to a conversation shows now. -/
def liveConversation (w : World) (conversation : Conversation) : Conversation :=
  (w.conversations.findById conversation.id).getD conversation

/-- What a reference to a message shows now. -/
def liveMessage (w : World) (message : Message) : Message :=
  (w.messages.findById message.id).getD message

end World

/-- What the environment supplies to a turn: the reading of the clock, what
`crypto.randomUUID()` yields, and how the gate answers. -/
structure Input where
  now : Int
  uuid : String
  gate : String → List String → Except String Bool

/-- A turn at `now` under `ALLOW_ALL_GATE`. -/
def Input.allowAll (now : Int) (uuid : String) : Input := ⟨now, uuid, fun _ _ => .ok true⟩

namespace InMemory

/-- One port call on the in-memory adapters. Each is synchronous up to its
result, so performing it is one atomic action. -/
def perform (i : Input) : (call : PortCall) → World → Except Failure call.Resp × World
  | .canCreateConversation requesterId participantIds, w =>
    ((i.gate requesterId participantIds).mapError Failure.port,
      { w with asked := w.asked ++ [(requesterId, participantIds)] })
  | .createConversation participantIds, w =>
    let (conversation, store) := w.conversations.create i.uuid w.clock participantIds
    (.ok conversation, { w with conversations := store })
  | .findConversation id, w => (.ok (w.conversations.findById id), w)
  | .findByParticipant userId, w => (.ok (w.conversations.findByParticipant userId), w)
  | .markRead conversationId userId at_, w =>
    (.ok (), { w with conversations := w.conversations.markRead conversationId userId at_ })
  | .clear conversationId userId at_, w =>
    (.ok (), { w with conversations := w.conversations.clear conversationId userId at_ })
  | .createMessage input, w =>
    let (message, store) := w.messages.create i.uuid w.clock input
    (.ok message, { w with messages := store })
  | .findMessage id, w => (.ok (w.messages.findById id), w)
  | .listByConversation conversationId options, w =>
    (.ok (w.messages.listByConversation conversationId options), w)
  | .listPreviews queries, w =>
    (.ok (queries.map fun q => (q, w.messages.listByConversation q.conversation.id q.options)), w)
  | .softDelete id at_, w =>
    let (result, store) := w.messages.softDelete id at_
    (result, { w with messages := store })
  | .settled conversation, w => (.ok conversation, w)
  | .newDate, w => (.ok w.clock, w)
  | .publish message, w => (.ok (), { w with published := w.published ++ [message] })
  | .notify message recipientIds, w =>
    (.ok (), { w with notified := w.notified ++ [(message, recipientIds)] })

/-- What the objects in an answer show now. -/
def refresh (w : World) : (call : PortCall) → call.Resp → call.Resp
  | .canCreateConversation _ _, x => x
  | .createConversation _, x => w.liveConversation x
  | .findConversation _, x => x.map w.liveConversation
  | .findByParticipant _, x => x.map w.liveConversation
  | .markRead _ _ _, x => x
  | .clear _ _ _, x => x
  | .createMessage _, x => w.liveMessage x
  | .findMessage _, x => x.map w.liveMessage
  | .listByConversation _ _, x => x.map w.liveMessage
  | .listPreviews _, x => x.map fun (q, messages) =>
    ({ q with conversation := w.liveConversation q.conversation }, messages.map w.liveMessage)
  | .softDelete _ _, x => w.liveMessage x
  | .settled _, x => w.liveConversation x
  | .newDate, x => x
  | .publish _, x => x
  | .notify _ _, x => x

/-- The clock never goes backwards, and a generated id is new. -/
def admissible (i : Input) (w : World) : Bool :=
  decide (w.clock ≤ i.now) && (w.conversations.findById i.uuid).isNone &&
    (w.messages.findById i.uuid).isNone

/-- The in-memory adapters. -/
def adapter : Adapter ports Failure World Input where
  perform := perform
  refresh := refresh
  admissible := admissible
  tick i w := { w with clock := i.now }

@[simp] theorem adapter_perform (i : Input) (call : PortCall) (w : World) :
    adapter.perform i call w = perform i call w := rfl

@[simp] theorem adapter_refresh (w : World) (call : PortCall) (x : call.Resp) :
    adapter.refresh w call x = refresh w call x := rfl

@[simp] theorem adapter_tick (i : Input) (w : World) :
    adapter.tick i w = { w with clock := i.now } := rfl

/-- The service over the in-memory adapters, its calls interleaving. -/
def system : System ports Failure Reply World Input Op where
  toAdapter := adapter
  program := Op.program
  arrive _ w := some w

/-- The stores together with the calls made on them. -/
abbrev State : Type := Config ports Failure Reply World Op

/-- One whole call with no other in flight. -/
def serve (i : Input) (op : Op) (w : World) : Except Failure Reply × World :=
  adapter.run i op.program (adapter.tick i w)

end InMemory

end Jiffy
