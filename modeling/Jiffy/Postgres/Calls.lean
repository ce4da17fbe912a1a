-- SUMMARY: The service's operations over the Postgres stores: what they send, and what it took for one to resolve.
import Jiffy.Core.PortCalls
import Jiffy.Postgres.Reads

/-!
# Calls on the Postgres adapters

The statements that each operation can send, and the inversion of those that
resolved.
-/

namespace Jiffy

open Js Async MessagingService

namespace Postgres

-- ---------------------------------------------------------------------------
-- What the operations send
-- ---------------------------------------------------------------------------

/-- What the implementation of a port call can ask for. -/
def Sends : PortCall → ServerCall → Prop
  | .canCreateConversation requesterId participantIds, s =>
    s = .canCreateConversation requesterId participantIds
  | .createConversation participantIds, s => s = .connect ∨ ∃ client, s = .release client ∨
    s = .query (.begin client) ∨ s = .query (.insertConversation client) ∨
    (∃ c, s = .query (.insertParticipants client c participantIds)) ∨
    s = .query (.commit client) ∨ s = .query (.rollback client)
  | .findConversation id, s => s = .query (.selectConversation id)
  | .findByParticipant userId, s => s = .query (.selectConversationsOf userId)
  | .markRead c u at_, s => s = .query (.updateLastReadAt at_ c u)
  | .clear c u at_, s => s = .query (.updateClearedAt (Date.of at_) c u)
  | .createMessage input, s =>
    s = .query (.insertMessage input.conversationId input.senderId input.body)
  | .findMessage id, s => s = .query (.selectMessage id)
  | .listByConversation _ _, s | .listPreviews _, s => ∃ query, s = .query (.selectHistory query)
  | .softDelete id at_, s => s = .query (.updateDeleted id (Date.of at_)) ∨ s = .query (.selectMessage id)
  | .settled _, _ => False
  | .newDate, s => s = .newDate
  | .publish message, s => s = .publish message
  | .notify message recipientIds, s => s = .notify message recipientIds

theorem query_only {ok : ServerCall → Prop} {s : Statement} (h : ok (.query s)) :
    (query s).Only ok := Proc.Only.request (P := server) (r := .query s) h

theorem firstRow_only {ok : ServerCall → Prop} (rows : List α) : (firstRow rows).Only ok := by
  cases rows <;> trivial

theorem listByConversation_only {ok : ServerCall → Prop} (h : ∀ q, ok (.query (.selectHistory q)))
    (c : String) (options : ListMessagesOptions) :
    (PostgresMessageStore.listByConversation c options).Only ok :=
  Proc.Only.bind (query_only (h _)) fun _ => trivial

theorem implementation_only (call : PortCall) : (implementation call).Only (Sends call) := by
  cases call with
  | canCreateConversation => exact Proc.Only.request (P := server) rfl
  | createConversation participantIds =>
    refine Proc.Only.bind (Proc.Only.request (P := server) (.inl rfl)) fun client => ?_
    refine Proc.Only.ensuring (Proc.Only.catching ?_ fun e => ?_)
      (Proc.Only.perform (P := server) (.inr ⟨client, .inl rfl⟩))
    · refine Proc.Only.bind (query_only (.inr ⟨client, .inr (.inl rfl)⟩)) fun _ => ?_
      refine Proc.Only.bind (query_only (.inr ⟨client, .inr (.inr (.inl rfl))⟩)) fun inserted => ?_
      refine Proc.Only.bind (firstRow_only inserted) fun row => ?_
      refine Proc.Only.bind ?_ fun _ => ?_
      · unfold PostgresConversationStore.insertParticipants
        split
        · exact query_only (.inr ⟨client, .inr (.inr (.inr (.inl ⟨_, rfl⟩)))⟩)
        · trivial
      · refine Proc.Only.bind (query_only ?_) fun _ => trivial
        exact .inr ⟨client, .inr (.inr (.inr (.inr (.inl rfl))))⟩
    · refine Proc.Only.bind (query_only ?_) fun _ => trivial
      exact .inr ⟨client, .inr (.inr (.inr (.inr (.inr rfl))))⟩
  | findConversation | findByParticipant | findMessage =>
    exact Proc.Only.bind (query_only rfl) fun _ => trivial
  | markRead | clear => exact query_only rfl
  | createMessage =>
    refine Proc.Only.bind (query_only rfl) fun rows => ?_
    exact Proc.Only.bind (firstRow_only rows) fun _ => trivial
  | listByConversation c options => exact listByConversation_only (fun q => ⟨q, rfl⟩) c options
  | listPreviews queries =>
    change (listPreviews queries).Only fun s => ∃ query, s = ServerCall.query (.selectHistory query)
    induction queries with
    | nil => trivial
    | cons q queries ih =>
      refine Proc.Only.bind (listByConversation_only (fun q => ⟨q, rfl⟩) _ _) fun _ => ?_
      exact Proc.Only.bind ih fun _ => trivial
  | softDelete =>
    refine Proc.Only.bind (query_only (.inl rfl)) fun updated => ?_
    split
    · trivial
    · refine Proc.Only.bind (query_only (.inr rfl)) fun existing => ?_
      exact Proc.Only.bind (firstRow_only existing) fun _ => trivial
  | settled => trivial
  | newDate | publish | notify => exact Proc.Only.perform (P := server) rfl

theorem program_only (op : Op) :
    (op.program.implement implementation).Only fun s => ∃ call, op.Uses call ∧ Sends call s :=
  Proc.Only.implement (fun call hcall => (implementation_only call).mono fun _ hs => ⟨call, hcall, hs⟩)
    op.program_only

-- ---------------------------------------------------------------------------
-- What a resolved call read and wrote
-- ---------------------------------------------------------------------------

section Resolved

variable (uuid : String → Option String)

/-- The ports of the core, each call run to its end. -/
def portAdapter : Adapter ports Failure World Input := (adapter uuid).via implementation

theorem serve_eq (i : Input) (op : Op) (w : World) : serve uuid i op w =
    (portAdapter uuid).run i op.program { w with clock := i.now } :=
  Adapter.run_implement _ _ _ _ _

variable {uuid} {i : Input} {w w' : World}

@[simp] theorem portAdapter_perform (call : PortCall) (w : World) :
    (portAdapter uuid).perform i call w = (adapter uuid).run i (implementation call) w := rfl

@[simp] theorem adapter_perform (call : ServerCall) (w : World) :
    (adapter uuid).perform i call w = perform uuid i call w := rfl

theorem admissible_spec (h : admissible uuid i w = true) :
    w.clock ≤ i.now ∧ ∀ m ∈ w.database.messages, m.id ≠ i.uuid := by
  simp only [admissible, Bool.and_eq_true, decide_eq_true_eq, List.all_eq_true] at h
  exact ⟨h.1.1.1, fun m hm => by simpa using h.2 m hm⟩

theorem run_query (s : Statement) :
    (adapter uuid).run i (query s) w = perform uuid i (.query s) w := by
  unfold query awaitCall Proc.request
  rw [Adapter.run_pause, Adapter.run_await, Adapter.run_ofExcept]
  rfl

theorem perform_query {s : Statement} {rows : s.Rows}
    (h : perform uuid i (.query s) w = (.ok rows, w')) : i.fault s = none ∧
      ∃ db, execute uuid i w.clock w.database s = .ok (rows, db) ∧ w' = { w with database := db } := by
  simp only [perform] at h
  split at h
  · cases h
  · next hfault =>
    split at h
    · cases h
    · next rows' db hexec =>
      cases h
      exact ⟨hfault, db, hexec, rfl⟩

variable (uuid i w) in
/-- A statement fails and changes nothing, or it ran. -/
theorem perform_query_cases (s : Statement) :
    (∃ e, perform uuid i (.query s) w = (.error e, w)) ∨
      ∃ rows db, execute uuid i w.clock w.database s = .ok (rows, db) ∧
        perform uuid i (.query s) w = (.ok rows, { w with database := db }) := by
  simp only [perform]
  cases i.fault s with
  | some e => exact .inl ⟨_, rfl⟩
  | none =>
    cases hexec : execute uuid i w.clock w.database s with
    | error e => exact .inl ⟨_, rfl⟩
    | ok out => exact .inr ⟨out.1, out.2, rfl, rfl⟩

variable (uuid i w) in
/-- A statement that fails leaves the world as it was. -/
theorem perform_query_world (s : Statement) : (perform uuid i (.query s) w).2 = w ∨
    ∃ rows db, execute uuid i w.clock w.database s = .ok (rows, db) ∧
      (perform uuid i (.query s) w).2 = { w with database := db } := by
  rcases perform_query_cases uuid i w s with ⟨e, h⟩ | ⟨rows, db, hexec, h⟩
  · exact .inl (congrArg Prod.snd h)
  · exact .inr ⟨rows, db, hexec, congrArg Prod.snd h⟩

variable (uuid i w) in
/-- A statement touches nothing but the tables. -/
theorem perform_query_outside {f : World → α} (hf : ∀ w db, f { w with database := db } = f w)
    (s : Statement) : f (perform uuid i (.query s) w).2 = f w := by
  rcases perform_query_world uuid i w s with h | ⟨rows, db, -, h⟩
  · rw [h]
  · rw [h]
    exact hf w db

theorem query_bind_ok {s : Statement} {f : s.Rows → StoreMethod α} {a : α}
    (h : (adapter uuid).run i ((query s).bind f) w = (.ok a, w')) :
    ∃ rows db, execute uuid i w.clock w.database s = .ok (rows, db) ∧
      (adapter uuid).run i (f rows) { w with database := db } = (.ok a, w') := by
  obtain ⟨rows, w₁, hquery, hf⟩ := Adapter.run_bind_ok _ h
  rw [run_query] at hquery
  obtain ⟨-, db, hexec, rfl⟩ := perform_query hquery
  exact ⟨rows, db, hexec, hf⟩

theorem awaitParticipant_ok {c u : String} {conversation : Conversation}
    (h : (portAdapter uuid).run i (awaitParticipant c u) w = (.ok conversation, w')) :
    w' = w ∧ uuid c = some conversation.id ∧ ∃ r, ReadFor w.database u conversation r := by
  obtain ⟨checked, w₁, hcheck, hsettled⟩ := Adapter.run_bind_ok _ h
  obtain ⟨found, w₂, hfound, hcheck⟩ := Adapter.run_bind_ok _ hcheck
  rw [Adapter.run_request] at hfound
  obtain ⟨rows, db, hexec, hfound⟩ := query_bind_ok hfound
  obtain ⟨rfl, k, hk, hrows, hid, -⟩ := execute_selectConversation hexec
  cases hfound
  cases hhead : (rowsToConversations rows).head? with
  | none =>
    simp only [hhead] at hcheck
    cases hcheck
  | some read =>
    simp only [hhead] at hcheck
    have hmem : read ∈ rowsToConversations rows := List.mem_of_mem_head? hhead
    split at hcheck
    · next hu =>
      cases hcheck
      rw [Adapter.run_request] at hsettled
      cases hsettled
      have hc : conversation.id = k := by
        obtain ⟨row, hrow, hrid⟩ := rowsToConversations_row hmem
        rw [← hrid, hid row hrow]
      exact ⟨rfl, hc ▸ hk, clearedAtOf_row hrows hmem hu⟩
    · cases hcheck

theorem query_resolves {s : Statement} {rows : s.Rows} {db : Database} (hfault : i.fault s = none)
    (h : execute uuid i w.clock w.database s = .ok (rows, db)) :
    (adapter uuid).run i (query s) w = (.ok rows, { w with database := db }) := by
  rw [run_query]
  simp only [perform, hfault, h]

theorem findById_resolves {c : String} {rows : List ConversationParticipantRow}
    (hfault : i.fault (.selectConversation c) = none)
    (h : execute uuid i w.clock w.database (.selectConversation c) = .ok (rows, w.database)) :
    (adapter uuid).run i (PostgresConversationStore.findById c) w =
      (.ok (rowsToConversations rows).head?, w) := by
  unfold PostgresConversationStore.findById
  rw [Proc.bind_eq_bind, Adapter.run_bind, query_resolves hfault h]
  rfl

theorem query_rejects {s : Statement} {e : String} (hfault : i.fault s = none)
    (h : execute uuid i w.clock w.database s = .error e) :
    (adapter uuid).run i (query s) w = (.error (.port e), w) := by
  rw [run_query]
  simp only [perform, hfault, h]

/-- The check lets a committed participant in. -/
theorem awaitParticipant_resolves {c u k : String} {r : ConversationRecord × ParticipantRecord}
    (hfault : i.fault (.selectConversation c) = none) (hc : uuid c = some k)
    (hr : r ∈ joined w.database) (hkey : r.2.key = (k, u)) :
    ∃ conversation, (portAdapter uuid).run i (awaitParticipant c u) w = (.ok conversation, w) := by
  obtain ⟨rows, hexec⟩ : ∃ rows, execute uuid i w.clock w.database (.selectConversation c) =
      .ok (rows, w.database) := by
    simp only [execute, uuidParam, hc]
    exact ⟨_, rfl⟩
  obtain ⟨-, k', hk', -, hid, hall⟩ := execute_selectConversation hexec
  obtain rfl : k = k' := Option.some.inj (hc.symm.trans hk')
  obtain ⟨hconv, huser⟩ := Prod.mk.inj hkey
  have hrow := hall r hr ((mem_joined.mp hr).2.2.2.2.symm.trans hconv)
  obtain ⟨conversation, hmem, -⟩ := row_participant hrow
  cases hhead : (rowsToConversations rows).head? with
  | none =>
    rw [List.head?_eq_none_iff.mp hhead] at hmem
    cases hmem
  | some read =>
    have hread := List.mem_of_mem_head? hhead
    obtain ⟨row, hrow', hrid⟩ := rowsToConversations_row hread
    have hu : isParticipant read u = true := by
      refine isParticipant_of_row hread hrow ?_ huser
      rw [hid _ hrow, ← hrid, hid _ hrow']
    have hfound : (portAdapter uuid).run i (request (.findConversation c)) w = (.ok (some read), w) := by
      rw [Adapter.run_request, portAdapter_perform, implementation]
      unfold PostgresConversationStore.findById
      rw [Proc.bind_eq_bind, Adapter.run_bind, query_resolves hfault hexec]
      exact congrArg (fun x => (Except.ok x, w)) hhead
    refine ⟨read, ?_⟩
    unfold awaitParticipant requireParticipant
    simp only [Proc.bind_eq_bind, Adapter.run_bind, hfound, hu]
    rfl

/-- A message that a read of conversation `k` shows to `u`: a stored one, later
than what a committed row of `u` hides. -/
def ShownTo (db : Database) (k u : String) (m : Message) : Prop :=
  ∃ r ∈ joined db, r.2.key = (k, u) ∧ ∃ s ∈ db.messages, m = rowToMessage s.row ∧
    ∀ t, r.2.clearedAt = some t → toMillis t * 1000 < s.createdAt

/-- A call of `op` that settled like this showed `u` the message in conversation
`k`, in its history or as its last message. -/
def Shows (uuid : String → Option String) (k u : String) (m : Message) (op : Op)
    (result : Except Failure Reply) : Prop :=
  (∃ c options messages, op = .listMessages c u options ∧ uuid c = some k ∧
    result = .ok (.messages messages) ∧ m ∈ messages) ∨
  ∃ conversations, op = .listConversations u ∧ result = .ok (.conversations conversations) ∧
    ∃ conversation ∈ conversations, conversation.id = k ∧ conversation.lastMessage = some (some m)

theorem listByConversation_ok {c : String} {options : ListMessagesOptions} {messages : List Message}
    (h : (adapter uuid).run i (PostgresMessageStore.listByConversation c options) w =
      (.ok messages, w')) :
    w' = w ∧ ∀ m ∈ messages, ∃ r ∈ w.database.messages, m = rowToMessage r.row ∧
      uuid c = some r.conversationId ∧
      ∀ t, options.after = some (Date.of t) → t * 1000 < r.createdAt := by
  obtain ⟨rows, db, hexec, hrows⟩ := query_bind_ok h
  obtain ⟨rfl, k, hk, hmem⟩ := execute_selectHistory hexec
  cases hrows
  refine ⟨rfl, fun m hm => ?_⟩
  obtain ⟨row, hrow, rfl⟩ := List.mem_map.mp hm
  obtain ⟨r, hr, rfl, rfl, hafter⟩ := hmem row hrow
  exact ⟨r, hr, rfl, hk, hafter⟩

/-- The `after` of a query hides what the row of the reader hides. -/
theorem ReadFor.after {db : Database} {u : String} {conversation : Conversation}
    {r : ConversationRecord × ParticipantRecord} (hr : ReadFor db u conversation r)
    {options : ListMessagesOptions} {t : Int} (ht : r.2.clearedAt = some t) :
    (withCleared options (clearedAtOf conversation u)).after = some (Date.of (toMillis t)) := by
  rw [hr.clearedAt, ht]
  rfl

theorem listMessages_ok {c u : String} {options : ListMessagesOptions} {messages : List Message}
    (h : (portAdapter uuid).run i (listMessages c u options) w = (.ok messages, w')) :
    w' = w ∧ ∃ k, uuid c = some k ∧
      ∀ m ∈ messages, ShownTo w.database k u m ∧ m.conversationId = k := by
  obtain ⟨conversation, w₁, hcheck, hlist⟩ := Adapter.run_bind_ok _ h
  obtain ⟨rfl, hc, r, hr⟩ := awaitParticipant_ok hcheck
  rw [Adapter.run_request] at hlist
  obtain ⟨rfl, hmem⟩ := listByConversation_ok hlist
  refine ⟨rfl, conversation.id, hc, fun m hm => ?_⟩
  obtain ⟨s, hs, hms, hk, hafter⟩ := hmem m hm
  refine ⟨⟨r, hr.stored, hr.key, s, hs, hms, fun t ht => hafter _ (hr.after ht)⟩, ?_⟩
  rw [hms]
  exact Option.some.inj (hk.symm.trans hc)

/-- A page without options shows something as soon as there is something to
show. -/
theorem listMessages_resolves {c u k : String} {r : ConversationRecord × ParticipantRecord}
    (hfault : ∀ s, i.fault s = none) (hdb : Consistent w.database) (hc : uuid c = some k)
    (hr : r ∈ joined w.database) (hkey : r.2.key = (k, u))
    (hrange : ∀ t, r.2.clearedAt = some t → timestampParam (Date.of (toMillis t)) = .ok t)
    {s : MessageRecord} (hs : s ∈ w.database.messages) (hk : s.conversationId = k)
    (hlate : ∀ t, r.2.clearedAt = some t → t < s.createdAt) :
    ∃ messages, (portAdapter uuid).run i (listMessages c u {}) w = (.ok messages, w) ∧
      messages ≠ [] := by
  obtain ⟨conversation, hcheck⟩ := awaitParticipant_resolves (hfault _) hc hr hkey
  obtain ⟨-, hid, r', hr'⟩ := awaitParticipant_ok hcheck
  obtain rfl : k = conversation.id := Option.some.inj (hc.symm.trans hid)
  have hrow : r'.2 = r.2 :=
    hdb.eq_of_key (mem_joined.mp hr'.stored).2.2.1 (mem_joined.mp hr).2.2.1 (hr'.key.trans hkey.symm)
  generalize hoptions : withCleared {} (clearedAtOf conversation u) = options
  have hafter : options.after.mapM timestampParam = .ok r.2.clearedAt := by
    rw [← hoptions, hr'.clearedAt, hrow]
    cases hcleared : r.2.clearedAt with
    | none => rfl
    | some t =>
      simp only [withCleared, Option.map_some, Option.mapM_some, hrange t hcleared]
      rfl
  have hbefore : options.before = none ∧ options.limit = none := by
    rw [← hoptions]
    unfold withCleared
    split <;> exact ⟨rfl, rfl⟩
  have hnonempty := @history_ne_nil i.order _ _ none _ 50 (by decide) _ hs hk
    (fun _ h => by cases h) hlate
  have hexec : execute uuid i w.clock w.database
      (.selectHistory (PostgresMessageStore.historyQuery c options)) =
        .ok ((history i.order w.database.messages conversation.id none r.2.clearedAt 50).map
          MessageRecord.row, w.database) := by
    simp only [execute, selectHistory_historyQuery, hbefore.1, hbefore.2, hafter, uuidParam, hc]
    rfl
  generalize history i.order w.database.messages conversation.id none r.2.clearedAt 50 = page at *
  refine ⟨(page.map MessageRecord.row).map rowToMessage, ?_, by simpa using hnonempty⟩
  unfold listMessages
  simp only [Proc.bind_eq_bind, Adapter.run_bind, hcheck]
  rw [Adapter.run_request, portAdapter_perform, implementation, hoptions]
  unfold PostgresMessageStore.listByConversation
  rw [Proc.bind_eq_bind, Adapter.run_bind, query_resolves (hfault _) hexec]
  rfl

theorem listPreviews_ok {queries : List PreviewQuery} {previews : List (PreviewQuery × List Message)}
    (h : (adapter uuid).run i (listPreviews queries) w = (.ok previews, w')) :
    w' = w ∧ ∀ q ∈ previews, q.1 ∈ queries ∧
      (adapter uuid).run i (PostgresMessageStore.listByConversation q.1.conversation.id q.1.options) w =
        (.ok q.2, w) := by
  induction queries generalizing previews w' with
  | nil =>
    cases h
    exact ⟨rfl, fun q hq => by cases hq⟩
  | cons query queries ih =>
    obtain ⟨messages, w₁, hlist, htail⟩ := Adapter.run_bind_ok _ h
    obtain ⟨rfl, -⟩ := listByConversation_ok hlist
    obtain ⟨rest, w₂, hrest, hret⟩ := Adapter.run_bind_ok _ htail
    cases hret
    obtain ⟨rfl, hmem⟩ := ih hrest
    refine ⟨rfl, fun q hq => ?_⟩
    rcases List.mem_cons.mp hq with rfl | hq
    · exact ⟨List.mem_cons_self, hlist⟩
    · exact ⟨List.mem_cons_of_mem _ (hmem q hq).1, (hmem q hq).2⟩

theorem listConversations_ok {u : String} {conversations : List Conversation}
    (h : (portAdapter uuid).run i (listConversations u) w = (.ok conversations, w')) :
    w' = w ∧ ∀ conversation ∈ conversations, ∀ m, conversation.lastMessage = some (some m) →
      ShownTo w.database conversation.id u m := by
  obtain ⟨found, w₁, hfound, htail⟩ := Adapter.run_bind_ok _ h
  rw [Adapter.run_request] at hfound
  obtain ⟨rows, db, hexec, hrows⟩ := query_bind_ok hfound
  obtain ⟨rfl, htables, hown⟩ := execute_selectConversationsOf hexec
  cases hrows
  obtain ⟨previews, w₂, hpreviews, hret⟩ := Adapter.run_bind_ok _ htail
  rw [Adapter.run_request] at hpreviews
  obtain ⟨rfl, hmem⟩ := listPreviews_ok hpreviews
  cases hret
  refine ⟨rfl, fun conversation hconversation m hlast => ?_⟩
  obtain ⟨⟨q, messages⟩, hq, hshown⟩ := List.mem_filterMap.mp hconversation
  simp only at hshown
  split at hshown
  · cases hshown
    obtain ⟨hquery, hlist⟩ := hmem _ hq
    obtain ⟨read, hread, rfl⟩ := List.mem_map.mp hquery
    have hhead : messages.head? = some m := by simpa using hlast
    obtain ⟨-, hmessages⟩ := listByConversation_ok hlist
    obtain ⟨s, hs, hms, -, hafter⟩ := hmessages m (List.mem_of_mem_head? hhead)
    have hu : isParticipant read u = true := by
      obtain ⟨row, hrow, hid⟩ := rowsToConversations_row hread
      obtain ⟨own, hown, hsame, huser⟩ := hown row hrow
      exact isParticipant_of_row hread hown (hsame.trans hid) huser
    obtain ⟨r, hr⟩ := clearedAtOf_row htables hread hu
    exact ⟨r, hr.stored, hr.key, s, hs, hms, fun t ht => hafter _ (hr.after ht)⟩
  · cases hshown

variable (uuid i) in
theorem awaitParticipant_world (c u : String) (w : World) :
    ((portAdapter uuid).run i (awaitParticipant c u) w).2 = w := by
  refine Adapter.run_only _ (J := fun s t => t = s) (fun _ => rfl) (fun h h' => h'.trans h) ?_
    (awaitParticipant_only fun _ h => h) w
  rintro call w (rfl | ⟨conversation, rfl⟩)
  · refine Adapter.run_only _ (J := fun s t => t = s) (fun _ => rfl) (fun h h' => h'.trans h) ?_
      (implementation_only (.findConversation c)) w
    rintro _ w rfl
    rcases perform_query_world uuid i w (.selectConversation c) with h | h
    · exact h
    · obtain ⟨rows, db, hexec, h⟩ := h
      obtain ⟨rfl, -⟩ := execute_selectConversation hexec
      exact h
  · rfl

/-- A deletion ends in one UPDATE, or changes nothing. -/
theorem deleteConversation_world (c u : String) (w : World) :
    ((portAdapter uuid).run i (deleteConversation c u) w).2 = w ∨
      ∃ db, execute uuid i w.clock w.database
        (.updateClearedAt (Date.of (toMillis w.clock)) c u) = .ok ((), db) ∧
        ((portAdapter uuid).run i (deleteConversation c u) w).2 = { w with database := db } := by
  have hworld := awaitParticipant_world uuid i c u w
  simp only [deleteConversation, Proc.bind_eq_bind, Adapter.run_bind]
  cases hcheck : (portAdapter uuid).run i (awaitParticipant c u) w with
  | mk x w₁ =>
    rw [hcheck] at hworld
    obtain rfl : w₁ = w := hworld
    cases x with
    | error e => exact .inl rfl
    | ok conversation =>
      have hclear := perform_query_world uuid i w₁
        (.updateClearedAt (Date.of (toMillis w₁.clock)) c u)
      have hnow : (portAdapter uuid).run i (Jiffy.perform .newDate) w₁ =
          (.ok (toMillis w₁.clock), w₁) := Adapter.run_perform ..
      simp only [hnow]
      rw [Adapter.run_request, portAdapter_perform, implementation, PostgresConversationStore.clear,
        run_query]
      rcases hclear with h | ⟨_, db, hexec, h⟩
      · exact .inl h
      · exact .inr ⟨db, hexec, h⟩

theorem deleteConversation_ok {c u : String}
    (h : (portAdapter uuid).run i (deleteConversation c u) w = (.ok (), w')) :
    ∃ k r db, uuid c = some k ∧ r ∈ joined w.database ∧ r.2.key = (k, u) ∧
      execute uuid i w.clock w.database
        (.updateClearedAt (Date.of (toMillis w.clock)) c u) = .ok ((), db) ∧
      w' = { w with database := db } := by
  obtain ⟨conversation, w₁, hcheck, htail⟩ := Adapter.run_bind_ok _ h
  obtain ⟨rfl, hc, r, hr⟩ := awaitParticipant_ok hcheck
  obtain ⟨now, w₂, hnow, hclear⟩ := Adapter.run_bind_ok _ htail
  rw [Adapter.run_perform] at hnow
  cases hnow
  rw [Adapter.run_request, portAdapter_perform] at hclear
  obtain ⟨-, db, hexec, rfl⟩ := perform_query ((run_query _).symm.trans hclear)
  exact ⟨conversation.id, r, db, hc, hr.stored, hr.key, hexec, rfl⟩

variable (uuid i) in
/-- A call of `create` stores the message it resolves with, or nothing. -/
theorem createMessage_stores (input : NewMessage) (w : World) :
    (∃ e, (adapter uuid).run i (PostgresMessageStore.create input) w = (.error e, w)) ∨
      ∃ m, (adapter uuid).run i (PostgresMessageStore.create input) w = (.ok (rowToMessage m.row),
        { w with database := { w.database with messages := w.database.messages ++ [m] } }) := by
  unfold PostgresMessageStore.create
  rw [Proc.bind_eq_bind, Adapter.run_bind, run_query]
  rcases perform_query_cases uuid i w
    (.insertMessage input.conversationId input.senderId input.body) with ⟨e, heq⟩ | ⟨rows, db, hexec, heq⟩
  · rw [heq]
    exact .inl ⟨e, rfl⟩
  · rw [heq]
    obtain ⟨_, m, -, -, rfl, rfl⟩ := execute_insertMessage hexec
    exact .inr ⟨m, rfl⟩

variable (uuid i) in
/-- A send stores the message it resolves with, or nothing. -/
theorem sendMessage_stores (input : SendMessageInput) (w : World) :
    (∃ e, ((portAdapter uuid).run i (sendMessage input) w).1 = .error e ∧
      ((portAdapter uuid).run i (sendMessage input) w).2.database = w.database) ∨
    ∃ m, ((portAdapter uuid).run i (sendMessage input) w).1 = .ok (rowToMessage m.row) ∧
      ((portAdapter uuid).run i (sendMessage input) w).2.database.messages =
        w.database.messages ++ [m] := by
  unfold sendMessage
  split
  · exact .inl ⟨_, rfl, rfl⟩
  have hworld := awaitParticipant_world uuid i input.conversationId input.senderId w
  simp only [Proc.bind_eq_bind, Adapter.run_bind]
  cases hcheck : (portAdapter uuid).run i (awaitParticipant input.conversationId input.senderId) w with
  | mk x w₁ =>
    rw [hcheck] at hworld
    obtain rfl : w₁ = w := hworld
    cases x with
    | error e => exact .inl ⟨e, rfl, rfl⟩
    | ok conversation =>
      simp only
      rw [Adapter.run_request, portAdapter_perform, implementation, Adapter.run_request]
      simp only [adapter_perform, perform]
      cases i.gate input.senderId (conversation.participants.map fun p => p.userId) with
      | error e => exact .inl ⟨_, rfl, rfl⟩
      | ok allowed =>
        cases allowed with
        | false => exact .inl ⟨_, rfl, rfl⟩
        | true =>
          simp only [Except.mapError, if_true, Adapter.run_bind]
          rw [Adapter.run_request, portAdapter_perform, implementation]
          rcases createMessage_stores uuid i ⟨conversation.id, input.senderId, input.body⟩
            { w₁ with asked := w₁.asked ++
              [(input.senderId, conversation.participants.map fun p => p.userId)] } with
            ⟨e, h⟩ | ⟨m, h⟩
          · rw [h]
            exact .inl ⟨e, rfl, rfl⟩
          · rw [h]
            exact .inr ⟨m, rfl, rfl⟩

-- ---------------------------------------------------------------------------
-- Invariants of a call
-- ---------------------------------------------------------------------------

/-- Only a deletion writes `cleared_at`. -/
theorem uses_clear {op : Op} {call : PortCall} {d : Date} {c u : String} (hop : op.Uses call)
    (hs : Sends call (.query (.updateClearedAt d c u))) : op = .deleteConversation c u := by
  cases call with
  | clear c' u' t =>
    simp only [Sends, ServerCall.query.injEq, Statement.updateClearedAt.injEq] at hs
    obtain ⟨-, rfl, rfl⟩ := hs
    cases op <;> simp [Op.Uses, PortCall.Checks] at hop
    obtain ⟨rfl, rfl⟩ := hop
    rfl
  | _ => simp [Sends] at hs

/-- Only a send inserts a message. -/
theorem uses_insert {op : Op} {call : PortCall} {c u body : String} (hop : op.Uses call)
    (hs : Sends call (.query (.insertMessage c u body))) : ∃ input, op = .sendMessage input := by
  cases call with
  | createMessage message =>
    cases op <;> simp [Op.Uses, PortCall.Checks] at hop
    exact ⟨_, rfl⟩
  | _ => simp [Sends] at hs

/-- Only a send and a deletion of a message publish. -/
theorem uses_publish {op : Op} {call : PortCall} {m : Message} (hop : op.Uses call)
    (hs : Sends call (.publish m)) :
    (∃ input, op = .sendMessage input) ∨ ∃ c messageId u, op = .deleteMessage c messageId u := by
  cases call with
  | publish message =>
    cases op <;> simp [Op.Uses, PortCall.Checks] at hop
    · exact .inl ⟨_, rfl⟩
    · exact .inr ⟨_, _, _, rfl⟩
  | _ => simp [Sends] at hs

variable (uuid i) in
/-- What every statement of a call keeps, the call keeps, given that a deletion
takes its instant from the clock. -/
theorem run_invariant {I : World → Prop}
    (hchange : ∀ {w s db}, I w → Change uuid i w.clock w.database s db →
      (∀ d c u, s = .updateClearedAt d c u → d = Date.of (toMillis w.clock)) →
        I { w with database := db })
    (hcongr : ∀ {w w' : World}, w'.clock = w.clock →
      w'.database.participants = w.database.participants →
      w'.database.messages = w.database.messages → I w → I w')
    (op : Op) (h : I w) : I ((portAdapter uuid).run i op.program w).2 := by
  have hquery : ∀ {w s}, (∀ d c u, s = .updateClearedAt d c u → d = Date.of (toMillis w.clock)) →
      I w → I (perform uuid i (.query s) w).2 := by
    intro w s hs hw
    rcases perform_query_world uuid i w s with h | ⟨rows, db, hexec, h⟩
    · rw [h]
      exact hw
    · rw [h]
      exact hchange hw (execute_change hexec) hs
  have hother : ∀ {op : Op} {r w}, (∀ c u, op ≠ .deleteConversation c u) →
      (∃ call, op.Uses call ∧ Sends call r) → I w → I (perform uuid i r w).2 := by
    rintro op r w hop ⟨call, huses, hsends⟩ hw
    cases r with
    | query s =>
      refine hquery (fun d c u hs => ?_) hw
      subst hs
      exact absurd (uses_clear huses hsends) (hop c u)
    | connect | release | canCreateConversation | newDate | publish | notify | handleUpgrade | register
    | unregister | socketsOf | isOpen | send =>
      refine hcongr ?_ ?_ ?_ hw <;> rfl
  cases op with
  | deleteConversation c u =>
    rw [Op.program, Proc.bind_eq_bind, Proc.pure_eq_ret, Adapter.run_map]
    change I ((portAdapter uuid).run i (deleteConversation c u) w).2
    rcases deleteConversation_world c u w with hworld | ⟨db, hexec, hworld⟩
    · rw [hworld]
      exact h
    · rw [hworld]
      refine hchange h (execute_change hexec) ?_
      rintro d c u ⟨⟩
      rfl
  | createConversation | getConversation | listConversations | sendMessage | listMessages
    | deleteMessage | markRead =>
    rw [portAdapter, ← Adapter.run_implement]
    exact Adapter.run_only _ (J := fun s t => I s → I t) (fun _ h => h) (fun h h' hs => h' (h hs))
      (hother fun _ _ hop => by cases hop) (program_only _) w h

end Resolved

end Postgres

end Jiffy
