-- SUMMARY: What the process with live connections publishes and sends, and where the messages come from.
import Jiffy.Postgres.Tombstones
import Jiffy.WebSocket.Delivery

/-!
# Pushing

A call publishes the message it inserted, or a tombstone that is in the table.
A delivery sends the message that it was started for.
-/

namespace Jiffy

open Js Async MessagingService

namespace Postgres

/-- The service with live connections, its calls and deliveries in flight. -/
abbrev LiveState : Type := Config server Failure Reply World Task

/-- The table has a row for the message. -/
def HasMessage (x : String) (w : World) : Prop := ∃ r ∈ w.database.messages, r.id = x

/-- The call has inserted the message. -/
def InsertedIn (h : List (server.Event Failure)) (x : String) : Prop :=
  ∃ c u body rows, ran (.insertMessage c u body) rows ∈ h ∧ ∃ row ∈ rows, row.id = x

theorem InsertedIn.append {h h' : List (server.Event Failure)} {x : String} :
    InsertedIn (h ++ h') x ↔ InsertedIn h x ∨ InsertedIn h' x := by
  constructor
  · rintro ⟨c, u, body, rows, hmem, hrow⟩
    rcases List.mem_append.mp hmem with hmem | hmem
    · exact .inl ⟨c, u, body, rows, hmem, hrow⟩
    · exact .inr ⟨c, u, body, rows, hmem, hrow⟩
  · rintro (⟨c, u, body, rows, hmem, hrow⟩ | ⟨c, u, body, rows, hmem, hrow⟩)
    · exact ⟨c, u, body, rows, List.mem_append_left _ hmem, hrow⟩
    · exact ⟨c, u, body, rows, List.mem_append_right _ hmem, hrow⟩

/-- What has happened when a task makes a request. -/
def BeforePush (task : Task) (h : List (server.Event Failure)) (w : World) : ServerCall → Prop
  | .publish m => (m.deletedAt = none → InsertedIn h m.id) ∧ HasMessage m.id w
  | .send _ m => ∃ n, task = .deliver n m
  | _ => True

/-- The messages are in order, and what was published is in the table. -/
structure Pushes (w : World) : Prop where
  orderly : Orderly w
  published : ∀ m ∈ w.published, HasMessage m.id w

theorem pushes_init (clock : Int) : Pushes (World.init clock) :=
  ⟨orderly_init clock, fun m hm => by cases hm⟩

variable {uuid : String → Option String} {i : Input} {w w' : World} {task : Task}
  {h : List (server.Event Failure)} {x : String}

theorem HasMessage.buries (hx : HasMessage x w) (hw : Buries w w') : HasMessage x w' := hw.stored hx

theorem perform_pushes {r : ServerCall} (hw : Pushes w) (hpre : BeforePush task h w r) :
    Pushes (perform uuid i r w).2 ∧ Buries w (perform uuid i r w).2 := by
  obtain ⟨horderly, hburies⟩ := @perform_buries uuid i w r hw.orderly
  refine ⟨⟨horderly, fun m hm => ?_⟩, hburies⟩
  cases r with
  | publish message =>
    rcases List.mem_append.mp hm with hm | hm
    · exact hw.published m hm
    · obtain rfl := List.mem_singleton.mp hm
      exact hpre.2
  | query s =>
    refine (hw.published m ?_).buries hburies
    rwa [perform_query_outside uuid i w (f := World.published) (fun _ _ => rfl) s] at hm
  | connect | release | canCreateConversation | newDate | notify | handleUpgrade | register | unregister
    | socketsOf | isOpen | send => exact hw.published m hm

-- ---------------------------------------------------------------------------
-- Calls of the service
-- ---------------------------------------------------------------------------

/-- What a task works under. -/
abbrev underPushes (task : Task) : Conditions server Failure World := ⟨Pushes, Buries, BeforePush task⟩

/-- A send publishes the row that its INSERT returned. -/
theorem pushing_sendMessage (input : SendMessageInput) :
    ((Op.program (.sendMessage input)).implement implementation).Safe (adapter uuid) (underPushes task)
      (fun _ _ _ _ => True) i h w := by
  simp only [Op.program, sendMessage, Proc.bind_eq_bind]
  split
  · trivial
  rw [Proc.bind_assoc]
  refine check_safe (fun _ => trivial) (fun _ => trivial)
    fun {j t rows conversation j' t'} _ _ _ _ _ ha => ?_
  simp only [Proc.request, Proc.await_bind]
  refine gate_safe trivial fun {x j t} _ _ ha => ?_
  cases x with
  | error e => trivial
  | ok allowed =>
    cases allowed with
    | false => trivial
    | true =>
      simp only [Proc.ofExcept_ok, Proc.ret_bind, if_true, Proc.await_bind]
      refine Proc.Safe.implement (Proc.Safe.bind (query_safe (fun t => trivial)
        fun {j t j' t'} _ _ hR _ ha => ?_))
      rcases perform_query_cases uuid j t (.insertMessage conversation.id input.senderId input.body) with
        ⟨e, heq⟩ | ⟨rows, db, hexec, heq⟩
      · rw [heq]
        trivial
      rw [heq] at hR ⊢
      obtain ⟨_, m, -, -, rfl, rfl⟩ := execute_insertMessage hexec
      have hthere : HasMessage m.id
          { t with database := { t.database with messages := t.database.messages ++ [m] } } :=
        ⟨m, List.mem_append_right _ List.mem_cons_self, rfl⟩
      refine publish_safe ha ⟨fun _ => ?_, hthere.buries hR⟩ (notify_safe ha trivial trivial)
      exact ⟨_, _, _, _, List.mem_append_right _ List.mem_cons_self, m.row, List.mem_cons_self, rfl⟩

/-- A deletion publishes a tombstone. -/
theorem pushing_deleteMessage (c messageId u : String) :
    ((Op.program (.deleteMessage c messageId u)).implement implementation).Safe (adapter uuid)
      (underPushes task) (fun _ _ _ _ => True) i h w := by
  simp only [Op.program, deleteMessage, Proc.bind_eq_bind, Proc.bind_assoc]
  refine check_safe (fun _ => trivial) (fun _ => trivial)
    fun {j t rows conversation j' t'} _ _ _ _ _ _ => ?_
  simp only [Proc.request, Proc.await_bind]
  refine fetch_safe (s := .selectMessage messageId) (g := fun rows => rows.head?.map rowToMessage)
    rfl (fun _ => trivial) fun {j t j' t'} _ _ hR _ ha => ?_
  rcases perform_query_cases uuid j t (.selectMessage messageId) with ⟨e, heq⟩ | ⟨rows, db, hexec, heq⟩
  · rw [heq]
    trivial
  rw [heq] at hR ⊢
  obtain ⟨rfl, k, hk, hrows, -⟩ := execute_selectMessage hexec
  simp only [Except.map, Proc.ofExcept_ok, Proc.ret_bind]
  cases rows with
  | nil => trivial
  | cons row rows =>
    obtain ⟨r, hr, hid, rfl⟩ := hrows row List.mem_cons_self
    simp only [List.head?_cons, Option.map_some]
    split
    · trivial
    split
    · trivial
    split
    · trivial
    refine Proc.Safe.bind (Proc.Safe.settle ⟨trivial, ha, ?_⟩)
    have hstored : HasMessage k t' := HasMessage.buries ⟨r, hr, hid⟩ hR
    refine Proc.Safe.implement ((safe_softDelete Pushes.orderly id (fun _ _ _ => trivial) hk hstored _).mono
      fun j x h t hx => ?_)
    cases x with
    | error e => trivial
    | ok deleted =>
      obtain ⟨r, hr, -, hdeleted, rfl⟩ := hx.2.1 deleted rfl
      refine publish_safe hx.1 ⟨fun hlive => absurd hlive ?_, r, hr, rfl⟩ trivial
      simpa [rowToMessage, MessageRecord.row] using hdeleted

theorem pushing_service (op : Op) (ha : admissible uuid i w = true) :
    (op.program.implement implementation).Safe (adapter uuid) (underPushes task)
      (fun _ _ _ _ => True) i [] w := by
  have hfree : (∀ input, op ≠ .sendMessage input) → (∀ c messageId u, op ≠ .deleteMessage c messageId u) →
      (op.program.implement implementation).Safe (adapter uuid) (underPushes task)
        (fun _ _ _ _ => True) i [] w := by
    intro hsend hdelete
    refine program_safe op (fun call s huses hsends h t => ?_) ha
    cases s with
    | publish m =>
      rcases uses_publish huses hsends with ⟨input, rfl⟩ | ⟨c, messageId, u, rfl⟩
      · exact absurd rfl (hsend input)
      · exact absurd rfl (hdelete c messageId u)
    | send => cases call <;> simp [Sends] at hsends
    | _ => trivial
  cases op with
  | sendMessage input => exact pushing_sendMessage input
  | deleteMessage c messageId u => exact pushing_deleteMessage c messageId u
  | _ => exact hfree (fun _ h => by cases h) fun _ _ _ h => by cases h

-- ---------------------------------------------------------------------------
-- Connections
-- ---------------------------------------------------------------------------

/-- What the WebSocket layer does without awaiting it. -/
def OnConnections : ServerCall → Prop
  | .handleUpgrade | .register _ _ | .unregister _ _ | .socketsOf _ | .isOpen _ | .send _ _ => True
  | _ => False

theorem perform_onConnections {r : ServerCall} (hr : OnConnections r) (ha : admissible uuid i w = true) :
    admissible uuid i (perform uuid i r w).2 = true := by
  cases r with
  | handleUpgrade | register | unregister | socketsOf | isOpen | send => exact ha
  | _ => cases hr

/-- What a task of the WebSocket layer may ask for: a delivery sends its own
message, and nothing publishes. -/
def Connects (task : Task) : ServerCall → Prop
  | .query (.selectConversation _) => True
  | .send _ m => ∃ n, task = .deliver n m
  | r => OnConnections r

theorem Connects.beforePush {r : ServerCall} (hr : Connects task r) (h : List (server.Event Failure))
    (w : World) : BeforePush task h w r := by
  cases r with
  | send => exact hr
  | publish => cases hr
  | _ => trivial

theorem connects_safe {p : StoreMethod Reply} (hp : p.Only (Connects task)) (hnow : p.OnSpot OnConnections)
    (ha : admissible uuid i w = true) :
    p.Safe (adapter uuid) (underPushes task) (fun _ _ _ _ => True) i h w :=
  Proc.Safe.of_only (fun h w hr => hr.beforePush h w) perform_onConnections hp hnow ha

/-- The lookup of a delivery. -/
theorem findById_onSpot (c : String) : (PostgresConversationStore.findById c).OnSpot OnConnections :=
  Proc.OnSpot.bind (Proc.OnSpot.request (P := server) (.query (.selectConversation c))) fun _ => trivial

theorem pushing_task (task : Task) (ha : admissible uuid i w = true) :
    ((realtime uuid).program task).Safe (adapter uuid) (underPushes task) (fun _ _ _ _ => True) i [] w := by
  have hcall : ∀ {r : ServerCall}, Connects task r → (syncCall r).Only (Connects task) :=
    fun hr => Proc.Only.perform (P := server) hr
  have hspot : ∀ {r : ServerCall}, OnConnections r → (syncCall r).OnSpot OnConnections :=
    fun hr => Proc.OnSpot.perform (P := server) hr
  cases task with
  | service op => exact pushing_service op ha
  | deliver n m =>
    refine connects_safe (Proc.Only.bind ?_ fun _ => trivial) (Proc.OnSpot.bind ?_ fun _ => trivial) ha
    · refine LiveConnections.deliverToParticipants_only ?_ (fun _ => hcall trivial)
        (fun _ => hcall trivial) fun _ => hcall ⟨n, rfl⟩
      exact Proc.Only.bind (query_only trivial) fun _ => trivial
    · exact LiveConnections.deliverToParticipants_onSpot (findById_onSpot _) (fun _ => hspot trivial)
        (fun _ => hspot trivial) fun _ => hspot trivial
  | upgraded u =>
    refine connects_safe (Proc.Only.bind (hcall trivial) fun socket => ?_)
      (Proc.OnSpot.bind (hspot trivial) fun socket => ?_) ha
    · exact Proc.Only.bind (hcall trivial) fun _ => trivial
    · exact Proc.OnSpot.bind (hspot trivial) fun _ => trivial
  | closing socket => trivial
  | closed u socket =>
    refine connects_safe (Proc.Only.bind (hcall trivial) fun _ => trivial)
      (Proc.OnSpot.bind (hspot trivial) fun _ => trivial) ha

/-- The bus hands over the next message that is published, or a later one. -/
theorem arrive_deliver {n : Nat} {m : Message} {s t : World} (h : arrive (.deliver n m) s = some t) :
    s.handed ≤ n ∧ s.published[n]? = some m ∧ t = { s with handed := n + 1 } := by
  simp only [arrive] at h
  split at h
  · next hguard =>
    cases h
    exact ⟨hguard.1, hguard.2, rfl⟩
  · cases h

/-- What an arrival leaves as it is. -/
structure Arrives (s t : World) : Prop where
  database : t.database = s.database
  published : t.published = s.published
  frames : t.sockets.frames = s.sockets.frames
  clock : t.clock = s.clock
  handed : s.handed ≤ t.handed

theorem arrive_arrives {s t : World} (h : arrive task s = some t) : Arrives s t := by
  cases task with
  | service | upgraded | closing =>
    cases h
    exact ⟨rfl, rfl, rfl, rfl, le_refl _⟩
  | deliver n m =>
    obtain ⟨hn, -, rfl⟩ := arrive_deliver h
    exact ⟨rfl, rfl, rfl, rfl, le_trans hn (Nat.le_succ n)⟩
  | closed u socket =>
    simp only [arrive] at h
    split at h
    · cases h
      exact ⟨rfl, rfl, rfl, rfl, le_refl _⟩
    · cases h

/-- What all tasks keep of the messages, stored and published. -/
def pushing (uuid : String → Option String) : Contract (realtime uuid) where
  Inv := Pushes
  Rely := Buries
  Pre := BeforePush
  refl := Buries.refl
  trans := Buries.trans
  tick h ha := ⟨⟨⟨h.orderly.ids, h.orderly.emptied⟩, h.published⟩, .refl _, admissible_tick ha⟩
  arrive {task i s t} h ha harr := by
    obtain ⟨hdatabase, hpublished, -, hclock, -⟩ := arrive_arrives harr
    have hburies : Buries s t := fun r hr => ⟨r, hdatabase ▸ hr, .inl rfl⟩
    refine ⟨⟨⟨hdatabase ▸ h.orderly.ids, hdatabase ▸ h.orderly.emptied⟩, fun m hm => ?_⟩, hburies, ?_⟩
    · exact (h.published m (hpublished ▸ hm)).buries hburies
    · change admissible uuid i t = true
      unfold admissible
      rw [hdatabase, hclock]
      exact ha
  perform h _ hpre := perform_pushes h hpre
  program task _ _ _ ha := pushing_task task ha

end Postgres

end Jiffy
