-- SUMMARY: What each call on the Postgres stores has done before it makes a request, as its own history tells.
import Jiffy.Lib.Journal
import Jiffy.Postgres.Integrity
import Jiffy.Postgres.SafeCalls

/-!
# Requests and what came before them

A transaction goes through its statements in one order. A message is inserted
after its conversation was read and the gate allowed what was read, and only
messages that a statement returned are published and notified.
-/

namespace Jiffy

open Js Async MessagingService

namespace Postgres

-- ---------------------------------------------------------------------------
-- Histories
-- ---------------------------------------------------------------------------

/-- The gate's `true` for a user and a list of participants. -/
def gateYes (u : String) (ids : List String) : server.Event Failure :=
  ⟨.canCreateConversation u ids, .ok true⟩

/-- Connection `n` was taken out of the pool. -/
def taken (n : Nat) : server.Event Failure := ⟨.connect, .ok n⟩

/-- A statement ran. -/
def ran (s : Statement) (rows : s.Rows) : server.Event Failure := ⟨.query s, .ok rows⟩

/-- The history of a call that has begun a transaction. -/
def opening (u : String) (ids : List String) (n : Nat) : List (server.Event Failure) :=
  [gateYes u ids, taken n, ran (.begin n) ()]

/-- And inserted conversation `k` in it. -/
def inserting (u : String) (ids : List String) (n : Nat) (k : String) (t : Int) :
    List (server.Event Failure) :=
  opening u ids n ++ [ran (.insertConversation n) [(k, t)]]

/-- And all of its participants. -/
def filling (u : String) (ids : List String) (n : Nat) (k : String) (t : Int) :
    List (server.Event Failure) :=
  if ids = [] then inserting u ids n k t
  else inserting u ids n k t ++ [ran (.insertParticipants n k ids) ()]

/-- The call has read the conversation. -/
def ReadIn (h : List (server.Event Failure)) (conversation : Conversation) : Prop :=
  ∃ c rows, ran (.selectConversation c) rows ∈ h ∧
    (rowsToConversations rows).head? = some conversation

/-- The rows of messages that a request returned. -/
def messageRows : server.Event Failure → List MessageRow
  | ⟨.query (.insertMessage _ _ _), .ok rows⟩ => rows
  | ⟨.query (.selectMessage _), .ok rows⟩ => rows
  | ⟨.query (.updateDeleted _ _), .ok rows⟩ => rows
  | _ => []

/-- Some request of the call returned the message. -/
def ReturnedIn (h : List (server.Event Failure)) (m : Message) : Prop :=
  ∃ e ∈ h, ∃ row ∈ messageRows e, m = rowToMessage row

/-- What a call of `op` has done when it makes a request. -/
def Before (op : Op) (h : List (server.Event Failure)) (_ : World) : ServerCall → Prop
  | .connect => ∃ u ids, op = .createConversation u ids ∧ h = [gateYes u ids]
  | .query (.begin n) => ∃ u ids, op = .createConversation u ids ∧ h = [gateYes u ids, taken n]
  | .query (.insertConversation n) => ∃ u ids, op = .createConversation u ids ∧ h = opening u ids n
  | .query (.insertParticipants n k ids) =>
    ∃ u t, op = .createConversation u ids ∧ h = inserting u ids n k t
  | .query (.commit n) =>
    ∃ u ids k t, op = .createConversation u ids ∧ h = filling u ids n k t
  | .release n | .query (.rollback n) => taken n ∈ h
  | .query (.insertMessage c u _) => ∃ input conversation, op = .sendMessage input ∧
    input.senderId = u ∧ ReadIn h conversation ∧ conversation.id = c ∧ gateYes u conversation.userIds ∈ h
  | .publish m | .notify m _ => ReturnedIn h m
  | _ => True

theorem ReadIn.mono {h h' : List (server.Event Failure)} {conversation : Conversation}
    (hr : ReadIn h conversation) (hh : h ⊆ h') : ReadIn h' conversation := by
  obtain ⟨c, rows, hmem, hhead⟩ := hr
  exact ⟨c, rows, hh hmem, hhead⟩

theorem ReturnedIn.mono {h h' : List (server.Event Failure)} {m : Message} (hm : ReturnedIn h m)
    (hh : h ⊆ h') : ReturnedIn h' m := by
  obtain ⟨e, he, row, hrow, hsame⟩ := hm
  exact ⟨e, hh he, row, hrow, hsame⟩

theorem ReturnedIn.last {h : List (server.Event Failure)} {e : server.Event Failure} {row : MessageRow}
    (hrow : row ∈ messageRows e) : ReturnedIn (h ++ [e]) (rowToMessage row) :=
  ⟨e, List.mem_append_right _ List.mem_cons_self, row, hrow, rfl⟩

-- ---------------------------------------------------------------------------
-- Programs
-- ---------------------------------------------------------------------------

variable {uuid : String → Option String} {i : Input} {w : World} {op : Op}
  {h : List (server.Event Failure)} {α β : Type}

/-- What a call works under. Other calls may do anything that keeps the tables
in order. -/
abbrev bookkeeping (uuid : String → Option String) (op : Op) : Conditions server Failure World :=
  ⟨fun w => Integrity uuid w.database, fun _ _ => True, Before op⟩

abbrev Books (uuid : String → Option String) (op : Op) (p : StoreMethod α)
    (Q : Postcondition server Failure α World Input) (i : Input) (h : List (server.Event Failure))
    (w : World) : Prop :=
  p.Safe (adapter uuid) (bookkeeping uuid op) Q i h w

theorem books_query {s : Statement} {Q : Postcondition server Failure s.Rows World Input}
    (hpre : ∀ t, Before op h t (.query s))
    (hQ : ∀ {x j t j' t'}, (perform uuid j (.query s) t).1 = x → admissible uuid j' t' = true →
      Q j' x (h ++ [⟨.query s, x⟩]) t') : Books uuid op (query s) Q i h w :=
  query_safe hpre fun _ _ _ _ ha => hQ rfl ha

/-- A port call that is one statement. -/
theorem books_fetch {call : PortCall} {s : Statement} {g : s.Rows → call.Resp}
    (himpl : implementation call = (query s).bind fun rows => .ret (g rows))
    {k : Except Failure call.Resp → Service β} {Q : Postcondition server Failure β World Input}
    (hpre : ∀ t, Before op h t (.query s))
    (hk : ∀ {x j' t'}, admissible uuid j' t' = true →
      Books uuid op ((k (x.map g)).implement implementation) Q j' (h ++ [⟨.query s, x⟩]) t') :
    Books uuid op ((Proc.await call k : Service β).implement implementation) Q i h w :=
  fetch_safe himpl hpre fun _ _ _ _ ha => hk ha

/-- The gate's answer. -/
theorem books_gate {u : String} {ids : List String} {k : Except Failure Bool → Service β}
    {Q : Postcondition server Failure β World Input}
    (hk : ∀ {x j t'}, admissible uuid j t' = true → Books uuid op ((k x).implement implementation) Q j
      (h ++ [⟨.canCreateConversation u ids, x⟩]) t') :
    Books uuid op ((Proc.await (.canCreateConversation u ids) k : Service β).implement implementation)
      Q i h w :=
  gate_safe trivial fun _ _ ha => hk ha

-- ---------------------------------------------------------------------------
-- Creating a conversation
-- ---------------------------------------------------------------------------

theorem perform_insertConversation {n : Nat} {rows : List (String × Int)}
    (hx : (perform uuid i (.query (.insertConversation n)) w).1 = .ok rows) : ∃ k t, rows = [(k, t)] := by
  obtain ⟨-, db, hexec, -⟩ := perform_query (Prod.ext hx rfl)
  simp only [execute, insertConversation] at hexec
  split at hexec
  · cases hexec
  · cases hexec
    exact ⟨_, _, rfl⟩

section Create

open PostgresConversationStore

/-- Between `connect` and `release` the call holds on to its connection. -/
def Holding (uuid : String → Option String) (n : Nat) : Postcondition server Failure α World Input :=
  fun i _ h w => taken n ∈ h ∧ admissible uuid i w = true

theorem taken_mem {u : String} {ids : List String} {n : Nat} {h : List (server.Event Failure)} :
    taken n ∈ gateYes u ids :: taken n :: h := List.mem_cons_of_mem _ List.mem_cons_self

theorem books_commit {u : String} {ids : List String} {n : Nat} {k : String} {createdAt : Int}
    {conversation : Conversation} (hh : h = filling u ids n k createdAt) (htaken : taken n ∈ h) :
    Books uuid (.createConversation u ids) ((query (.commit n)).bind fun _ => .ret conversation)
      (Holding uuid n) i h w := by
  refine Proc.Safe.bind (books_query (fun t => ⟨u, ids, k, createdAt, rfl, hh⟩)
    fun {x j t j' t'} _ ha => ?_)
  cases x <;> exact ⟨List.mem_append_left _ htaken, ha⟩

theorem books_insertAll (u : String) (ids : List String) (n : Nat) :
    Books uuid (.createConversation u ids) (insertAll n ids) (Holding uuid n) i
      [gateYes u ids, taken n] w := by
  unfold insertAll
  simp only [Proc.bind_eq_bind, Proc.pure_eq_ret]
  refine Proc.Safe.bind (books_query (fun t => ⟨u, ids, rfl, rfl⟩) fun {x j t j' t'} _ ha => ?_)
  cases x with
  | error e => exact ⟨taken_mem, ha⟩
  | ok begun =>
    refine Proc.Safe.bind (books_query (fun t => ⟨u, ids, rfl, rfl⟩) fun {x j t j' t'} hx ha => ?_)
    cases x with
    | error e => exact ⟨taken_mem, ha⟩
    | ok rows =>
      obtain ⟨k, createdAt, rfl⟩ := perform_insertConversation hx
      simp only [firstRow, Proc.pure_eq_ret, Proc.ret_bind]
      unfold PostgresConversationStore.insertParticipants
      cases ids with
      | nil => exact books_commit rfl taken_mem
      | cons v vs =>
        rw [if_pos (by simp)]
        refine Proc.Safe.bind (books_query (fun t => ⟨u, createdAt, rfl, rfl⟩)
          fun {x j t j' t'} _ ha => ?_)
        cases x with
        | error e => exact ⟨taken_mem, ha⟩
        | ok filled => exact books_commit rfl taken_mem

theorem books_create (u : String) (ids : List String) :
    Books uuid (.createConversation u ids) (create ids) (fun _ _ _ _ => True) i [gateYes u ids] w := by
  refine Proc.Safe.bind fun t j _ _ _ => ⟨⟨u, ids, rfl, rfl⟩, fun t' j' _ _ ha => ?_⟩
  rw [adapter_perform]
  cases hconnect : (perform uuid j .connect t).1 with
  | error e => trivial
  | ok n =>
    have hrelease : ∀ {x : Except Failure Conversation} {j h t}, Holding uuid n j x h t →
        Books uuid (.createConversation u ids) ((syncCall (.release n)).bind fun _ => Proc.ofExcept x)
          (fun _ _ _ _ => True) j h t := by
      rintro x j h t ⟨htaken, ha⟩
      refine ⟨htaken, ha, ?_⟩
      cases x <;> trivial
    refine Proc.Safe.bind (Proc.Safe.settle (Proc.Safe.catching ?_))
    refine (books_insertAll u ids n).mono fun i x h w hx => ?_
    cases x with
    | ok conversation => exact hrelease hx
    | error e =>
      refine Proc.Safe.bind (books_query (fun t => hx.1) fun {x j t j' t'} _ ha => ?_)
      have hheld := List.mem_append_left [⟨.query (.rollback n), x⟩] hx.1
      cases x with
      | ok done => exact hrelease (x := .error e) ⟨hheld, ha⟩
      | error e' => exact hrelease (x := .error e') ⟨hheld, ha⟩

theorem books_createConversation (u : String) (ids : List String) :
    Books uuid (.createConversation u ids)
      ((Op.program (.createConversation u ids)).implement implementation) (fun _ _ _ _ => True) i [] w := by
  simp only [Op.program, createConversation, Proc.request, Proc.bind_eq_bind, Proc.await_bind]
  refine books_gate fun {x j t} ha => ?_
  cases x with
  | error e => trivial
  | ok allowed =>
    cases allowed with
    | false => trivial
    | true =>
      refine Proc.Safe.implement ((books_create u ids).mono fun i x h w _ => ?_)
      cases x <;> trivial

end Create

-- ---------------------------------------------------------------------------
-- Messages
-- ---------------------------------------------------------------------------

/-- The participant check leaves the conversation in the history. -/
theorem books_check {c u : String} {f : Conversation → Service β}
    (hok : ∀ {conversation j t h'}, admissible uuid j t = true → ReadIn h' conversation →
      Books uuid op ((f conversation).implement implementation) (fun _ _ _ _ => True) j h' t) :
    Books uuid op (((awaitParticipant c u).bind f).implement implementation) (fun _ _ _ _ => True) i h w :=
  check_safe (fun _ => trivial) (fun _ => trivial) fun _ _ hhead _ _ ha =>
    hok ha ⟨c, _, List.mem_append_right _ List.mem_cons_self, hhead⟩

theorem books_sendMessage (input : SendMessageInput) :
    Books uuid (.sendMessage input) ((Op.program (.sendMessage input)).implement implementation)
      (fun _ _ _ _ => True) i h w := by
  simp only [Op.program, sendMessage, Proc.bind_eq_bind]
  split
  · trivial
  rw [Proc.bind_assoc]
  refine books_check fun {conversation j t h'} ha hread => ?_
  simp only [Proc.request, Proc.await_bind]
  refine books_gate fun {x j t} ha => ?_
  cases x with
  | error e => trivial
  | ok allowed =>
    cases allowed with
    | false => trivial
    | true =>
      simp only [Proc.ofExcept_ok, Proc.ret_bind, if_true, Proc.await_bind]
      refine Proc.Safe.implement (Proc.Safe.bind (books_query (fun t => ?_) fun {x j t j' t'} hx ha => ?_))
      · refine ⟨_, conversation, rfl, rfl, hread.mono (List.subset_append_left _ _), rfl, ?_⟩
        exact List.mem_append_right _ List.mem_cons_self
      cases x with
      | error e => trivial
      | ok rows =>
        cases rows with
        | nil => trivial
        | cons row rows =>
          have hreturned : ReturnedIn (h' ++ [⟨.canCreateConversation input.senderId conversation.userIds, .ok true⟩] ++
            [ran (.insertMessage conversation.id input.senderId input.body) (row :: rows)]) (rowToMessage row) :=
            ReturnedIn.last List.mem_cons_self
          refine publish_safe ha hreturned ?_
          exact notify_safe ha (hreturned.mono (List.subset_append_left _ _)) trivial

theorem books_softDelete (id : String) (at_ : Int) :
    Books uuid op (PostgresMessageStore.softDelete id at_)
      (fun i x h w => admissible uuid i w = true ∧ ∀ m, x = .ok m → ReturnedIn h m) i h w := by
  unfold PostgresMessageStore.softDelete
  simp only [Proc.bind_eq_bind]
  refine Proc.Safe.bind (books_query (fun t => trivial) fun {x j t j' t'} _ ha => ?_)
  cases x with
  | error e => exact ⟨ha, fun m hm => by cases hm⟩
  | ok updated =>
    cases updated with
    | cons row rows =>
      refine ⟨ha, fun m hm => ?_⟩
      cases hm
      exact ReturnedIn.last List.mem_cons_self
    | nil =>
      refine Proc.Safe.bind (books_query (fun t => trivial) fun {x j t j' t'} _ ha => ?_)
      cases x with
      | error e => exact ⟨ha, fun m hm => by cases hm⟩
      | ok existing =>
        cases existing with
        | nil => exact ⟨ha, fun m hm => by cases hm⟩
        | cons row rows =>
          refine ⟨ha, fun m hm => ?_⟩
          cases hm
          exact ReturnedIn.last List.mem_cons_self

theorem books_deleteMessage (c messageId u : String) :
    Books uuid (.deleteMessage c messageId u)
      ((Op.program (.deleteMessage c messageId u)).implement implementation) (fun _ _ _ _ => True) i h w := by
  simp only [Op.program, deleteMessage, Proc.bind_eq_bind, Proc.bind_assoc]
  refine books_check fun {conversation j t h'} ha hread => ?_
  simp only [Proc.request, Proc.await_bind]
  refine books_fetch (s := .selectMessage messageId) (g := fun rows => rows.head?.map rowToMessage)
    rfl (fun _ => trivial) fun {x j t} ha => ?_
  cases x with
  | error e => trivial
  | ok rows =>
    simp only [Except.map, Proc.ofExcept_ok, Proc.ret_bind]
    cases rows.head?.map rowToMessage with
    | none => trivial
    | some message =>
      simp only
      split
      · trivial
      split
      · trivial
      split
      · trivial
      refine Proc.Safe.bind (Proc.Safe.settle ⟨trivial, ha, ?_⟩)
      refine Proc.Safe.implement ((books_softDelete messageId _).mono fun j x h t hx => ?_)
      cases x with
      | error e => trivial
      | ok deleted => exact publish_safe hx.1 (hx.2 deleted rfl) trivial

-- ---------------------------------------------------------------------------
-- All programs
-- ---------------------------------------------------------------------------

/-- Every request of a program stands after what has to come before it. -/
theorem books_program (op : Op) (ha : admissible uuid i w = true) :
    Books uuid op (op.program.implement implementation) (fun _ _ _ _ => True) i [] w := by
  have hfree : (∀ call s, op.Uses call → Sends call s → ∀ h t, Before op h t s) →
      Books uuid op (op.program.implement implementation) (fun _ _ _ _ => True) i [] w :=
    fun hpre => program_safe op hpre ha
  cases op with
  | createConversation u ids => exact books_createConversation u ids
  | sendMessage input => exact books_sendMessage input
  | deleteMessage c messageId u => exact books_deleteMessage c messageId u
  | getConversation c u =>
    refine hfree ?_
    rintro call s (rfl | ⟨_, rfl⟩) hs <;> cases hs
    exact fun _ _ => trivial
  | listConversations u =>
    refine hfree ?_
    rintro call s (rfl | ⟨_, rfl⟩) hs
    · cases hs
      exact fun _ _ => trivial
    · obtain ⟨_, rfl⟩ := hs
      exact fun _ _ => trivial
  | listMessages c u options =>
    refine hfree ?_
    rintro call s ((rfl | ⟨_, rfl⟩) | ⟨_, rfl⟩) hs
    · cases hs
      exact fun _ _ => trivial
    · cases hs
    · obtain ⟨_, rfl⟩ := hs
      exact fun _ _ => trivial
  | deleteConversation c u =>
    refine hfree ?_
    rintro call s ((rfl | ⟨_, rfl⟩) | rfl | ⟨_, rfl⟩) hs <;> cases hs <;> exact fun _ _ => trivial
  | markRead c u at_ =>
    refine hfree ?_
    rintro call s ((rfl | ⟨_, rfl⟩) | rfl) hs <;> cases hs <;> exact fun _ _ => trivial

/-- The contract of the service on the Postgres stores, as histories tell it. -/
def books (uuid : String → Option String) : Contract (system uuid) where
  Inv w := Integrity uuid w.database
  Rely _ _ := True
  Pre := Before
  refl _ := trivial
  trans _ _ := trivial
  tick h ha := ⟨h, trivial, admissible_tick ha⟩
  arrive h ha harr := by
    cases harr
    exact ⟨h, trivial, ha⟩
  perform {op h i s r} hI ha _ := ⟨hI.perform (admissible_canonical ha) r, trivial⟩
  program op _ _ _ ha := books_program op ha

end Postgres

end Jiffy
