-- SUMMARY: Connections of the pool: every call gives back the one it took, whatever fails, and never waits for another one meanwhile.
import Jiffy.Lib.RuleChronicle
import Jiffy.Postgres.AllOrNothing
import Jiffy.Postgres.Ledger
import Jiffy.Postgres.Pushing

/-!
# Connections

`create` takes a connection out of the pool for its transaction. Every other
statement is a `pool.query`, for which the pool uses some connection while it
runs. A call that asked the pool for a connection while it holds one could wait
for a call that does the same.
-/

namespace Jiffy

open Js Async MessagingService

namespace Postgres

variable {uuid : String → Option String} {h : List (server.Event Failure)} {n : Nat} {α : Type}

/-- The connection that a statement is sent on, where its call chooses it. -/
def clientOf : Statement → Option Nat
  | .begin client | .commit client | .rollback client | .insertConversation client
  | .insertParticipants client _ _ => some client
  | .selectConversation _ | .selectConversationsOf _ | .updateLastReadAt _ _ _ | .updateClearedAt _ _ _
  | .insertMessage _ _ _ | .selectMessage _ | .updateDeleted _ _ | .selectHistory _ => none

/-- The call has taken connection `n` and not given it back. -/
def HasOut (n : Nat) (h : List (server.Event Failure)) : Prop :=
  taken n ∈ h ∧ ∀ x, (⟨.release n, x⟩ : server.Event Failure) ∉ h

/-- The call has just committed on the connection, or tried to roll back. -/
def Concluded (n : Nat) (h : List (server.Event Failure)) : Prop :=
  ∃ h' e, h = h' ++ [e] ∧ (e = ran (.commit n) () ∨ ∃ x, e = ⟨.query (.rollback n), x⟩)

/-- A statement goes out on the connection that the call holds, or on any if it
holds none. -/
def MaySend : Option Nat → List (server.Event Failure) → Prop
  | some n, h => HasOut n h
  | none, h => ∀ n, ¬ HasOut n h

/-- What a call may ask for: one connection at most, statements of a transaction
on that one alone, and neither the pool nor the gate while it holds it. The
connection goes back when the transaction is over. -/
def allowsConnection (h : List (server.Event Failure)) : ServerCall → Prop
  | .connect => ∀ n, taken n ∉ h
  | .release n => HasOut n h ∧ Concluded n h
  | .query s => MaySend (clientOf s) h
  | .canCreateConversation _ _ => ∀ n, ¬ HasOut n h
  | _ => True

def connectionRules : Rules server Failure where
  allows := allowsConnection
  waiting _ := True
  answers _ _ := True
  becomes _ a b := b = a

/-- Connection `n` is all that the call holds. -/
def HoldsOnly (n : Nat) (h : List (server.Event Failure)) : Prop := ∀ m, HasOut m h ↔ m = n

/-- Nothing is held. -/
abbrev Returned : Async.Ending server Failure α := fun _ h => ∀ n, ¬ HasOut n h

theorem hasOut_append {e : server.Event Failure} (hrelease : ∀ x, e ≠ ⟨.release n, x⟩) (htaken : e ≠ taken n) :
    HasOut n (h ++ [e]) ↔ HasOut n h := by
  unfold HasOut
  simp only [List.mem_append, List.mem_singleton, htaken.symm, or_false, not_or]
  exact and_congr_right fun _ => forall_congr' fun x => and_iff_left fun heq => hrelease x heq.symm

theorem hasOut_query {s : Statement} {x : Except Failure s.Rows} :
    HasOut n (h ++ [⟨.query s, x⟩]) ↔ HasOut n h :=
  hasOut_append (fun y heq => by cases heq) fun heq => by cases heq

theorem hasOut_release {m : Nat} {x : Except Failure Unit} :
    HasOut n (h ++ [⟨.release m, x⟩]) ↔ HasOut n h ∧ n ≠ m := by
  constructor
  · intro hout
    refine ⟨⟨?_, fun y hmem => hout.2 y (List.mem_append_left _ hmem)⟩, fun heq => ?_⟩
    · rcases List.mem_append.mp hout.1 with hmem | hmem
      · exact hmem
      · cases List.mem_singleton.mp hmem
    · subst heq
      exact hout.2 x (List.mem_append_right _ List.mem_cons_self)
  · rintro ⟨hout, hne⟩
    exact (hasOut_append (fun y heq => hne (by cases heq; rfl)) fun heq => by cases heq).mpr hout

theorem hasOut_taken {m : Nat} (hback : ∀ x, (⟨.release m, x⟩ : server.Event Failure) ∉ h) :
    HasOut n (h ++ [taken m]) ↔ HasOut n h ∨ n = m := by
  by_cases hn : n = m
  · subst hn
    refine iff_of_true ⟨List.mem_append_right _ List.mem_cons_self, fun x hmem => ?_⟩ (.inr rfl)
    rcases List.mem_append.mp hmem with hmem | hmem
    · exact hback x hmem
    · cases List.mem_singleton.mp hmem
  · rw [or_iff_left hn]
    exact hasOut_append (fun y heq => by cases heq) fun heq => hn (by cases heq; rfl)

-- ---------------------------------------------------------------------------
-- Calls without a connection of their own
-- ---------------------------------------------------------------------------

/-- Nothing that takes or uses a connection of the call's own. -/
def Pooling : ServerCall → Prop
  | .connect | .release _ => False
  | .query s => clientOf s = none
  | _ => True

theorem pooling_keeps {p : StoreMethod α} (hp : p.Only Pooling) (hh : ∀ n, taken n ∉ h) :
    p.Keeps connectionRules (fun _ h => ∀ n, taken n ∉ h) h := by
  refine Proc.Keeps.of_only (fun {h call} hh hcall => ?_) (fun _ => trivial) hp hh
  have hnone : ∀ n, ¬ HasOut n h := fun n hout => hh n hout.1
  constructor
  · cases call with
    | connect | release => exact absurd hcall id
    | query s =>
      show MaySend (clientOf s) h
      rw [show clientOf s = none from hcall]
      exact hnone
    | canCreateConversation => exact hnone
    | _ => trivial
  · intro x _ n hmem
    rcases List.mem_append.mp hmem with hmem | hmem
    · exact hh n hmem
    · cases List.mem_singleton.mp hmem
      exact hcall

/-- The operations but one, and everything the WebSocket layer does. -/
theorem sends_pooling {call : PortCall} {s : ServerCall} (hcall : ∀ ids, call ≠ .createConversation ids)
    (hs : Sends call s) : Pooling s := by
  cases call with
  | createConversation ids => exact absurd rfl (hcall ids)
  | listByConversation | listPreviews =>
    obtain ⟨query, rfl⟩ := hs
    exact rfl
  | softDelete => rcases hs with rfl | rfl <;> exact rfl
  | settled => exact absurd hs id
  | canCreateConversation | newDate | publish | notify => cases hs; trivial
  | _ => cases hs; exact rfl

-- ---------------------------------------------------------------------------
-- The transaction of `create`
-- ---------------------------------------------------------------------------

theorem HoldsOnly.query {s : Statement} (hout : HoldsOnly n h) (x : Except Failure s.Rows) :
    HoldsOnly n (h ++ [⟨.query s, x⟩]) := fun m => hasOut_query.trans (hout m)

/-- A statement on the connection that the call holds. -/
theorem query_keeps {s : Statement} (hs : clientOf s = some n) (hout : HoldsOnly n h)
    {Q : Async.Ending server Failure s.Rows} (hQ : ∀ x, Q x (h ++ [⟨.query s, x⟩])) :
    (query s).Keeps connectionRules Q h := by
  refine ⟨trivial, Proc.Keeps.request ?_ (fun _ _ => trivial) fun x y _ hy => ?_⟩
  · show MaySend (clientOf s) h
    rw [hs]
    exact (hout n).mpr rfl
  · cases hy with
    | error e => exact hQ (.error e)
    | ok hy => cases hy; exact hQ (.ok _)

/-- `insertAll` throws on the connection, or ends with its COMMIT. -/
def Transacted (n : Nat) (x : Except Failure Conversation) (h : List (server.Event Failure)) : Prop :=
  HoldsOnly n h ∧ (x.isOk = true → Concluded n h)

theorem Transacted.error {e : Failure} (hout : HoldsOnly n h) : Transacted n (.error e) h :=
  ⟨hout, fun hok => (by cases hok)⟩

theorem commit_keeps (conversation : Conversation) (hout : HoldsOnly n h) :
    ((query (.commit n)).bind fun _ => .ret conversation).Keeps connectionRules (Transacted n) h := by
  refine Proc.Keeps.bind (query_keeps rfl hout fun x => ?_)
  cases x with
  | error e => exact .error (hout.query _)
  | ok done => exact ⟨hout.query _, fun _ => ⟨h, _, rfl, .inl rfl⟩⟩

theorem insertAll_keeps (ids : List String) (hout : HoldsOnly n h) :
    (PostgresConversationStore.insertAll n ids).Keeps connectionRules (Transacted n) h := by
  unfold PostgresConversationStore.insertAll
  simp only [Proc.bind_eq_bind, Proc.pure_eq_ret]
  refine Proc.Keeps.bind (query_keeps rfl hout fun begun => ?_)
  replace hout := hout.query begun
  cases begun with
  | error e => exact .error hout
  | ok _ =>
    refine Proc.Keeps.bind (query_keeps rfl hout fun inserted => ?_)
    replace hout := hout.query inserted
    cases inserted with
    | error e => exact .error hout
    | ok rows =>
      cases rows with
      | nil => exact .error hout
      | cons row rows =>
        simp only [firstRow, Proc.pure_eq_ret, Proc.ret_bind]
        unfold PostgresConversationStore.insertParticipants
        split
        · refine Proc.Keeps.bind (query_keeps rfl hout fun filled => ?_)
          replace hout := hout.query filled
          cases filled with
          | error e => exact .error hout
          | ok _ => exact commit_keeps _ hout
        · exact commit_keeps _ hout

theorem release_keeps {Q : Async.Ending server Failure Unit} (hout : HoldsOnly n h) (hover : Concluded n h)
    (hQ : ∀ y h, (∀ m, ¬ HasOut m h) → Q y h) : (syncCall (.release n)).Keeps connectionRules Q h := by
  refine Proc.Keeps.perform (P := server) ⟨(hout n).mpr rfl, hover⟩ fun y _ => hQ y _ fun m hm => ?_
  obtain ⟨hm, hne⟩ := hasOut_release.mp hm
  exact hne ((hout m).mp hm)

/-- Whatever fails, `create` gives its connection back. -/
theorem create_keeps (ids : List String) (hh : ∀ n, taken n ∉ h) (hback : ∀ n x, ⟨.release n, x⟩ ∉ h) :
    (PostgresConversationStore.create ids).Keeps connectionRules Returned h := by
  unfold PostgresConversationStore.create connect
  simp only [Proc.bind_eq_bind, Proc.tryCatch_eq_catching, Proc.throw_eq_throw]
  refine Proc.Keeps.bind ⟨trivial, Proc.Keeps.request hh (fun _ _ => trivial) fun x y _ hy => ?_⟩
  cases hy with
  | error e =>
    intro m hm
    exact hh m ((hasOut_append (fun x heq => by cases heq) fun heq => by cases heq).mp hm).1
  | @ok n _ hy =>
    cases hy
    have hout : HoldsOnly n (h ++ [taken n]) := fun m =>
      (hasOut_taken (hback n)).trans (or_iff_right fun hm => hh m hm.1)
    refine Proc.Keeps.ensuring (Proc.Keeps.catching ((insertAll_keeps ids hout).mono fun x h hx => ?_))
    cases x with
    | ok conversation => exact release_keeps hx.1 (hx.2 rfl) fun y h hnone => hnone
    | error e =>
      refine Proc.Keeps.bind (query_keeps rfl hx.1 fun rolledBack => ?_)
      have hover : Concluded n (h ++ [⟨.query (.rollback n), rolledBack⟩]) := ⟨h, _, rfl, .inr ⟨_, rfl⟩⟩
      cases rolledBack <;> exact release_keeps (hx.1.query _) hover fun y h hnone => hnone

theorem createConversation_keeps (u : String) (ids : List String) :
    ((Op.program (.createConversation u ids)).implement implementation).Keeps connectionRules Returned [] := by
  simp only [Op.program, MessagingService.createConversation, Proc.request, Proc.bind_eq_bind, Proc.await_bind]
  have hnil : ∀ n, ¬ HasOut n [] := fun n hout => absurd hout.1 List.not_mem_nil
  refine Proc.Keeps.implement (Proc.Keeps.request (P := server) hnil (fun _ _ => trivial) fun x y _ hy => ?_)
  have hasked : ∀ e : server.Event Failure, e ∈ [] ++ [(⟨.canCreateConversation u ids, x⟩ : server.Event Failure)] →
      e = ⟨.canCreateConversation u ids, x⟩ := fun e he => List.mem_singleton.mp he
  have hnone : ∀ n, taken n ∉ [] ++ [(⟨.canCreateConversation u ids, x⟩ : server.Event Failure)] :=
    fun n he => by cases hasked _ he
  have hreturned : ∀ n, ¬ HasOut n ([] ++ [(⟨.canCreateConversation u ids, x⟩ : server.Event Failure)]) :=
    fun n hout => hnone n hout.1
  cases y with
  | error e => exact hreturned
  | ok allowed =>
    cases allowed with
    | false => exact hreturned
    | true =>
      refine Proc.Keeps.implement ((create_keeps ids hnone fun n x he => ?_).mono fun z h hz => ?_)
      · cases hasked _ he
      · cases z <;> exact hz

-- ---------------------------------------------------------------------------
-- Tasks
-- ---------------------------------------------------------------------------

theorem uses_create {op : Op} {ids : List String} (h : op.Uses (.createConversation ids)) :
    ∃ u, op = .createConversation u ids := by
  cases op with
  | createConversation u ids' =>
    rcases h with h | h
    · cases h
    · cases h
      exact ⟨u, rfl⟩
  | _ => simp [Op.Uses, PortCall.Checks] at h

theorem service_keeps (op : Op) :
    (op.program.implement implementation).Keeps connectionRules Returned [] := by
  have hfree : (∀ u ids, op ≠ .createConversation u ids) →
      (op.program.implement implementation).Keeps connectionRules Returned [] := by
    intro hop
    have honly : (op.program.implement implementation).Only Pooling := by
      refine (program_only op).mono fun s hs => ?_
      obtain ⟨call, huses, hsends⟩ := hs
      refine sends_pooling (fun ids heq => ?_) hsends
      obtain ⟨u, rfl⟩ := uses_create (heq ▸ huses)
      exact hop u ids rfl
    exact (pooling_keeps honly fun n => List.not_mem_nil).mono fun x h hh n hout => hh n hout.1
  cases op with
  | createConversation u ids => exact createConversation_keeps u ids
  | _ => exact hfree fun _ _ heq => by cases heq

theorem task_keeps (task : Task) :
    ((realtime uuid).program task).Keeps connectionRules Returned [] := by
  have hfree : ((realtime uuid).program task).Only Pooling →
      ((realtime uuid).program task).Keeps connectionRules Returned [] := fun honly =>
    (pooling_keeps honly fun n => List.not_mem_nil).mono fun x h hh n hout => hh n hout.1
  have hcall : ∀ {r : ServerCall}, Pooling r → (syncCall r).Only Pooling :=
    fun hr => Proc.Only.perform (P := server) hr
  cases task with
  | service op => exact service_keeps op
  | deliver n m =>
    refine hfree (Proc.Only.bind ?_ fun _ => trivial)
    refine LiveConnections.deliverToParticipants_only ?_ (fun _ => hcall trivial)
      (fun _ => hcall trivial) fun _ => hcall trivial
    exact Proc.Only.bind (query_only rfl) fun _ => trivial
  | upgraded u =>
    refine hfree (Proc.Only.bind (hcall trivial) fun socket => ?_)
    exact Proc.Only.bind (hcall trivial) fun _ => trivial
  | closing socket => exact hfree trivial
  | closed u socket => exact hfree (Proc.Only.bind (hcall trivial) fun _ => trivial)

-- ---------------------------------------------------------------------------
-- The pool
-- ---------------------------------------------------------------------------

/-- A statement takes no connection out and gives none back. -/
theorem execute_connections {i : Input} {now : Int} {db db' : Database} {s : Statement} {rows : s.Rows}
    (hexec : execute uuid i now db s = .ok (rows, db')) :
    db'.connections.map Prod.fst = db.connections.map Prod.fst ∧ db'.connected = db.connected := by
  have hset : ∀ (client : Nat) (start : Option Int),
      (setTransaction db client start).connections.map Prod.fst = db.connections.map Prod.fst := by
    intro client start
    unfold setTransaction
    rw [List.map_map]
    refine List.map_congr_left fun c _ => ?_
    show (if c.1 = client then (c.1, start) else c).1 = c.1
    split <;> rfl
  cases s with
  | begin client | commit client | rollback client =>
    cases hexec
    exact ⟨hset client _, rfl⟩
  | insertConversation client =>
    simp only [execute, insertConversation] at hexec
    split at hexec
    · cases hexec
    · cases hexec
      exact ⟨rfl, rfl⟩
  | insertParticipants client c userIds =>
    obtain ⟨db₁, hdb, hexec⟩ := bind_ok hexec
    cases hexec
    obtain ⟨k, -, hdb⟩ := bind_ok hdb
    obtain ⟨ids, -, hdb⟩ := bind_ok hdb
    simp only at hdb
    split at hdb
    · cases hdb
    split at hdb
    · cases hdb
      exact ⟨rfl, rfl⟩
    · cases hdb
  | insertMessage c u body =>
    obtain ⟨k, m, -, -, -, rfl⟩ := execute_insertMessage hexec
    exact ⟨rfl, rfl⟩
  | updateLastReadAt d c u | updateClearedAt d c u =>
    obtain ⟨t, -, hexec⟩ := bind_ok hexec
    obtain ⟨k, -, hexec⟩ := bind_ok hexec
    obtain ⟨u', -, hexec⟩ := bind_ok hexec
    cases hexec
    exact ⟨rfl, rfl⟩
  | updateDeleted id d =>
    obtain ⟨k, -, hexec⟩ := bind_ok hexec
    obtain ⟨t, -, hexec⟩ := bind_ok hexec
    cases hexec
    exact ⟨rfl, rfl⟩
  | selectConversation | selectConversationsOf | selectMessage | selectHistory =>
    obtain ⟨x, -, hexec⟩ := bind_ok hexec
    cases hexec
    exact ⟨rfl, rfl⟩

theorem inUse_iff {db : Database} : InUse db n ↔ n ∈ db.connections.map Prod.fst := by
  unfold InUse
  rw [List.mem_map]

/-- Which call has which connection, as histories tell it and as the pool does. -/
structure Lent (w : World) (j : Journal server Failure Task) : Prop where
  held : ∀ n, InUse w.database n ↔ ∃ id op h, j id = some (op, h) ∧ HasOut n h
  given : ∀ {id op h n}, j id = some (op, h) → taken n ∈ h → n < w.database.connected
  owner : ∀ {id id' op op' h h' n}, j id = some (op, h) → taken n ∈ h → j id' = some (op', h') →
    taken n ∈ h' → id' = id
  back : ∀ {id op h n x}, j id = some (op, h) → ⟨.release n, x⟩ ∈ h → taken n ∈ h

variable {w w' : World} {j : Journal server Failure Task} {id : Nat} {op : Task}

/-- An event of one call, with what it does to the connections of that call. -/
theorem Lent.step (hl : Lent w j) (hj : j id = some (op, h)) {e : server.Event Failure}
    (hheld : ∀ n, InUse w'.database n ↔ InUse w.database n ∧ ¬ HasOut n h ∨ HasOut n (h ++ [e]))
    (hconnected : w.database.connected ≤ w'.database.connected)
    (hgiven : ∀ n, e = taken n → n = w.database.connected ∧ n < w'.database.connected)
    (hback : ∀ n x, e = ⟨.release n, x⟩ → taken n ∈ h) : Lent w' (j.set id op (h ++ [e])) := by
  have htaken : ∀ {n}, taken n ∈ h ++ [e] →
      taken n ∈ h ∨ n = w.database.connected ∧ n < w'.database.connected := by
    intro n hmem
    rcases List.mem_append.mp hmem with hmem | hmem
    · exact .inl hmem
    · exact .inr (hgiven n (List.mem_singleton.mp hmem).symm)
  -- What another call holds is in use, and not out for this one.
  have hother : ∀ {id' op' h' n}, id' ≠ id → j id' = some (op', h') → taken n ∈ h' → taken n ∉ h :=
    fun hne hj' hn hmem => hne (hl.owner hj hmem hj' hn)
  constructor
  · intro n
    rw [hheld n]
    constructor
    · rintro (⟨huse, hnot⟩ | hout)
      · obtain ⟨id', op', h', hj', hout⟩ := (hl.held n).mp huse
        have hne : id' ≠ id := by
          rintro rfl
          rw [hj] at hj'
          cases hj'
          exact hnot hout
        exact ⟨id', op', h', (j.set_of_ne hne ..).trans hj', hout⟩
      · exact ⟨id, op, _, j.set_self .., hout⟩
    · rintro ⟨id', op', h', hset, hout⟩
      rcases Journal.set_eq_some hset with ⟨-, -, rfl⟩ | ⟨hne, hj'⟩
      · exact .inr hout
      · exact .inl ⟨(hl.held n).mpr ⟨id', op', h', hj', hout⟩, fun hown => hother hne hj' hout.1 hown.1⟩
  · intro id' op' h' n hset hmem
    rcases Journal.set_eq_some hset with ⟨-, -, rfl⟩ | ⟨-, hj'⟩
    · rcases htaken hmem with hmem | hnew
      · exact (hl.given hj hmem).trans_le hconnected
      · exact hnew.2
    · exact (hl.given hj' hmem).trans_le hconnected
  · intro id₁ id₂ op₁ op₂ h₁ h₂ n hset₁ hmem₁ hset₂ hmem₂
    -- A connection that is new to this call is new to all.
    have hold : ∀ {id' op' h'}, id' ≠ id → j id' = some (op', h') → taken n ∈ h' → taken n ∉ h ++ [e] := by
      intro id' op' h' hne hj' hmem' hmem
      rcases htaken hmem with hmem | hnew
      · exact hother hne hj' hmem' hmem
      · exact absurd (hl.given hj' hmem') (Nat.not_lt.mpr hnew.1.ge)
    rcases Journal.set_eq_some hset₁ with ⟨rfl, -, rfl⟩ | ⟨hne₁, hj₁⟩
    · rcases Journal.set_eq_some hset₂ with ⟨rfl, -⟩ | ⟨hne₂, hj₂⟩
      · rfl
      · exact absurd hmem₁ (hold hne₂ hj₂ hmem₂)
    · rcases Journal.set_eq_some hset₂ with ⟨rfl, -, rfl⟩ | ⟨-, hj₂⟩
      · exact absurd hmem₂ (hold hne₁ hj₁ hmem₁)
      · exact hl.owner hj₁ hmem₁ hj₂ hmem₂
  · intro id' op' h' n x hset hmem
    rcases Journal.set_eq_some hset with ⟨-, -, rfl⟩ | ⟨-, hj'⟩
    · rcases List.mem_append.mp hmem with hmem | hmem
      · exact List.mem_append_left _ (hl.back hj hmem)
      · exact List.mem_append_left _ (hback n x (List.mem_singleton.mp hmem).symm)
    · exact hl.back hj' hmem

/-- An event that has nothing to do with the pool. -/
theorem Lent.quiet (hl : Lent w j) (hj : j id = some (op, h)) {e : server.Event Failure}
    (htaken : ∀ n, e ≠ taken n) (hrelease : ∀ n x, e ≠ ⟨.release n, x⟩)
    (hconnections : w'.database.connections.map Prod.fst = w.database.connections.map Prod.fst)
    (hconnected : w'.database.connected = w.database.connected) : Lent w' (j.set id op (h ++ [e])) := by
  refine hl.step hj (fun n => ?_) hconnected.ge (fun n heq => absurd heq (htaken n))
    fun n x heq => absurd heq (hrelease n x)
  rw [hasOut_append (hrelease n) (htaken n), inUse_iff, inUse_iff, hconnections, ← inUse_iff]
  have huse : HasOut n h → InUse w.database n := fun hout => (hl.held n).mpr ⟨id, op, h, hj, hout⟩
  tauto

theorem Lent.connect (hl : Lent w j) (hj : j id = some (op, h)) : Lent { w with database := { w.database with
    connections := w.database.connections ++ [(w.database.connected, none)]
    connected := w.database.connected + 1 } } (j.set id op (h ++ [taken w.database.connected])) := by
  have hfresh : taken w.database.connected ∉ h := fun hmem => lt_irrefl _ (hl.given hj hmem)
  refine hl.step hj (fun n => ?_) (Nat.le_succ _) (fun n heq => ?_) fun n x heq => by cases heq
  · rw [hasOut_taken fun x hmem => hfresh (hl.back hj hmem), inUse_iff, List.map_append, List.mem_append,
      ← inUse_iff, List.map_singleton, List.mem_singleton]
    have huse : HasOut n h → InUse w.database n := fun hout => (hl.held n).mpr ⟨id, op, h, hj, hout⟩
    tauto
  · cases heq
    exact ⟨rfl, Nat.lt_succ_self _⟩

theorem Lent.release (hl : Lent w j) (hj : j id = some (op, h)) {m : Nat} (hout : HasOut m h)
    (x : Except Failure Unit) : Lent { w with database := { w.database with
      connections := w.database.connections.filter fun c => c.1 ≠ m } }
      (j.set id op (h ++ [⟨.release m, x⟩])) := by
  refine hl.step hj (fun n => ?_) (le_refl _) (fun n heq => by cases heq) fun n y heq => ?_
  · have hfilter : InUse { w.database with connections := w.database.connections.filter fun c => c.1 ≠ m } n ↔
        InUse w.database n ∧ n ≠ m := by
      constructor
      · rintro ⟨c, hc, rfl⟩
        obtain ⟨hc, hne⟩ := List.mem_filter.mp hc
        exact ⟨⟨c, hc, rfl⟩, of_decide_eq_true hne⟩
      · rintro ⟨⟨c, hc, rfl⟩, hne⟩
        exact ⟨c, List.mem_filter.mpr ⟨hc, decide_eq_true hne⟩, rfl⟩
    rw [hasOut_release, hfilter]
    have huse : HasOut n h → InUse w.database n := fun hout => (hl.held n).mpr ⟨id, op, h, hj, hout⟩
    have hm : n = m → HasOut n h := fun heq => heq ▸ hout
    tauto
  · cases heq
    exact hout.1

theorem Lent.query (hl : Lent w j) (hj : j id = some (op, h)) (i : Input) (s : Statement) :
    Lent (perform uuid i (.query s) w).2 (j.set id op (h ++ [⟨.query s, (perform uuid i (.query s) w).1⟩])) := by
  have hsame : (perform uuid i (.query s) w).2.database.connections.map Prod.fst =
      w.database.connections.map Prod.fst ∧
      (perform uuid i (.query s) w).2.database.connected = w.database.connected := by
    unfold perform
    simp only
    split
    · exact ⟨rfl, rfl⟩
    · split
      · exact ⟨rfl, rfl⟩
      · next hexec => exact execute_connections hexec
  exact hl.quiet hj (fun n heq => by cases heq) (fun n x heq => by cases heq) hsame.1 hsame.2

/-- The pool and the calls agree on who has what, whatever the calls do by the
rules. -/
theorem lending : (realtime uuid).Chronicle (fun _ => connectionRules) Lent where
  tick hl := ⟨hl.held, hl.given, hl.owner, hl.back⟩
  arrive {op s t j id} harr hj hl := by
    have hdb : t.database = s.database := (arrive_arrives harr).database
    constructor
    · intro n
      rw [hdb, hl.held n]
      constructor
      · rintro ⟨id', op', h', hj', hout⟩
        refine ⟨id', op', h', (j.set_of_ne ?_ ..).trans hj', hout⟩
        rintro rfl
        rw [hj] at hj'
        cases hj'
      · rintro ⟨id', op', h', hset, hout⟩
        rcases Journal.set_eq_some hset with ⟨-, -, rfl⟩ | ⟨-, hj'⟩
        · exact absurd hout.1 List.not_mem_nil
        · exact ⟨id', op', h', hj', hout⟩
    · intro id' op' h' n hset hmem
      rw [hdb]
      rcases Journal.set_eq_some hset with ⟨-, -, rfl⟩ | ⟨-, hj'⟩
      · exact absurd hmem List.not_mem_nil
      · exact hl.given hj' hmem
    · intro id₁ id₂ op₁ op₂ h₁ h₂ n hset₁ hmem₁ hset₂ hmem₂
      rcases Journal.set_eq_some hset₁ with ⟨-, -, rfl⟩ | ⟨-, hj₁⟩
      · exact absurd hmem₁ List.not_mem_nil
      rcases Journal.set_eq_some hset₂ with ⟨-, -, rfl⟩ | ⟨-, hj₂⟩
      · exact absurd hmem₂ List.not_mem_nil
      exact hl.owner hj₁ hmem₁ hj₂ hmem₂
    · intro id' op' h' n x hset hmem
      rcases Journal.set_eq_some hset with ⟨-, -, rfl⟩ | ⟨-, hj'⟩
      · exact absurd hmem List.not_mem_nil
      · exact hl.back hj' hmem
  perform {id op h i s r j} hj hallows hl := by
    cases r with
    | connect => exact hl.connect hj
    | release n => exact hl.release hj hallows.1 _
    | query s => exact hl.query hj i s
    | _ => exact hl.quiet hj (fun n heq => by cases heq) (fun n x heq => by cases heq) rfl rfl

theorem connectionRules_fits : connectionRules.Fits (realtime uuid).toAdapter where
  answers _ _ _ := trivial
  becomes _ _ _ := rfl

/-- In every state of every run, exactly those connections are out of the pool
that some call has taken and not given back; no two calls have the same one; every
call kept to the rules on connections; and one that has settled holds none. -/
theorem connections_returned {clock : Int} {ls : List (Label Input Task)}
    {c : Config server Failure Reply World Task}
    (hruns : (realtime uuid).runs (.idle (.init clock)) ls = some c) :
    (∀ n, InUse c.world.database n ↔ ∃ id call, c.calls id = some call ∧ HasOut n call.history) ∧
    (∀ id id' call call' n, c.calls id = some call → HasOut n call.history → c.calls id' = some call' →
      HasOut n call'.history → id' = id) ∧
    (∀ id call, c.calls id = some call → connectionRules.Lawful call.history) ∧
    (∀ id call x, c.calls id = some call → call.status = .settled x → ∀ n, ¬ HasOut n call.history) ∧
    ((∀ id call, c.calls id = some call → ∃ x, call.status = .settled x) → c.world.database.connections = []) := by
  have hstart : Lent (World.init clock) fun _ => none := by
    refine ⟨fun n => ⟨?_, ?_⟩, nofun, nofun, nofun⟩
    · rintro ⟨c, hc, -⟩
      exact absurd hc List.not_mem_nil
    · rintro ⟨id, op, h, hj, -⟩
      cases hj
  obtain ⟨hcovered, hlent⟩ := lending.runs (fun _ => connectionRules_fits) task_keeps hruns hstart
  have hjournal : ∀ {id call}, c.calls id = some call → c.journal id = some (call.op, call.history) :=
    fun hcall => Config.journal_eq_some.mpr ⟨_, hcall⟩
  have hheld : ∀ n, InUse c.world.database n ↔ ∃ id call, c.calls id = some call ∧ HasOut n call.history := by
    intro n
    rw [hlent.held n]
    constructor
    · rintro ⟨id, op, h, hj, hout⟩
      obtain ⟨st, hcall⟩ := Config.journal_eq_some.mp hj
      exact ⟨id, _, hcall, hout⟩
    · rintro ⟨id, call, hcall, hout⟩
      exact ⟨id, _, _, hjournal hcall, hout⟩
  have hsettled : ∀ id call x, c.calls id = some call → call.status = .settled x →
      ∀ n, ¬ HasOut n call.history := fun id call x hcall => (hcovered id _ _ _ hcall).settled x
  refine ⟨hheld, ?_, fun id call hcall => (hcovered id _ _ _ hcall).lawful, hsettled, fun hall => ?_⟩
  · intro id id' call call' n hcall hout hcall' hout'
    exact hlent.owner (hjournal hcall) hout.1 (hjournal hcall') hout'.1
  · refine List.eq_nil_iff_forall_not_mem.mpr fun connection hmem => ?_
    obtain ⟨id, call, hcall, hout⟩ := (hheld connection.1).mp ⟨connection, hmem, rfl⟩
    obtain ⟨x, hx⟩ := hall id call hcall
    exact hsettled id call x hcall hx _ hout

/-- One call's COMMIT and ROLLBACK both fail while another's transaction is open. -/
def bothConnected : List (Label Input Task) :=
  Label.turns 0 (.service (.createConversation "ann" ["ann", "bob"])) (.calm 0 "c") 6 ++
    Label.turns 1 (.service (.createConversation "ann" ["ann"])) (.calm 0 "d") 4 ++
    List.replicate 7 (.resume 0 { commitFails (some "Connection terminated") with uuid := "e" })

theorem connections_returned_failing : ∃ c call,
    (realtime some).runs (.idle (.init 0)) bothConnected = some c ∧ c.calls 0 = some call ∧
    call.status = .settled (.error (.port "Connection terminated")) ∧ (∀ n, ¬ HasOut n call.history) ∧
    InUse c.world.database 1 := by
  have hruns : (realtime some).runs (.idle (.init 0)) bothConnected = some _ := rfl
  obtain ⟨-, -, -, hsettled, -⟩ := connections_returned hruns
  exact ⟨_, _, hruns, rfl, rfl, hsettled 0 _ _ rfl rfl, _, List.mem_cons_self, rfl⟩

end Postgres

end Jiffy
