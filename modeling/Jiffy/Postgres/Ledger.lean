-- SUMMARY: Which call wrote each conversation of the tables, and how far its transaction has come.
import Jiffy.Postgres.Requests

/-!
# The ledger of transactions

A connection belongs to one call. While its transaction is open its rows are
pending, and after the COMMIT a conversation stands with exactly the
participants its call was given.
-/

namespace Jiffy

open Js Async MessagingService

namespace Postgres

variable {uuid : String → Option String} {i : Input} {db db' : Database} {op : Op}
  {j : Journal server Failure Op} {id : Nat} {h : List (server.Event Failure)}

/-- The participants of a conversation, each with its open transaction. -/
def rowsOf (db : Database) (k : String) : List (String × Option Nat) :=
  (db.participants.filter fun p => p.conversationId = k).map fun p => (p.userId, p.pending)

/-- The connection is out of the pool. -/
def InUse (db : Database) (n : Nat) : Prop := ∃ c ∈ db.connections, c.1 = n

/-- The connection is in a transaction. -/
def InTransaction (db : Database) (n : Nat) : Prop := ∃ t, transactionOf db n = some t

/-- How the rows of a conversation stand that a call created in the transaction
of connection `n`. -/
inductive Standing (db : Database) (c : ConversationRecord) (n : Nat) (ids : List String)
    (h : List (server.Event Failure)) : Prop where
  | empty (hpending : c.pending = some n) (hrows : rowsOf db c.id = [])
    (hnot : ran (.insertParticipants n c.id ids) () ∉ h)
  | filled (hpending : c.pending = some n) (hrows : rowsOf db c.id = ids.map (·, some n))
    (hdone : ran (.insertParticipants n c.id ids) () ∈ h)
  | committed (hpending : c.pending = none) (hrows : rowsOf db c.id = ids.map (·, none))

/-- Call `id` inserted the conversation, after the gate allowed its caller. -/
def WrittenBy (db : Database) (j : Journal server Failure Op) (c : ConversationRecord) (id : Nat) : Prop :=
  ∃ u ids n t h, j id = some (.createConversation u ids, h) ∧ inserting u ids n c.id t <+: h ∧
    Standing db c n ids h

structure Ledger (db : Database) (j : Journal server Failure Op) : Prop where
  unique : (db.conversations.map fun c => c.id).Nodup
  /-- A connection is taken once. -/
  given : ∀ {id op h n}, j id = some (op, h) → taken n ∈ h → n < db.connected
  owner : ∀ {id id' op op' h h' n}, j id = some (op, h) → taken n ∈ h → j id' = some (op', h') →
    taken n ∈ h' → id' = id
  connected : ∀ {id u ids n}, j id = some (.createConversation u ids, [gateYes u ids, taken n]) → InUse db n
  begun : ∀ {id u ids n}, j id = some (.createConversation u ids, opening u ids n) → InTransaction db n
  inserted : ∀ {id u ids n k t}, j id = some (.createConversation u ids, inserting u ids n k t) →
    InTransaction db n ∧ ∃ c ∈ db.conversations, c.id = k ∧ c.pending = some n
  written : ∀ c ∈ db.conversations, ∃ id, WrittenBy db j c id

-- ---------------------------------------------------------------------------
-- One more event
-- ---------------------------------------------------------------------------

theorem taken_opening (u : String) (ids : List String) (n : Nat) : taken n ∈ opening u ids n := by
  simp [opening]

theorem taken_inserting (u : String) (ids : List String) (n : Nat) (k : String) (t : Int) :
    taken n ∈ inserting u ids n k t := List.mem_append_left _ (taken_opening u ids n)

/-- What an event leaves alone of the connections that its call does not hold. -/
structure Spares (h : List (server.Event Failure)) (db db' : Database) : Prop where
  connections : ∀ n, taken n ∉ h → InUse db n → InUse db' n
  transactions : ∀ n, taken n ∉ h → InTransaction db n → InTransaction db' n
  rows : ∀ c ∈ db.conversations, ∀ n, c.pending = some n → taken n ∉ h → c ∈ db'.conversations

/-- What an event brings about for its own call. -/
structure Reaches (op : Op) (h : List (server.Event Failure)) (e : server.Event Failure)
    (db' : Database) : Prop where
  connected : ∀ u ids n, op = .createConversation u ids → h = [gateYes u ids] → e = taken n → InUse db' n
  begun : ∀ u ids n, op = .createConversation u ids → h = [gateYes u ids, taken n] →
    e = ran (.begin n) () → InTransaction db' n
  inserted : ∀ u ids n k t, op = .createConversation u ids → h = opening u ids n →
    e = ran (.insertConversation n) [(k, t)] →
      InTransaction db' n ∧ ∃ c ∈ db'.conversations, c.id = k ∧ c.pending = some n

/-- An event that takes no transaction further. -/
def Quiet (e : server.Event Failure) : Prop :=
  ∀ n, e ≠ taken n ∧ e ≠ ran (.begin n) () ∧ (∀ rows, e ≠ ran (.insertConversation n) rows) ∧
    ∀ k ids, e ≠ ran (.insertParticipants n k ids) ()

theorem Quiet.reaches {e : server.Event Failure} (he : Quiet e) : Reaches op h e db' where
  connected _ _ n _ _ heq := absurd heq (he n).1
  begun _ _ n _ _ heq := absurd heq (he n).2.1
  inserted _ _ n _ _ _ _ heq := absurd heq ((he n).2.2.1 _)

/-- The conversation stands as it did after an event that adds no participants to
it. -/
theorem WrittenBy.kept {c : ConversationRecord} {e : server.Event Failure} {id' : Nat}
    (hw : WrittenBy db j c id') (hj : j id = some (op, h)) (hrows : rowsOf db' c.id = rowsOf db c.id)
    (he : ∀ n ids, e ≠ ran (.insertParticipants n c.id ids) ()) :
    WrittenBy db' (j.set id op (h ++ [e])) c id' := by
  obtain ⟨u, ids, n, t, h', hcall, hpre, hstand⟩ := hw
  have hset : (j.set id op (h ++ [e])) id' = some (.createConversation u ids, h') ∨
      h' = h ∧ (j.set id op (h ++ [e])) id' = some (.createConversation u ids, h' ++ [e]) := by
    by_cases hid : id' = id
    · subst hid
      rw [hj] at hcall
      cases hcall
      exact .inr ⟨rfl, j.set_self ..⟩
    · exact .inl ((j.set_of_ne hid op _).trans hcall)
  have hstand' : ∀ h'', (h'' = h' ∨ h'' = h' ++ [e]) → Standing db' c n ids h'' := by
    intro h'' hh
    cases hstand with
    | empty hpending hempty hnot =>
      refine .empty hpending (hrows.trans hempty) ?_
      rcases hh with rfl | rfl
      · exact hnot
      · intro hmem
        rcases List.mem_append.mp hmem with hmem | hmem
        · exact hnot hmem
        · exact he n ids (List.mem_singleton.mp hmem).symm
    | filled hpending hfilled hdone =>
      refine .filled hpending (hrows.trans hfilled) ?_
      rcases hh with rfl | rfl
      · exact hdone
      · exact List.mem_append_left _ hdone
    | committed hpending hcommitted => exact .committed hpending (hrows.trans hcommitted)
  rcases hset with hset | ⟨-, hset⟩
  · exact ⟨u, ids, n, t, h', hset, hpre, hstand' h' (.inl rfl)⟩
  · exact ⟨u, ids, n, t, h' ++ [e], hset, hpre.trans (List.prefix_append _ _), hstand' _ (.inr rfl)⟩

/-- An event of call `id`, with where each conversation then comes from. -/
theorem Ledger.step (hl : Ledger db j) {e : server.Event Failure} (hj : j id = some (op, h))
    (hunique : (db'.conversations.map fun c => c.id).Nodup)
    (hgiven : db.connected ≤ db'.connected ∧ ∀ n, e = taken n → db.connected ≤ n ∧ n < db'.connected)
    (hspares : Spares h db db') (hown : Reaches op h e db')
    (hwritten : ∀ c ∈ db'.conversations, ∃ id', WrittenBy db' (j.set id op (h ++ [e])) c id') :
    Ledger db' (j.set id op (h ++ [e])) := by
  -- A connection in the new history was taken before, or just now.
  have htaken : ∀ {n}, taken n ∈ h ++ [e] → taken n ∈ h ∨ db.connected ≤ n ∧ n < db'.connected := by
    intro n hmem
    rcases List.mem_append.mp hmem with hmem | hmem
    · exact .inl hmem
    · exact .inr (hgiven.2 n (List.mem_singleton.mp hmem).symm)
  -- Another call's connection is none that this call holds.
  have hother : ∀ {id' op' h' n}, id' ≠ id → j id' = some (op', h') → taken n ∈ h' → taken n ∉ h :=
    fun hne hj' hn hmem => hne (hl.owner hj hmem hj' hn)
  refine ⟨hunique, fun {id' op' h' n} hset hmem => ?_, fun {id₁ id₂ op₁ op₂ h₁ h₂ n} hset₁ hmem₁ hset₂
    hmem₂ => ?_, fun {id' u ids n} hset => ?_, fun {id' u ids n} hset => ?_,
    fun {id' u ids n k t} hset => ?_, hwritten⟩
  · rcases Journal.set_eq_some hset with ⟨-, -, rfl⟩ | ⟨-, hj'⟩
    · rcases htaken hmem with hmem | hnew
      · exact (hl.given hj hmem).trans_le hgiven.1
      · exact hnew.2
    · exact (hl.given hj' hmem).trans_le hgiven.1
  · rcases Journal.set_eq_some hset₁ with ⟨rfl, -, rfl⟩ | ⟨-, hj₁⟩
    · rcases Journal.set_eq_some hset₂ with ⟨rfl, -⟩ | ⟨-, hj₂⟩
      · rfl
      · rcases htaken hmem₁ with hmem₁ | hnew
        · exact hl.owner hj hmem₁ hj₂ hmem₂
        · exact absurd (hl.given hj₂ hmem₂) (Nat.not_lt.mpr hnew.1)
    · rcases Journal.set_eq_some hset₂ with ⟨rfl, -, rfl⟩ | ⟨-, hj₂⟩
      · rcases htaken hmem₂ with hmem₂ | hnew
        · exact hl.owner hj₁ hmem₁ hj hmem₂
        · exact absurd (hl.given hj₁ hmem₁) (Nat.not_lt.mpr hnew.1)
      · exact hl.owner hj₁ hmem₁ hj₂ hmem₂
  · rcases Journal.set_eq_some hset with ⟨rfl, rfl, hh⟩ | ⟨hne, hj'⟩
    · obtain ⟨rfl, he⟩ := List.append_inj' (show [gateYes u ids] ++ [taken n] = _ from hh) rfl
      exact hown.connected u ids n rfl rfl (List.singleton_inj.mp he).symm
    · have hn : taken n ∈ [gateYes u ids, taken n] := by simp
      exact hspares.connections n (hother hne hj' hn) (hl.connected hj')
  · rcases Journal.set_eq_some hset with ⟨rfl, rfl, hh⟩ | ⟨hne, hj'⟩
    · obtain ⟨rfl, he⟩ :=
        List.append_inj' (show [gateYes u ids, taken n] ++ [ran (.begin n) ()] = _ from hh) rfl
      exact hown.begun u ids n rfl rfl (List.singleton_inj.mp he).symm
    · exact hspares.transactions n (hother hne hj' (taken_opening u ids n)) (hl.begun hj')
  · rcases Journal.set_eq_some hset with ⟨rfl, rfl, hh⟩ | ⟨hne, hj'⟩
    · obtain ⟨rfl, he⟩ := List.append_inj' (show opening u ids n ++ _ = _ from hh) rfl
      exact hown.inserted u ids n k t rfl rfl (List.singleton_inj.mp he).symm
    · have hnot := hother hne hj' (taken_inserting u ids n k t)
      obtain ⟨htransaction, c, hc, hck, hpending⟩ := hl.inserted hj'
      exact ⟨hspares.transactions n hnot htransaction, c, hspares.rows c hc n hpending hnot, hck, hpending⟩

/-- An event that leaves the rows of conversations alone. -/
theorem Ledger.same (hl : Ledger db j) {e : server.Event Failure} (hj : j id = some (op, h))
    (hconversations : db'.conversations = db.conversations)
    (hrowsOf : ∀ k, rowsOf db' k = rowsOf db k)
    (hgiven : db.connected ≤ db'.connected ∧ ∀ n, e = taken n → db.connected ≤ n ∧ n < db'.connected)
    (hspares : Spares h db db') (hown : Reaches op h e db')
    (hfill : ∀ n k ids, e ≠ ran (.insertParticipants n k ids) ()) :
    Ledger db' (j.set id op (h ++ [e])) := by
  refine hl.step hj (hconversations ▸ hl.unique) hgiven hspares hown fun c hc => ?_
  rw [hconversations] at hc
  obtain ⟨id', hw⟩ := hl.written c hc
  exact ⟨id', hw.kept hj (hrowsOf c.id) fun n ids => hfill n c.id ids⟩

/-- An event that neither takes a transaction further nor touches one. -/
theorem Ledger.quiet (hl : Ledger db j) {e : server.Event Failure} (hj : j id = some (op, h))
    (he : Quiet e) (hconversations : db'.conversations = db.conversations)
    (hrowsOf : ∀ k, rowsOf db' k = rowsOf db k) (hconnections : db'.connections = db.connections)
    (hconnected : db'.connected = db.connected) : Ledger db' (j.set id op (h ++ [e])) := by
  refine hl.same hj hconversations hrowsOf ⟨hconnected.ge, fun n heq => absurd heq (he n).1⟩
    ⟨fun n _ hn => ?_, fun n _ hn => ?_, fun c hc _ _ _ => hconversations ▸ hc⟩ he.reaches
    fun n k ids => (he n).2.2.2 k ids
  · unfold InUse
    exact hconnections ▸ hn
  · unfold InTransaction transactionOf
    exact hconnections ▸ hn

-- ---------------------------------------------------------------------------
-- Connections
-- ---------------------------------------------------------------------------

theorem transactionOf_set {n m : Nat} (hne : n ≠ m) (start : Option Int) :
    transactionOf (setTransaction db m start) n = transactionOf db n := by
  unfold transactionOf setTransaction
  simp only
  induction db.connections with
  | nil => rfl
  | cons c cs ih =>
    rw [List.map_cons, List.find?_cons, List.find?_cons]
    by_cases hc : c.1 = m
    · have hcn : ¬ c.1 = n := fun h => hne (h.symm.trans hc)
      simp only [if_pos hc, decide_eq_false hcn]
      exact ih
    · simp only [if_neg hc]
      split
      · rfl
      · exact ih

theorem inUse_set {n m : Nat} (start : Option Int) (h : InUse db n) :
    InUse (setTransaction db m start) n := by
  obtain ⟨c, hc, hcn⟩ := h
  refine ⟨_, List.mem_map_of_mem hc, ?_⟩
  split <;> exact hcn

theorem inTransaction_begin {n : Nat} (t : Int) (h : InUse db n) :
    InTransaction (setTransaction db n (some t)) n := by
  obtain ⟨c, hc, hcn⟩ := h
  refine ⟨t, ?_⟩
  unfold transactionOf setTransaction
  cases hfind : (db.connections.map fun c => if c.1 = n then (c.1, some t) else c).find? fun c => c.1 = n with
  | none =>
    have hnot := List.find?_eq_none.mp hfind _ (List.mem_map_of_mem hc)
    rw [if_pos hcn] at hnot
    exact absurd (decide_eq_true hcn) hnot
  | some c' =>
    obtain ⟨d, hd, rfl⟩ := List.mem_map.mp (List.mem_of_find?_eq_some hfind)
    have hn := List.find?_some hfind
    split at hn
    · next hdn => rw [if_pos hdn]; rfl
    · next hdn => simp [hdn] at hn

theorem transactionOf_append {n m : Nat} {connections : List (Nat × Option Int)}
    (h : InTransaction db n) : InTransaction { db with
      connections := db.connections ++ connections
      connected := m } n := by
  obtain ⟨t, ht⟩ := h
  obtain ⟨c, hfind, hc⟩ := Option.bind_eq_some_iff.mp ht
  refine ⟨t, ?_⟩
  unfold transactionOf
  rw [List.find?_append, hfind]
  exact hc

theorem transactionOf_filter {n m : Nat} (hne : n ≠ m) : transactionOf { db with
    connections := db.connections.filter fun c => c.1 ≠ m } n = transactionOf db n := by
  unfold transactionOf
  simp only
  induction db.connections with
  | nil => rfl
  | cons c cs ih =>
    rw [List.filter_cons]
    by_cases hc : c.1 = m
    · have hcn : ¬ c.1 = n := fun h => hne (h.symm.trans hc)
      rw [if_neg (by simpa using hc), List.find?_cons, decide_eq_false hcn]
      exact ih
    · rw [if_pos (by simpa using hc), List.find?_cons, List.find?_cons]
      split
      · rfl
      · exact ih

theorem Ledger.connect (hl : Ledger db j) (hj : j id = some (op, h)) : Ledger { db with
    connections := db.connections ++ [(db.connected, none)]
    connected := db.connected + 1 } (j.set id op (h ++ [taken db.connected])) := by
  have hfresh : ∀ n, taken db.connected = taken n → n = db.connected := fun n heq => by
    cases heq
    rfl
  refine hl.same hj rfl (fun _ => rfl) ⟨Nat.le_succ _, fun n heq => ?_⟩
    ⟨fun n _ hn => ?_, fun n _ hn => transactionOf_append hn, fun c hc _ _ _ => hc⟩
    ⟨fun u ids n _ _ heq => ?_, nofun, nofun⟩
    nofun
  · rw [hfresh n heq]
    exact ⟨le_refl _, Nat.lt_succ_self _⟩
  · obtain ⟨c, hc, hcn⟩ := hn
    exact ⟨c, List.mem_append_left _ hc, hcn⟩
  · rw [hfresh n heq]
    exact ⟨_, List.mem_append_right _ List.mem_cons_self, rfl⟩

theorem Ledger.release (hl : Ledger db j) (hj : j id = some (op, h)) {n : Nat} (hn : taken n ∈ h)
    (x : Except Failure Unit) : Ledger { db with
      connections := db.connections.filter fun c => c.1 ≠ n } (j.set id op (h ++ [⟨.release n, x⟩])) := by
  have hquiet : Quiet ⟨.release n, x⟩ := fun m =>
    ⟨nofun, nofun, nofun, nofun⟩
  have hne : ∀ m, taken m ∉ h → m ≠ n := fun m hm heq => hm (heq ▸ hn)
  refine hl.same hj rfl (fun _ => rfl) ⟨le_refl _, fun m heq => absurd heq (hquiet m).1⟩
    ⟨fun m hm hin => ?_, fun m hm ⟨t, ht⟩ => ⟨t, (transactionOf_filter (hne m hm)).trans ht⟩,
      fun c hc _ _ _ => hc⟩ hquiet.reaches fun m k ids => (hquiet m).2.2.2 k ids
  obtain ⟨c, hc, hcm⟩ := hin
  refine ⟨c, List.mem_filter.mpr ⟨hc, ?_⟩, hcm⟩
  simpa [hcm] using hne m hm

theorem Ledger.begin (hl : Ledger db j) {u : String} {ids : List String} {n : Nat}
    (hj : j id = some (.createConversation u ids, [gateYes u ids, taken n])) (t : Int) :
    Ledger (setTransaction db n (some t))
      (j.set id (.createConversation u ids) ([gateYes u ids, taken n] ++ [ran (.begin n) ()])) := by
  have hne : ∀ m, taken m ∉ [gateYes u ids, taken n] → m ≠ n := fun m hm heq => hm (by simp [heq])
  refine hl.same hj rfl (fun _ => rfl) ⟨le_refl _, nofun⟩
    ⟨fun m _ => inUse_set _, fun m hm ⟨t', ht⟩ => ⟨t', (transactionOf_set (hne m hm) _).trans ht⟩,
      fun c hc _ _ _ => hc⟩
    ⟨nofun, fun _ _ m _ _ heq => ?_, nofun⟩
    nofun
  cases heq
  exact inTransaction_begin t (hl.connected hj)

-- ---------------------------------------------------------------------------
-- Rows
-- ---------------------------------------------------------------------------

theorem Ledger.insertConversation (hI : Integrity uuid db) (hl : Ledger db j) {u : String}
    {ids : List String} {n : Nat} {now : Int} {rows : List (String × Int)}
    (hj : j id = some (.createConversation u ids, opening u ids n))
    (hexec : Postgres.insertConversation i now db n = .ok (rows, db')) :
    Ledger db' (j.set id (.createConversation u ids)
      (opening u ids n ++ [ran (.insertConversation n) rows])) := by
  obtain ⟨t, ht⟩ := hl.begun hj
  simp only [Postgres.insertConversation, ht, Option.getD_some, Option.map_some] at hexec
  split at hexec
  · cases hexec
  next hfresh =>
  simp only [Bool.not_eq_true, List.any_eq_false, decide_eq_true_eq] at hfresh
  cases hexec
  have hnone : rowsOf db i.uuid = [] := by
    unfold rowsOf
    rw [List.map_eq_nil_iff, List.filter_eq_nil_iff]
    intro p hp hpid
    obtain ⟨c, hc, hcid, -⟩ := hI.owned p hp
    exact hfresh c hc (hcid.trans (by simpa using hpid))
  have htaken : ∀ m, ran (.insertConversation n) [(i.uuid, toMillis t)] ≠ taken m := by
    intro m heq
    cases heq
  have hbegin : ∀ m, ran (.insertConversation n) [(i.uuid, toMillis t)] ≠ ran (.begin m) () := by
    intro m heq
    cases heq
  have hfill : ∀ m k vs,
      ran (.insertConversation n) [(i.uuid, toMillis t)] ≠ ran (.insertParticipants m k vs) () := by
    intro m k vs heq
    cases heq
  refine hl.step hj ?_ ⟨le_refl _, fun m heq => absurd heq (htaken m)⟩
    ⟨fun _ _ hn => hn, fun _ _ hn => hn, fun c hc _ _ _ => List.mem_append_left _ hc⟩
    ⟨fun _ _ m _ _ heq => absurd heq (htaken m), fun _ _ m _ _ heq => absurd heq (hbegin m),
      fun _ _ m k t' _ _ heq => ?_⟩
    fun c hc => ?_
  · rw [List.map_append, List.nodup_append]
    refine ⟨hl.unique, List.nodup_singleton _, fun a ha b hb hab => ?_⟩
    obtain ⟨c, hc, rfl⟩ := List.mem_map.mp ha
    rw [List.map_singleton, List.mem_singleton] at hb
    exact hfresh c hc (hab.trans hb)
  · cases heq
    exact ⟨⟨t, ht⟩, _, List.mem_append_right _ List.mem_cons_self, rfl, rfl⟩
  · rcases List.mem_append.mp hc with hc | hc
    · obtain ⟨id', hw⟩ := hl.written c hc
      exact ⟨id', hw.kept hj rfl fun m vs => hfill m c.id vs⟩
    · obtain rfl := List.mem_singleton.mp hc
      refine ⟨id, u, ids, n, toMillis t, _, j.set_self .., List.prefix_refl _, .empty rfl hnone ?_⟩
      simp [opening, ran, gateYes, taken]

theorem Standing.pending {c : ConversationRecord} {n : Nat} {ids : List String}
    (hs : Standing db c n ids h) : ∀ r ∈ rowsOf db c.id, r.2 = c.pending := by
  intro r hr
  cases hs with
  | empty _ hrows _ =>
    rw [hrows] at hr
    cases hr
  | filled hpending hrows _ =>
    rw [hrows] at hr
    obtain ⟨u, -, rfl⟩ := List.mem_map.mp hr
    exact hpending.symm
  | committed hpending hrows =>
    rw [hrows] at hr
    obtain ⟨u, -, rfl⟩ := List.mem_map.mp hr
    exact hpending.symm

/-- A pending row was written by the call that holds its connection. -/
theorem Ledger.holder (hl : Ledger db j) (hj : j id = some (op, h)) {n : Nat} (hn : taken n ∈ h)
    {c : ConversationRecord} (hpending : c.pending = some n) {id' : Nat} (hw : WrittenBy db j c id') :
    ∃ u ids t, op = .createConversation u ids ∧ inserting u ids n c.id t <+: h ∧ Standing db c n ids h := by
  obtain ⟨u, ids, m, t, h', hcall, hpre, hstand⟩ := hw
  have hm : m = n := by
    cases hstand with
    | empty hp | filled hp => exact Option.some.inj (hp.symm.trans hpending)
    | committed hp => exact nomatch hp.symm.trans hpending
  subst hm
  have hid := hl.owner hj hn hcall (hpre.subset (taken_inserting u ids m c.id t))
  subst hid
  rw [hj] at hcall
  cases hcall
  exact ⟨u, ids, t, rfl, hpre, hstand⟩

theorem rowsOf_newRecords (db : Database) (k k' : String) (ids : List String) (pending : Option Nat) :
    rowsOf { db with participants := db.participants ++ newRecords k ids pending } k' =
      rowsOf db k' ++ if k = k' then ids.map (·, pending) else [] := by
  unfold rowsOf newRecords
  rw [List.filter_append, List.map_append]
  congr 1
  split
  · next hk =>
    rw [List.filter_eq_self.mpr, List.map_map]
    · rfl
    · intro p hp
      obtain ⟨u, -, rfl⟩ := List.mem_map.mp hp
      simpa using hk
  · next hk =>
    rw [List.map_eq_nil_iff, List.filter_eq_nil_iff]
    intro p hp
    obtain ⟨u, -, rfl⟩ := List.mem_map.mp hp
    simpa using hk

theorem insertParticipants_ok {n : Nat} {k : String} {ids : List String}
    (hk : uuid k = some k) (hexec : Postgres.insertParticipants uuid db n k ids = .ok db') :
    db' = { db with
      participants := db.participants ++ newRecords k ids ((transactionOf db n).map fun _ => n) } := by
  obtain ⟨id, hid, hinsert⟩ := bind_ok hexec
  obtain ⟨ids', hids, hrows⟩ := bind_ok hinsert
  clear hexec hinsert
  obtain ⟨rfl, -⟩ := mapM_textParam_ok hids
  obtain rfl : k = id := Option.some.inj (hk.symm.trans (uuidParam_ok hid))
  simp only at hrows
  split at hrows
  · cases hrows
  · split at hrows
    · cases hrows
      rfl
    · cases hrows

theorem ran_insertParticipants {n n' : Nat} {k k' : String} {ids ids' : List String}
    (heq : ran (.insertParticipants n k ids) () = ran (.insertParticipants n' k' ids') ()) : k = k' := by
  cases heq
  rfl

theorem Ledger.insertParticipants (hI : Integrity uuid db) (hl : Ledger db j) {u : String}
    {ids : List String} {n : Nat} {k : String} {t : Int}
    (hj : j id = some (.createConversation u ids, inserting u ids n k t))
    (hexec : Postgres.insertParticipants uuid db n k ids = .ok db') :
    Ledger db' (j.set id (.createConversation u ids)
      (inserting u ids n k t ++ [ran (.insertParticipants n k ids) ()])) := by
  obtain ⟨⟨start, hstart⟩, c₀, hc₀, rfl, hpending₀⟩ := hl.inserted hj
  obtain rfl := insertParticipants_ok (hI.canonical c₀ hc₀) hexec
  rw [hstart, Option.map_some]
  refine hl.step hj hl.unique ⟨le_refl _, nofun⟩
    ⟨fun _ _ hn => hn, fun _ _ hn => hn, fun c hc _ _ _ => hc⟩ ⟨nofun, nofun, nofun⟩ fun c hc => ?_
  obtain ⟨id', hw⟩ := hl.written c hc
  have hrows := rowsOf_newRecords db c₀.id c.id ids (some n)
  by_cases hk : c₀.id = c.id
  · obtain rfl : c₀ = c := List.inj_on_of_nodup_map hl.unique hc₀ hc hk
    obtain ⟨u', ids', t', hop, -, hstand⟩ := hl.holder hj (taken_inserting u ids n c₀.id t) hpending₀ hw
    cases hop
    refine ⟨id, u, ids, n, t, _, j.set_self .., List.prefix_append _ _, .filled hpending₀ ?_ ?_⟩
    · cases hstand with
      | empty _ hempty _ => rw [hrows, hempty, if_pos rfl, List.nil_append]
      | filled _ _ hdone => simp [inserting, opening, ran, gateYes, taken] at hdone
      | committed hp _ => exact nomatch hp.symm.trans hpending₀
    · exact List.mem_append_right _ List.mem_cons_self
  · refine ⟨id', hw.kept hj ?_ fun m ids' heq => hk (ran_insertParticipants heq)⟩
    rw [hrows, if_neg hk, List.append_nil]

-- ---------------------------------------------------------------------------
-- The end of a transaction
-- ---------------------------------------------------------------------------

theorem inserting_prefix_filling {u u' : String} {ids ids' : List String} {n n' : Nat} {k k' : String}
    {t t' : Int} (hpre : inserting u ids n k t <+: filling u' ids' n' k' t') : k = k' := by
  have hfour : inserting u ids n k t = (filling u' ids' n' k' t').take 4 :=
    List.prefix_iff_eq_take.mp hpre
  have htake : (filling u' ids' n' k' t').take 4 = inserting u' ids' n' k' t' := by
    unfold filling
    split <;> rfl
  rw [htake] at hfour
  obtain ⟨-, hlast⟩ := List.append_inj' (show opening u ids n ++ _ = opening u' ids' n' ++ _ from hfour) rfl
  cases List.singleton_inj.mp hlast
  rfl

theorem taken_filling (u : String) (ids : List String) (n : Nat) (k : String) (t : Int) :
    taken n ∈ filling u ids n k t := by
  unfold filling
  split
  · exact taken_inserting u ids n k t
  · exact List.mem_append_left _ (taken_inserting u ids n k t)

/-- The other transactions at the end of this one. -/
theorem spares_end {n : Nat} (hn : taken n ∈ h) {conversations : List ConversationRecord}
    {participants : List ParticipantRecord}
    (hrows : ∀ c ∈ db.conversations, c.pending ≠ some n → c ∈ conversations) :
    Spares h db { setTransaction db n none with conversations, participants } := by
  have hne : ∀ m, taken m ∉ h → m ≠ n := fun m hm heq => hm (heq ▸ hn)
  refine ⟨fun m _ hin => inUse_set (m := n) none hin, fun m hm ⟨t, ht⟩ => ⟨t, ?_⟩, fun c hc m hp hm => ?_⟩
  · exact (transactionOf_set (hne m hm) none).trans ht
  · exact hrows c hc fun heq => hne m hm (Option.some.inj (hp.symm.trans heq))

theorem rowsOf_map {f : ParticipantRecord → ParticipantRecord} {g : String × Option Nat → String × Option Nat}
    (hid : ∀ p, (f p).conversationId = p.conversationId)
    (hg : ∀ p, ((f p).userId, (f p).pending) = g (p.userId, p.pending)) (db : Database) (k : String) :
    rowsOf { db with participants := db.participants.map f } k = (rowsOf db k).map g := by
  unfold rowsOf
  rw [List.filter_map, List.map_map, List.map_map]
  congr 1
  · funext p
    exact hg p
  · refine List.filter_congr fun p _ => ?_
    simp only [Function.comp, hid]

/-- What a COMMIT makes of a row. -/
def settle (n : Nat) (r : String × Option Nat) : String × Option Nat :=
  if r.2 = some n then (r.1, none) else r

theorem rowsOf_commit (db : Database) (n : Nat) (conversations : List ConversationRecord) (k : String) :
    rowsOf { setTransaction db n none with
      conversations
      participants := db.participants.map fun p =>
        if p.pending = some n then { p with pending := none } else p } k = (rowsOf db k).map (settle n) := by
  have hid : ∀ p : ParticipantRecord,
      (if p.pending = some n then { p with pending := none } else p).conversationId =
      p.conversationId := fun p => by split <;> rfl
  refine rowsOf_map hid (fun p => ?_) (setTransaction db n none) k
  unfold settle
  split <;> rfl

/-- The rows of another conversation are not touched. -/
theorem Standing.settled {c : ConversationRecord} {m n : Nat} {ids : List String}
    (hs : Standing db c m ids h) (hp : c.pending ≠ some n) :
    (rowsOf db c.id).map (settle n) = rowsOf db c.id := by
  rw [List.map_congr_left (g := fun r => r), List.map_id']
  intro r hr
  exact if_neg (hs.pending r hr ▸ hp)

theorem Ledger.commit (hl : Ledger db j) {u : String} {ids : List String} {n : Nat} {k : String} {t : Int}
    (hj : j id = some (.createConversation u ids, filling u ids n k t)) :
    Ledger { setTransaction db n none with
      conversations := db.conversations.map fun c =>
        if c.pending = some n then { c with pending := none } else c
      participants := db.participants.map fun p =>
        if p.pending = some n then { p with pending := none } else p }
      (j.set id (.createConversation u ids) (filling u ids n k t ++ [ran (.commit n) ()])) := by
  have hn := taken_filling u ids n k t
  have hrowsOf := rowsOf_commit db n (db.conversations.map fun c =>
    if c.pending = some n then { c with pending := none } else c)
  refine hl.step hj ?_ ⟨le_refl _, nofun⟩ (spares_end hn fun c hc hp => ?_) ⟨nofun, nofun, nofun⟩
    fun c' hc' => ?_
  · rw [List.map_map, List.map_congr_left (g := fun c => c.id)]
    · exact hl.unique
    · intro c _
      simp only [Function.comp]
      split <;> rfl
  · exact List.mem_map.mpr ⟨c, hc, if_neg hp⟩
  · obtain ⟨c, hc, rfl⟩ := List.mem_map.mp hc'
    obtain ⟨id', hw⟩ := hl.written c hc
    split
    · next hp =>
      obtain ⟨u', ids', t', hop, hpre, hstand⟩ := hl.holder hj hn hp hw
      cases hop
      have hk := inserting_prefix_filling hpre
      refine ⟨id, u, ids, n, t', _, j.set_self .., hpre.trans (List.prefix_append _ _), .committed rfl ?_⟩
      refine (hrowsOf c.id).trans ?_
      cases hstand with
      | empty _ hempty hnot =>
        have hnil : ids = [] := by
          by_contra hne
          refine hnot ?_
          unfold filling
          rw [if_neg hne, hk]
          exact List.mem_append_right _ List.mem_cons_self
        rw [hempty, hnil]
        rfl
      | filled _ hfilled _ =>
        rw [hfilled, List.map_map]
        simp [settle, Function.comp_def]
      | committed hnone _ => exact nomatch hnone.symm.trans hp
    · next hp =>
      refine ⟨id', hw.kept hj ((hrowsOf c.id).trans ?_) nofun⟩
      obtain ⟨u', ids', m, t', h', -, -, hstand⟩ := hw
      exact hstand.settled hp

theorem Ledger.rollback (hl : Ledger db j) (hj : j id = some (op, h)) {n : Nat} (hn : taken n ∈ h) :
    Ledger { setTransaction db n none with
      conversations := db.conversations.filter fun c => c.pending ≠ some n
      participants := db.participants.filter fun p => p.pending ≠ some n }
      (j.set id op (h ++ [ran (.rollback n) ()])) := by
  refine hl.step hj (hl.unique.sublist (List.filter_sublist.map _)) ⟨le_refl _, nofun⟩
    (spares_end hn fun c hc hp => List.mem_filter.mpr ⟨hc, by simpa using hp⟩) ⟨nofun, nofun, nofun⟩
    fun c hc => ?_
  obtain ⟨hc, hp⟩ := List.mem_filter.mp hc
  obtain ⟨id', hw⟩ := hl.written c hc
  refine ⟨id', hw.kept hj ?_ nofun⟩
  obtain ⟨u', ids', m, t', h', -, -, hstand⟩ := hw
  unfold rowsOf
  rw [List.filter_filter]
  congr 1
  refine List.filter_congr fun q hq => ?_
  by_cases hid : q.conversationId = c.id
  · have hpending : q.pending = c.pending := hstand.pending (q.userId, q.pending) (by
      refine List.mem_map.mpr ⟨q, List.mem_filter.mpr ⟨hq, by simpa using hid⟩, rfl⟩)
    simpa [hid, hpending] using hp
  · simp [hid]

-- ---------------------------------------------------------------------------
-- Every request
-- ---------------------------------------------------------------------------

theorem rowsOf_update {c u : String} {f : ParticipantRecord → ParticipantRecord}
    (hf : ∀ p, (f p).key = p.key ∧ (f p).pending = p.pending) (db : Database) (k : String) :
    rowsOf (updateParticipant db c u f) k = rowsOf db k := by
  unfold updateParticipant
  refine (rowsOf_map (g := fun r => r) (fun p => ?_) (fun p => ?_) db k).trans (List.map_id' _)
  · split
    · exact congrArg Prod.fst (hf p).1
    · rfl
  · split
    · exact Prod.ext (congrArg Prod.snd (hf p).1) (hf p).2
    · rfl

/-- Every statement under its precondition keeps the ledger. -/
theorem Ledger.execute (hI : Integrity uuid db) (hl : Ledger db j) (hj : j id = some (op, h)) {w : World}
    {s : Statement} (hpre : Before op h w (.query s)) {now : Int} {rows : s.Rows}
    (hexec : Postgres.execute uuid i now db s = .ok (rows, db')) :
    Ledger db' (j.set id op (h ++ [ran s rows])) := by
  cases s with
  | begin n =>
    obtain ⟨u, ids, rfl, rfl⟩ := hpre
    cases hexec
    exact hl.begin hj now
  | commit n =>
    obtain ⟨u, ids, k, t, rfl, rfl⟩ := hpre
    cases hexec
    exact hl.commit hj
  | rollback n =>
    cases hexec
    exact hl.rollback hj hpre
  | insertConversation n =>
    obtain ⟨u, ids, rfl, rfl⟩ := hpre
    exact hl.insertConversation hI hj hexec
  | insertParticipants n k ids =>
    obtain ⟨u, t, rfl, rfl⟩ := hpre
    obtain ⟨db₁, hdb, hexec⟩ := bind_ok hexec
    cases hexec
    exact hl.insertParticipants hI hj hdb
  | selectConversation k =>
    obtain ⟨_, -, hexec⟩ := bind_ok hexec
    cases hexec
    exact hl.quiet hj (fun _ => ⟨nofun, nofun, nofun, nofun⟩) rfl (fun _ => rfl) rfl rfl
  | selectConversationsOf u =>
    obtain ⟨_, -, hexec⟩ := bind_ok hexec
    cases hexec
    exact hl.quiet hj (fun _ => ⟨nofun, nofun, nofun, nofun⟩) rfl (fun _ => rfl) rfl rfl
  | updateLastReadAt d c u =>
    obtain ⟨t, -, hexec⟩ := bind_ok hexec
    obtain ⟨_, -, hexec⟩ := bind_ok hexec
    obtain ⟨_, -, hexec⟩ := bind_ok hexec
    cases hexec
    refine hl.quiet hj (fun _ => ⟨nofun, nofun, nofun, nofun⟩) rfl (fun k => ?_) rfl rfl
    exact rowsOf_update (f := fun p => { p with lastReadAt := some t }) (fun _ => ⟨rfl, rfl⟩) db k
  | updateClearedAt d c u =>
    obtain ⟨t, -, hexec⟩ := bind_ok hexec
    obtain ⟨_, -, hexec⟩ := bind_ok hexec
    obtain ⟨_, -, hexec⟩ := bind_ok hexec
    cases hexec
    refine hl.quiet hj (fun _ => ⟨nofun, nofun, nofun, nofun⟩) rfl (fun k => ?_) rfl rfl
    exact rowsOf_update (f := fun p => { p with clearedAt := some t }) (fun _ => ⟨rfl, rfl⟩) db k
  | insertMessage c u body =>
    obtain ⟨_, _, -, -, -, rfl⟩ := execute_insertMessage hexec
    exact hl.quiet hj (fun _ => ⟨nofun, nofun, nofun, nofun⟩) rfl (fun _ => rfl) rfl rfl
  | selectMessage k =>
    obtain ⟨_, -, hexec⟩ := bind_ok hexec
    cases hexec
    exact hl.quiet hj (fun _ => ⟨nofun, nofun, nofun, nofun⟩) rfl (fun _ => rfl) rfl rfl
  | updateDeleted k d =>
    obtain ⟨_, -, hexec⟩ := bind_ok hexec
    obtain ⟨_, -, hexec⟩ := bind_ok hexec
    cases hexec
    exact hl.quiet hj (fun _ => ⟨nofun, nofun, nofun, nofun⟩) rfl (fun _ => rfl) rfl rfl
  | selectHistory query =>
    obtain ⟨_, -, hexec⟩ := bind_ok hexec
    cases hexec
    exact hl.quiet hj (fun _ => ⟨nofun, nofun, nofun, nofun⟩) rfl (fun _ => rfl) rfl rfl

theorem Ledger.perform {w : World} (hI : Integrity uuid w.database) (hl : Ledger w.database j)
    (hj : j id = some (op, h)) {r : ServerCall} (hpre : Before op h w r) :
    Ledger (perform uuid i r w).2.database (j.set id op (h ++ [⟨r, (perform uuid i r w).1⟩])) := by
  cases r with
  | query s =>
    rcases perform_query_cases uuid i w s with ⟨e, heq⟩ | ⟨rows, db, hexec, heq⟩
    · rw [heq]
      exact hl.quiet hj (fun _ => ⟨nofun, nofun, nofun, nofun⟩) rfl (fun _ => rfl) rfl rfl
    · rw [heq]
      exact hl.execute hI hj hpre hexec
  | connect => exact hl.connect hj
  | release n => exact hl.release hj hpre _
  | canCreateConversation | newDate | publish | notify | handleUpgrade | register | unregister
  | socketsOf | isOpen | send =>
    exact hl.quiet hj (fun _ => ⟨nofun, nofun, nofun, nofun⟩) rfl (fun _ => rfl) rfl rfl

end Postgres

end Jiffy
