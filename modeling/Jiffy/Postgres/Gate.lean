-- SUMMARY: What the gate allowed before anything was stored in the Postgres tables, under interleaved calls.
import Jiffy.InMemory.Gate
import Jiffy.Postgres.Ledger

/-!
# The gate over the Postgres stores

Each committed conversation and each message goes back to a call that the gate
allowed, with the very participants, before the call's INSERT. Participants are
read in any order, so the gate is asked for them in the order in which they were
read.
-/

namespace Jiffy

open Js Async MessagingService

namespace Postgres

variable {uuid : String → Option String} {i : Input} {w w' : World} {db db' : Database} {op : Op}
  {j j' : Journal server Failure Op} {id : Nat} {h : List (server.Event Failure)}

/-- The participants of a committed conversation. -/
def membersOf (db : Database) (k : String) : List String :=
  (db.participants.filter fun p => p.pending = none ∧ p.conversationId = k).map fun p => p.userId

/-- The conversation is committed. -/
def Committed (db : Database) (k : String) : Prop := ∃ c ∈ db.conversations, c.id = k ∧ c.pending = none

/-- Call `id` created the conversation, after the gate allowed its caller these
participants. -/
def CreatedBy (db : Database) (j : Journal server Failure Op) (k : String) (id : Nat) : Prop :=
  ∃ u h n t, j id = some (.createConversation u (membersOf db k), h) ∧
    Precedes (gateYes u (membersOf db k)) (ran (.insertConversation n) [(k, t)]) h

/-- Call `id` sent the message, after the gate allowed its sender the participants
of the message's conversation. -/
def SentBy (db : Database) (j : Journal server Failure Op) (m : Message) (id : Nat) : Prop :=
  ∃ input h ids body row, j id = some (.sendMessage input, h) ∧ input.senderId = m.senderId ∧
    ids.Perm (membersOf db m.conversationId) ∧ Precedes (gateYes m.senderId ids)
      (ran (.insertMessage m.conversationId m.senderId body) [row]) h ∧
    (rowToMessage row).SameIdentity m

/-- The message is a stored one, perhaps as it was before it was deleted. -/
def Recorded (db : Database) (m : Message) : Prop :=
  ∃ r ∈ db.messages, (rowToMessage r.row).SameIdentity m

-- ---------------------------------------------------------------------------
-- Members
-- ---------------------------------------------------------------------------

theorem membersOf_eq_rowsOf (db : Database) (k : String) :
    membersOf db k = ((rowsOf db k).filter fun r => r.2 = none).map Prod.fst := by
  unfold membersOf rowsOf
  rw [List.filter_map, List.map_map, List.filter_filter]
  congr 1
  refine List.filter_congr fun p _ => ?_
  simp [Bool.and_comm]

theorem Ledger.created (hl : Ledger db j) {k : String} (hk : Committed db k) : ∃ id, CreatedBy db j k id := by
  obtain ⟨c, hc, rfl, hpending⟩ := hk
  obtain ⟨id, u, ids, n, t, h, hcall, ⟨rest, rfl⟩, hstand⟩ := hl.written c hc
  cases hstand with
  | empty hp | filled hp => exact nomatch hp.symm.trans hpending
  | committed _ hrows =>
    have hids : membersOf db c.id = ids := by
      rw [membersOf_eq_rowsOf, hrows, List.filter_eq_self.mpr, List.map_map]
      · exact List.map_id _
      · intro r hr
        obtain ⟨v, -, rfl⟩ := List.mem_map.mp hr
        rfl
    rw [← hids] at hcall
    refine ⟨id, u, _, n, t, hcall, ?_⟩
    exact Precedes.append ⟨opening u (membersOf db c.id) n, [], rfl, List.mem_cons_self⟩ rest

/-- Committed conversations stay, with their participants. -/
def Settles (db db' : Database) : Prop :=
  ∀ k, Committed db k → Committed db' k ∧ membersOf db' k = membersOf db k

theorem settles_of_same (hc : ∀ c ∈ db.conversations, c ∈ db'.conversations)
    (hp : ∀ k, membersOf db' k = membersOf db k) : Settles db db' := by
  rintro k ⟨c, hmem, hid, hpending⟩
  exact ⟨⟨c, hc c hmem, hid, hpending⟩, hp k⟩

theorem membersOf_update {c u : String} {f : ParticipantRecord → ParticipantRecord}
    (hf : ∀ p, (f p).key = p.key ∧ (f p).pending = p.pending) (db : Database) (k : String) :
    membersOf (updateParticipant db c u f) k = membersOf db k := by
  rw [membersOf_eq_rowsOf, rowsOf_update hf, ← membersOf_eq_rowsOf]

/-- Nothing changes the participants of a committed conversation. -/
theorem Ledger.settles (hI : Integrity uuid db) (hl : Ledger db j) (hj : j id = some (op, h))
    {s : Statement} (hpre : Before op h w (.query s)) {now : Int} {rows : s.Rows}
    (hexec : Postgres.execute uuid i now db s = .ok (rows, db')) : Settles db db' := by
  have hall : ∀ c ∈ db.conversations, c ∈ db.conversations := fun _ hc => hc
  cases s with
  | begin n =>
    cases hexec
    exact settles_of_same hall fun _ => rfl
  | commit n =>
    cases hexec
    rintro k ⟨c, hc, rfl, hpending⟩
    have hne : c.pending ≠ some n := by simp [hpending]
    refine ⟨⟨c, List.mem_map.mpr ⟨c, hc, if_neg hne⟩, rfl, hpending⟩, ?_⟩
    obtain ⟨id', u, ids, m, t, h', -, -, hstand⟩ := hl.written c hc
    rw [membersOf_eq_rowsOf, membersOf_eq_rowsOf]
    exact congrArg _ (congrArg _ ((rowsOf_commit db n _ c.id).trans (hstand.settled hne)))
  | rollback n =>
    cases hexec
    rintro k ⟨c, hc, rfl, hpending⟩
    refine ⟨⟨c, List.mem_filter.mpr ⟨hc, by simp [hpending]⟩, rfl, hpending⟩, ?_⟩
    unfold membersOf
    rw [List.filter_filter]
    congr 1
    refine List.filter_congr fun p _ => ?_
    by_cases hp : p.pending = none <;> simp [hp]
  | insertConversation n =>
    simp only [Postgres.execute, Postgres.insertConversation] at hexec
    split at hexec
    · cases hexec
    · cases hexec
      exact settles_of_same (fun c hc => List.mem_append_left _ hc) fun _ => rfl
  | insertParticipants n k ids =>
    obtain ⟨u, t, rfl, rfl⟩ := hpre
    obtain ⟨⟨start, hstart⟩, c, hc, rfl, -⟩ := hl.inserted hj
    obtain ⟨db₁, hdb, hexec⟩ := bind_ok hexec
    cases hexec
    obtain rfl := insertParticipants_ok (hI.canonical c hc) hdb
    refine settles_of_same hall fun k => ?_
    rw [hstart, Option.map_some, membersOf_eq_rowsOf, membersOf_eq_rowsOf, rowsOf_newRecords,
      List.filter_append]
    split <;> simp
  | updateLastReadAt d c u =>
    obtain ⟨t, -, hexec⟩ := bind_ok hexec
    obtain ⟨_, -, hexec⟩ := bind_ok hexec
    obtain ⟨_, -, hexec⟩ := bind_ok hexec
    cases hexec
    refine settles_of_same hall fun k => ?_
    exact membersOf_update (f := fun p => { p with lastReadAt := some t }) (fun _ => ⟨rfl, rfl⟩) db k
  | updateClearedAt d c u =>
    obtain ⟨t, -, hexec⟩ := bind_ok hexec
    obtain ⟨_, -, hexec⟩ := bind_ok hexec
    obtain ⟨_, -, hexec⟩ := bind_ok hexec
    cases hexec
    refine settles_of_same hall fun k => ?_
    exact membersOf_update (f := fun p => { p with clearedAt := some t }) (fun _ => ⟨rfl, rfl⟩) db k
  | insertMessage c u body =>
    obtain ⟨_, _, -, -, -, rfl⟩ := execute_insertMessage hexec
    exact settles_of_same hall fun _ => rfl
  | updateDeleted k d =>
    obtain ⟨_, -, hexec⟩ := bind_ok hexec
    obtain ⟨_, -, hexec⟩ := bind_ok hexec
    cases hexec
    exact settles_of_same hall fun _ => rfl
  | selectConversation | selectConversationsOf | selectMessage | selectHistory =>
    obtain ⟨_, -, hexec⟩ := bind_ok hexec
    cases hexec
    exact settles_of_same hall fun _ => rfl

-- ---------------------------------------------------------------------------
-- What a call reads and gets back
-- ---------------------------------------------------------------------------

theorem joined_of_id (hids : (db.conversations.map fun c => c.id).Nodup) {c : ConversationRecord}
    (hc : c ∈ db.conversations) (hpending : c.pending = none) :
    ((joined db).filter fun r => r.1.id = c.id).map (fun r => r.2.userId) = membersOf db c.id := by
  have hcommitted : ((db.conversations.filter fun c => c.pending = none).map fun c => c.id).Nodup :=
    hids.sublist (List.filter_sublist.map _)
  have hmem : c ∈ db.conversations.filter fun c => c.pending = none :=
    List.mem_filter.mpr ⟨hc, by simpa using hpending⟩
  rw [filter_joined, filter_key hcommitted hmem, List.flatMap_singleton, List.map_map]
  rfl

/-- A conversation that is read is a committed one, with its participants. -/
theorem read_committed (hids : (db.conversations.map fun c => c.id).Nodup) {now : Int} {c : String}
    {rows : List ConversationParticipantRow}
    (hexec : execute uuid i now db (.selectConversation c) = .ok (rows, db')) {conversation : Conversation}
    (hhead : (rowsToConversations rows).head? = some conversation) :
    Committed db conversation.id ∧ conversation.userIds.Perm (membersOf db conversation.id) := by
  obtain ⟨k, -, hexec⟩ := bind_ok hexec
  cases hexec
  have hperm := i.order.joined_perm ((joined db).filter fun r => r.1.id = k)
  generalize i.order.joined ((joined db).filter fun r => r.1.id = k) = rs at *
  have hin : ∀ r ∈ rs, r ∈ joined db ∧ r.1.id = k := fun r hr => by
    simpa using List.mem_filter.mp (hperm.subset hr)
  have hne : joinedRows rs ≠ [] := by
    intro hnil
    rw [hnil] at hhead
    cases hhead
  have hid : ∀ row ∈ joinedRows rs, row.id = k := by
    intro row hrow
    obtain ⟨r, hr, rfl⟩ := List.mem_map.mp hrow
    exact (hin r hr).2
  obtain ⟨first, -, hread⟩ := head?_rowsToConversations hid hne
  cases hhead.symm.trans hread
  obtain ⟨row, hrow⟩ := List.exists_mem_of_ne_nil _ hne
  obtain ⟨r, hr, -⟩ := List.mem_map.mp hrow
  obtain ⟨hjoined, rfl⟩ := hin r hr
  obtain ⟨hc, hpending, -⟩ := mem_joined.mp hjoined
  refine ⟨⟨r.1, hc, rfl, hpending⟩, ?_⟩
  rw [← joined_of_id hids hc hpending]
  have huserIds : (Conversation.mk r.1.id ((joinedRows rs).map rowToParticipant) first.createdAt none).userIds =
      rs.map fun r => r.2.userId := by
    simp only [Conversation.userIds, joinedRows, List.map_map]
    rfl
  rw [huserIds]
  exact hperm.map _

-- ---------------------------------------------------------------------------
-- Where everything comes from
-- ---------------------------------------------------------------------------

/-- Every message was allowed, and calls only know of what is stored. -/
structure Gated (w : World) (j : Journal server Failure Op) : Prop where
  ledger : Ledger w.database j
  read : ∀ {id op h conversation}, j id = some (op, h) → ReadIn h conversation →
    Committed w.database conversation.id ∧
      conversation.userIds.Perm (membersOf w.database conversation.id)
  returned : ∀ {id op h m}, j id = some (op, h) → ReturnedIn h m → Recorded w.database m
  sent : ∀ r ∈ w.database.messages, Committed w.database r.conversationId ∧
    ∃ id, SentBy w.database j (rowToMessage r.row) id
  published : ∀ m ∈ w.published, Recorded w.database m
  notified : ∀ n ∈ w.notified, Recorded w.database n.1

theorem SameOrigin.identity {r r' : MessageRecord} (h : SameOrigin r r') :
    (rowToMessage r.row).SameIdentity (rowToMessage r'.row) := by
  rw [h]
  rfl

/-- A message that is stored stays stored. -/
theorem Recorded.kept {m : Message} (hs : Recorded db m)
    (hkept : ∀ r ∈ db.messages, ∃ r' ∈ db'.messages, SameOrigin r r') : Recorded db' m := by
  obtain ⟨r, hr, hsame⟩ := hs
  obtain ⟨r', hr', horigin⟩ := hkept r hr
  exact ⟨r', hr', horigin.identity.symm.trans hsame⟩

theorem SentBy.mono {m m' : Message} (hs : SentBy db j m id) (hk : Committed db m.conversationId)
    (hsettles : Settles db db') (hj : j.Extends j') (hsame : m.SameIdentity m') :
    SentBy db' j' m' id := by
  obtain ⟨input, h, ids, body, row, hcall, hu, hids, hyes, hrow⟩ := hs
  obtain ⟨t, hcall'⟩ := hj hcall
  refine ⟨input, h ++ t, ids, body, row, hcall', hu.trans hsame.senderId.symm, ?_, ?_, hrow.trans hsame⟩
  · rw [hsame.conversationId, (hsettles _ hk).2]
    exact hids
  · rw [hsame.conversationId, hsame.senderId]
    exact hyes.append t

/-- One more event: what it makes known is stored, and what it stores was allowed. -/
theorem Gated.step (hg : Gated w j) (hj : j id = some (op, h)) {e : server.Event Failure}
    (hledger : Ledger w'.database (j.set id op (h ++ [e]))) (hsettles : Settles w.database w'.database)
    (hkept : ∀ r ∈ w.database.messages, ∃ r' ∈ w'.database.messages, SameOrigin r r')
    (hread : ∀ {conversation}, ReadIn [e] conversation → Committed w'.database conversation.id ∧
      conversation.userIds.Perm (membersOf w'.database conversation.id))
    (hreturned : ∀ row ∈ messageRows e, Recorded w'.database (rowToMessage row))
    (hsent : ∀ r' ∈ w'.database.messages, (∃ r ∈ w.database.messages, SameOrigin r r') ∨
      Committed w'.database r'.conversationId ∧
        SentBy w'.database (j.set id op (h ++ [e])) (rowToMessage r'.row) id)
    (hpublished : ∀ m ∈ w'.published, m ∈ w.published ∨ Recorded w.database m)
    (hnotified : ∀ n ∈ w'.notified, n ∈ w.notified ∨ Recorded w.database n.1) :
    Gated w' (j.set id op (h ++ [e])) := by
  have hcases : ∀ {id' op' h'}, (j.set id op (h ++ [e])) id' = some (op', h') →
      ∃ h₀, j id' = some (op', h₀) ∧ (h' = h₀ ∨ h' = h₀ ++ [e]) := by
    intro id' op' h' hset
    rcases Journal.set_eq_some hset with ⟨rfl, rfl, rfl⟩ | ⟨-, hj'⟩
    · exact ⟨h, hj, .inr rfl⟩
    · exact ⟨h', hj', .inl rfl⟩
  refine ⟨hledger, fun {id' op' h' conversation} hset hin => ?_, fun {id' op' h' m} hset hin => ?_,
    fun r' hr' => ?_, fun m hm => ?_, fun n hn => ?_⟩
  · obtain ⟨h₀, hj₀, hh⟩ := hcases hset
    have hbefore : ReadIn h₀ conversation ∨ ReadIn [e] conversation := by
      obtain ⟨c, rows, hmem, hhead⟩ := hin
      rcases hh with rfl | rfl
      · exact .inl ⟨c, rows, hmem, hhead⟩
      · rcases List.mem_append.mp hmem with hmem | hmem
        · exact .inl ⟨c, rows, hmem, hhead⟩
        · exact .inr ⟨c, rows, hmem, hhead⟩
    rcases hbefore with hbefore | hnew
    · obtain ⟨hc, hperm⟩ := hg.read hj₀ hbefore
      obtain ⟨hc', hsame⟩ := hsettles _ hc
      exact ⟨hc', hsame.symm ▸ hperm⟩
    · exact hread hnew
  · obtain ⟨h₀, hj₀, hh⟩ := hcases hset
    have hbefore : ReturnedIn h₀ m ∨ ReturnedIn [e] m := by
      obtain ⟨e', hmem, row, hrow, hm⟩ := hin
      rcases hh with rfl | rfl
      · exact .inl ⟨e', hmem, row, hrow, hm⟩
      · rcases List.mem_append.mp hmem with hmem | hmem
        · exact .inl ⟨e', hmem, row, hrow, hm⟩
        · exact .inr ⟨e', hmem, row, hrow, hm⟩
    rcases hbefore with hbefore | ⟨e', hmem, row, hrow, rfl⟩
    · exact (hg.returned hj₀ hbefore).kept hkept
    · exact hreturned row (List.mem_singleton.mp hmem ▸ hrow)
  · rcases hsent r' hr' with ⟨r, hr, horigin⟩ | hnew
    · obtain ⟨hc, id', hs⟩ := hg.sent r hr
      rw [horigin.conversationId]
      exact ⟨(hsettles _ hc).1, id', hs.mono hc hsettles (Journal.extends_set hj [e]) horigin.identity⟩
    · exact ⟨hnew.1, id, hnew.2⟩
  · rcases hpublished m hm with hm | hm
    · exact (hg.published m hm).kept hkept
    · exact hm.kept hkept
  · rcases hnotified n hn with hn | hn
    · exact (hg.notified n hn).kept hkept
    · exact hn.kept hkept

/-- An event that stores nothing and tells the call nothing. -/
theorem Gated.silent (hg : Gated w j) (hj : j id = some (op, h)) {e : server.Event Failure}
    (hledger : Ledger w'.database (j.set id op (h ++ [e]))) (hsettles : Settles w.database w'.database)
    (hm : w'.database.messages = w.database.messages) (hread : ∀ c rows, e ≠ ran (.selectConversation c) rows)
    (hreturned : messageRows e = [])
    (hpublished : ∀ m ∈ w'.published, m ∈ w.published ∨ Recorded w.database m)
    (hnotified : ∀ n ∈ w'.notified, n ∈ w.notified ∨ Recorded w.database n.1) :
    Gated w' (j.set id op (h ++ [e])) := by
  refine hg.step hj hledger hsettles (fun r hr => ⟨r, hm ▸ hr, rfl⟩) ?_ (fun row hrow => ?_)
    (fun r hr => .inl ⟨r, hm ▸ hr, rfl⟩) hpublished hnotified
  · rintro conversation ⟨c, rows, hmem, -⟩
    exact absurd (List.mem_singleton.mp hmem).symm (hread c rows)
  · rw [hreturned] at hrow
    cases hrow

-- ---------------------------------------------------------------------------
-- Every request
-- ---------------------------------------------------------------------------

/-- The messages that a statement returned are stored. -/
theorem returned_stored {now : Int} {s : Statement} {rows : s.Rows}
    (hexec : execute uuid i now db s = .ok (rows, db')) :
    ∀ row ∈ messageRows (ran s rows), Recorded db' (rowToMessage row) := by
  intro row hrow
  cases s with
  | insertMessage c u body =>
    obtain ⟨_, m, -, -, rfl, rfl⟩ := execute_insertMessage hexec
    obtain rfl := List.mem_singleton.mp hrow
    exact ⟨m, List.mem_append_right _ List.mem_cons_self, rfl⟩
  | selectMessage k =>
    obtain ⟨rfl, k', -, hrows, -⟩ := execute_selectMessage hexec
    obtain ⟨m, hm, -, rfl⟩ := hrows row hrow
    exact ⟨m, hm, rfl⟩
  | updateDeleted k d =>
    obtain ⟨k', -, hrows, -⟩ := execute_updateDeleted hexec
    obtain ⟨m, hm, -, -, rfl⟩ := hrows row hrow
    exact ⟨m, hm, rfl⟩
  | _ => cases hrow

theorem Gated.insertMessage (hI : Integrity uuid w.database) (hg : Gated w j) (hj : j id = some (op, h))
    {c u body : String} (hpre : Before op h w (.query (.insertMessage c u body))) {now : Int}
    {rows : List MessageRow}
    (hexec : execute uuid i now w.database (.insertMessage c u body) = .ok (rows, db')) :
    Gated { w with database := db' } (j.set id op (h ++ [ran (.insertMessage c u body) rows])) := by
  have hledger := hg.ledger.execute hI hj hpre hexec
  have hsettles := hg.ledger.settles hI hj hpre hexec
  have hreturned := returned_stored hexec
  obtain ⟨input, conversation, rfl, hu, hread, rfl, hyes⟩ := hpre
  obtain ⟨⟨record, hrecord, hid, hpending⟩, hperm⟩ := hg.read hj hread
  have hcanonical : uuid conversation.id = some conversation.id := hid ▸ hI.canonical record hrecord
  obtain ⟨k, m, hk, hm', rfl, rfl⟩ := execute_insertMessage hexec
  obtain rfl : conversation.id = k := Option.some.inj (hcanonical.symm.trans hk)
  have hm : m.conversationId = conversation.id := congrArg MessageRecord.conversationId hm'
  have hmu : m.senderId = u := congrArg MessageRecord.senderId hm'
  refine hg.step hj hledger hsettles (fun r hr => ⟨r, List.mem_append_left _ hr, rfl⟩) ?_ hreturned
    (fun r hr => ?_) (fun _ => .inl) fun _ => .inl
  · rintro conversation' ⟨c', rows', hmem, -⟩
    exact nomatch List.mem_singleton.mp hmem
  · rcases List.mem_append.mp hr with hr | hr
    · exact .inl ⟨r, hr, rfl⟩
    · obtain rfl := List.mem_singleton.mp hr
      refine .inr ⟨hm.symm ▸ ⟨record, hrecord, hid, hpending⟩, input, _, conversation.userIds, body,
        r.row, j.set_self .., hu.trans hmu.symm, ?_, ?_, rfl⟩
      · rw [show (rowToMessage r.row).conversationId = conversation.id from hm]
        exact hperm
      · rw [show (rowToMessage r.row).conversationId = conversation.id from hm,
          show (rowToMessage r.row).senderId = u from hmu]
        exact Precedes.last hyes _

theorem Gated.query (hI : Integrity uuid w.database) (hg : Gated w j) (hj : j id = some (op, h))
    {s : Statement} (hpre : Before op h w (.query s)) {now : Int} {rows : s.Rows}
    (hexec : execute uuid i now w.database s = .ok (rows, db')) :
    Gated { w with database := db' } (j.set id op (h ++ [ran s rows])) := by
  have hchange := execute_change hexec
  have hsettles := hg.ledger.settles hI hj hpre hexec
  have hstep : (∀ c u body, s ≠ .insertMessage c u body) →
      Gated { w with database := db' } (j.set id op (h ++ [ran s rows])) := by
    intro hs
    refine hg.step hj (hg.ledger.execute hI hj hpre hexec) hsettles (fun r hr => hchange.kept hr) ?_
      (returned_stored hexec) (fun r' hr' => .inl ?_) (fun _ => .inl) fun _ => .inl
    · rintro conversation ⟨c, rows', hmem, hhead⟩
      cases List.mem_singleton.mp hmem
      obtain ⟨hc, hperm⟩ := read_committed hg.ledger.unique hexec hhead
      obtain ⟨hc', hsame⟩ := hsettles _ hc
      exact ⟨hc', hsame.symm ▸ hperm⟩
    · rcases hchange.message hr' with hold | ⟨-, -, c, u, body, hinsert⟩
      · exact hold
      · exact absurd hinsert (hs c u body)
  cases s with
  | insertMessage c u body => exact hg.insertMessage hI hj hpre hexec
  | _ => exact hstep nofun

/-- Every request under its precondition. -/
theorem Gated.perform (hI : Integrity uuid w.database) (hg : Gated w j) (hj : j id = some (op, h))
    {r : ServerCall} (hpre : Before op h w r) :
    Gated (perform uuid i r w).2 (j.set id op (h ++ [⟨r, (perform uuid i r w).1⟩])) := by
  have hledger := hg.ledger.perform (i := i) hI hj hpre
  have hsame : Settles w.database w.database := fun k hk => ⟨hk, rfl⟩
  cases r with
  | query s =>
    rcases perform_query_cases uuid i w s with ⟨e, heq⟩ | ⟨rows, db, hexec, heq⟩
    · rw [heq] at hledger ⊢
      refine hg.silent hj hledger hsame rfl nofun ?_ (fun _ => .inl) fun _ => .inl
      cases s <;> rfl
    · rw [heq]
      exact hg.query hI hj hpre hexec
  | publish m =>
    refine hg.silent hj hledger hsame rfl nofun rfl (fun m' hm' => ?_) fun _ => .inl
    rcases List.mem_append.mp hm' with hm' | hm'
    · exact .inl hm'
    · obtain rfl := List.mem_singleton.mp hm'
      exact .inr (hg.returned hj hpre)
  | notify m ids =>
    refine hg.silent hj hledger hsame rfl nofun rfl (fun _ => .inl) fun n hn => ?_
    rcases List.mem_append.mp hn with hn | hn
    · exact .inl hn
    · obtain rfl := List.mem_singleton.mp hn
      exact .inr (hg.returned hj hpre)
  | connect | release | canCreateConversation | newDate | handleUpgrade | register | unregister
  | socketsOf | isOpen | send =>
    exact hg.silent hj hledger hsame rfl nofun rfl (fun _ => .inl) fun _ => .inl

-- ---------------------------------------------------------------------------
-- Runs
-- ---------------------------------------------------------------------------

theorem Ledger.arrive (hl : Ledger db j) (hj : j id = none) (op : Op) : Ledger db (j.set id op []) := by
  refine ⟨hl.unique, fun {id' op' h' n} hset hmem => ?_, fun {id₁ id₂ op₁ op₂ h₁ h₂ n} hset₁ hmem₁ hset₂
    hmem₂ => ?_, fun {id' u ids n} hset => ?_, fun {id' u ids n} hset => ?_,
    fun {id' u ids n k t} hset => ?_, fun c hc => ?_⟩
  · rcases Journal.set_eq_some hset with ⟨-, -, rfl⟩ | ⟨-, hj'⟩
    · cases hmem
    · exact hl.given hj' hmem
  · rcases Journal.set_eq_some hset₁ with ⟨-, -, rfl⟩ | ⟨-, hj₁⟩
    · cases hmem₁
    · rcases Journal.set_eq_some hset₂ with ⟨-, -, rfl⟩ | ⟨-, hj₂⟩
      · cases hmem₂
      · exact hl.owner hj₁ hmem₁ hj₂ hmem₂
  · exact hl.connected ((Journal.set_eq_some hset).resolve_left nofun).2
  · exact hl.begun ((Journal.set_eq_some hset).resolve_left nofun).2
  · exact hl.inserted ((Journal.set_eq_some hset).resolve_left nofun).2
  · obtain ⟨id', u, ids, n, t, h', hcall, hrest⟩ := hl.written c hc
    have hne : id' ≠ id := fun hid => nomatch (hid ▸ hcall).symm.trans hj
    exact ⟨id', u, ids, n, t, h', (j.set_of_ne hne op []).trans hcall, hrest⟩

theorem Gated.arrive (hg : Gated w j) (hj : j id = none) (op : Op) : Gated w (j.set id op []) := by
  refine ⟨hg.ledger.arrive hj op, fun {id' op' h' conversation} hset hin => ?_,
    fun {id' op' h' m} hset hin => ?_, fun r hr => ?_, hg.published, hg.notified⟩
  · rcases Journal.set_eq_some hset with ⟨-, -, rfl⟩ | ⟨-, hj'⟩
    · obtain ⟨c, rows, hmem, -⟩ := hin
      cases hmem
    · exact hg.read hj' hin
  · rcases Journal.set_eq_some hset with ⟨-, -, rfl⟩ | ⟨-, hj'⟩
    · obtain ⟨e, hmem, -⟩ := hin
      cases hmem
    · exact hg.returned hj' hin
  · obtain ⟨hc, id', hs⟩ := hg.sent r hr
    exact ⟨hc, id', hs.mono hc (fun k hk => ⟨hk, rfl⟩) (Journal.extends_new hj op) rfl⟩

theorem gated_init (clock : Int) : Gated (World.init clock) fun _ => none := by
  refine ⟨?_, nofun, nofun, nofun, nofun, nofun⟩
  exact ⟨List.nodup_nil, nofun, nofun, nofun, nofun, nofun, nofun⟩

/-- Everything is allowed, all along every run. -/
def provenance (uuid : String → Option String) : (books uuid).Chronicle fun _ => True where
  Holds := Gated
  tick _ _ _ hg := ⟨hg.ledger, hg.read, hg.returned, hg.sent, hg.published, hg.notified⟩
  arrive {op _ _ _ _} harr hj hg := by
    cases harr
    exact hg.arrive hj op
  perform _ hI _ hpre hj hg := hg.perform hI hj hpre

theorem gated_runs {clock : Int} {ls : List (Label Input Op)} {c : Config server Failure Reply World Op}
    (h : (system uuid).runs (.idle (World.init clock)) ls = some c) :
    (books uuid).Holds c ∧ Gated c.world c.journal := by
  have hinit : (books uuid).Holds (.idle (World.init clock) : Config server Failure Reply World Op) :=
    (books uuid).holds_idle (integrity_init uuid clock)
  exact ⟨((books uuid).runs_holds hinit h).1,
    (provenance uuid).runs (fun _ _ => trivial) hinit (gated_init clock) h⟩

/-- The message is stored, or it was published or notified. -/
def Known (w : World) (m : Message) : Prop :=
  (∃ r ∈ w.database.messages, m = rowToMessage r.row) ∨ m ∈ w.published ∨
    ∃ recipients, (m, recipients) ∈ w.notified

theorem Gated.sender {m : Message} (hg : Gated w j) (hm : Known w m) : ∃ id, SentBy w.database j m id := by
  have hstored : Recorded w.database m := by
    rcases hm with ⟨r, hr, rfl⟩ | hm | ⟨recipients, hm⟩
    · exact ⟨r, hr, rfl⟩
    · exact hg.published m hm
    · exact hg.notified _ hm
  obtain ⟨r, hr, hsame⟩ := hstored
  obtain ⟨hc, id, hs⟩ := hg.sent r hr
  exact ⟨id, hs.mono hc (fun k hk => ⟨hk, rfl⟩) (fun _ _ _ hj => ⟨[], by rw [hj, List.append_nil]⟩) hsame⟩

/-- A message that the gate allows no more was sent by a call of before. -/
theorem SentBy.began {ls : List (Label Input Op)} {c c' : Config server Failure Reply World Op}
    {m : Message} (hs : SentBy c'.world.database c'.journal m id)
    (hnever : ∀ l ∈ ls, ∀ ids, ids.Perm (membersOf c'.world.database m.conversationId) →
      l.input.gate m.senderId ids ≠ .ok true)
    (hc : (books uuid).Holds c) (h : (system uuid).runs c ls = some c') : c.calls id ≠ none := by
  obtain ⟨input, hist, ids, body, row, hcall, -, hids, hyes, -⟩ := hs
  intro hnew
  refine (books uuid).runs_silence (fun l hl s hperform => hnever l hl ids hids ?_) hc h hnew hcall
    hyes.mem_first
  have hgate : (l.input.gate m.senderId ids).mapError Failure.port = .ok true := hperform
  revert hgate
  cases l.input.gate m.senderId ids with
  | error e => exact fun h => by cases h
  | ok b => exact fun h => congrArg _ (Except.ok.inj h)

/-- What the gate allowed before the end of a run, `c₂`, and what it kept back
since `c₁`. -/
structure GateSound (c₁ : Config server Failure Reply World Op) (ls : List (Label Input Op))
    (c₂ : Config server Failure Reply World Op) : Prop where
  created : ∀ k, Committed c₂.world.database k → ∃ id, CreatedBy c₂.world.database c₂.journal k id
  sent : ∀ m, Known c₂.world m → ∃ id, SentBy c₂.world.database c₂.journal m id
  revoked : ∀ m id, SentBy c₂.world.database c₂.journal m id →
    (∀ l ∈ ls, ∀ ids, ids.Perm (membersOf c₂.world.database m.conversationId) →
      l.input.gate m.senderId ids ≠ .ok true) → c₁.calls id ≠ none

/-- Nothing is stored, published or notified that the gate did not allow within the
same call, whatever it answers and however the calls interleave. -/
theorem gate_sound (uuid : String → Option String) (clock : Int) :
    (∀ ls₁ ls₂ c₁ c₂, InMemory.system.runs (.idle (Jiffy.World.init clock)) ls₁ = some c₁ →
      InMemory.system.runs c₁ ls₂ = some c₂ → InMemory.GateSound c₁ ls₂ c₂) ∧
    ∀ ls₁ ls₂ c₁ c₂, (system uuid).runs (.idle (World.init clock)) ls₁ = some c₁ →
      (system uuid).runs c₁ ls₂ = some c₂ → GateSound c₁ ls₂ c₂ := by
  refine ⟨fun ls₁ ls₂ c₁ c₂ => InMemory.gateSound, fun ls₁ ls₂ c₁ c₂ h₁ h₂ => ?_⟩
  obtain ⟨hholds, hgated⟩ := gated_runs h₁
  have hend := (provenance uuid).runs (fun _ _ => trivial) hholds hgated h₂
  exact ⟨fun k hk => hend.ledger.created hk, fun m hm => hend.sender hm,
    fun m id hsent hnever => hsent.began hnever hholds h₂⟩

/-- Bob's message is stored, then the gate turns and his next one is not. -/
theorem gate_sound_revoked : ∃ (c₁ : InMemory.State) (ls : List (Label Jiffy.Input Op))
    (c₂ : InMemory.State) (d₁ : Config server Failure Reply World Op) (ms : List (Label Input Op))
    (d₂ : Config server Failure Reply World Op),
      c₂.world.messages.messages.length = 1 ∧ (∀ l ∈ ls, ∀ u ids, l.input.gate u ids = .ok false) ∧
      d₂.world.database.messages.length = 1 ∧ (∀ l ∈ ms, ∀ u ids, l.input.gate u ids = .ok false) ∧
      InMemory.GateSound c₁ ls c₂ ∧ GateSound d₁ ms d₂ := by
  let ls₁ : List (Label Jiffy.Input Op) :=
    Label.turns 0 (.createConversation "ann" ["ann", "bob"]) (.allowAll 1 "c") 1 ++
    [.resume 0 (.allowAll 1 "x")] ++
    Label.turns 1 (.sendMessage ⟨"c", "bob", "hello"⟩) (.allowAll 2 "m") 3
  let ls₂ : List (Label Jiffy.Input Op) :=
    Label.turns 2 (.sendMessage ⟨"c", "bob", "again"⟩)
      { Jiffy.Input.allowAll 3 "n" with gate := fun _ _ => .ok false } 3
  let ms₁ : List (Label Input Op) :=
    Label.turns 0 (.createConversation "ann" ["ann", "bob"]) (.calm 100 "c") 6 ++
    List.replicate 5 (.resume 0 (.calm 100 "x")) ++
    Label.turns 1 (.sendMessage ⟨"c", "bob", "hello"⟩) (.calm 1500 "m") 5 ++
    [.resume 1 (.calm 1500 "x")]
  let ms₂ : List (Label Input Op) :=
    Label.turns 2 (.sendMessage ⟨"c", "bob", "again"⟩)
      { Input.calm 1600 "n" with gate := fun _ _ => .ok false } 4
  have h := gate_sound some 0
  have hls : ∀ l ∈ ls₂, ∀ u ids, l.input.gate u ids = .ok false := by
    simp [ls₂, Label.turns, Label.input]
  have hms : ∀ l ∈ ms₂, ∀ u ids, l.input.gate u ids = .ok false := by
    simp [ms₂, Label.turns, Label.input]
  have h₁ : InMemory.system.runs (.idle (Jiffy.World.init 0)) ls₁ = some _ := rfl
  have h₂ : (system some).runs (.idle (World.init 0)) ms₁ = some _ := rfl
  exact ⟨_, ls₂, _, _, ms₂, _, rfl, hls, rfl, hms, h.1 ls₁ ls₂ _ _ h₁ rfl, h.2 ms₁ ms₂ _ _ h₂ rfl⟩

end Postgres

end Jiffy
