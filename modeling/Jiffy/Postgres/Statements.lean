-- SUMMARY: What a statement of the Postgres stores can do to the tables, and what all of them leave alone.
import Jiffy.Adapters.Postgres

/-!
# What statements do

One inversion lemma for the execution of a statement, and the facts about the
tables that follow from it. Later files never unfold a statement that writes.
-/

namespace Jiffy

open Js Async

namespace Postgres

variable {uuid : String → Option String}

def isHex (c : Char) : Bool := c.isDigit || ('a' ≤ c && c ≤ 'f')

/-- A UUID in its usual format, in lower case. -/
def canonicalUuid (text : String) : Option String :=
  let cs := text.toList.map Char.toLower
  let groups := cs.splitOn '-'
  if groups.map List.length = [8, 4, 4, 4, 12] ∧ groups.all fun g => g.all isHex then
    some (String.ofList cs)
  else none

theorem bind_ok {ε α β : Type} {x : Except ε α} {f : α → Except ε β} {b : β}
    (h : x >>= f = .ok b) : ∃ a, x = .ok a ∧ f a = .ok b := by
  cases x with
  | error e => cases h
  | ok a => exact ⟨a, rfl, h⟩

theorem timestampParam_ok {d : Date} {t : Int} (h : timestampParam d = .ok t) :
    ∃ ms, d.time = some ms ∧ t = ms * 1000 := by
  unfold timestampParam at h
  split at h
  · cases h
  · next ms hms =>
    split at h
    · cases h
      exact ⟨ms, hms, rfl⟩
    · cases h

theorem uuidParam_ok {text id : String} (h : uuidParam uuid text = .ok id) : uuid text = some id := by
  unfold uuidParam at h
  split at h
  · cases h
    assumption
  · cases h

theorem textParam_ok {text s : String} (h : textParam text = .ok s) : s = text := by
  unfold textParam at h
  split at h
  · cases h
  · cases h
    rfl

/-- What a statement makes of a committed row of a participant. -/
def onRow (uuid : String → Option String) : Statement → ParticipantRecord → ParticipantRecord
  | .updateLastReadAt d c u, p =>
    if uuid c = some p.conversationId ∧ u = p.userId then
      { p with lastReadAt := d.time.map fun ms => ms * 1000 }
    else
      p
  | .updateClearedAt d c u, p =>
    if uuid c = some p.conversationId ∧ u = p.userId then
      { p with clearedAt := d.time.map fun ms => ms * 1000 }
    else
      p
  | _, p => p

@[simp] theorem onRow_pending (s : Statement) (p : ParticipantRecord) :
    (onRow uuid s p).pending = p.pending := by
  cases s <;> simp only [onRow] <;> split <;> rfl

@[simp] theorem onRow_key (s : Statement) (p : ParticipantRecord) : (onRow uuid s p).key = p.key := by
  cases s <;> simp only [onRow] <;> split <;> rfl

/-- What a statement at time `now` leaves in the tables of participants and
messages. -/
inductive Change (uuid : String → Option String) (i : Input) (now : Int) (db : Database) :
    Statement → Database → Prop where
  /-- Statements about conversations and transactions, and those that only read. -/
  | untouched {s : Statement} {db' : Database} (hp : db'.participants = db.participants)
    (hm : db'.messages = db.messages) (hs : ∀ p, onRow uuid s p = p) : Change uuid i now db s db'
  | committed {client : Nat} {db' : Database}
    (hp : db'.participants = db.participants.map fun p =>
      if p.pending = some client then { p with pending := none } else p)
    (hm : db'.messages = db.messages) : Change uuid i now db (.commit client) db'
  | rolledBack {client : Nat} {db' : Database}
    (hp : db'.participants = db.participants.filter fun p => p.pending ≠ some client)
    (hm : db'.messages = db.messages) : Change uuid i now db (.rollback client) db'
  | joined {client : Nat} {c : String} {userIds : List String} {records : List ParticipantRecord}
    (hkeys : ((db.participants ++ records).map ParticipantRecord.key).Nodup)
    (hnew : ∀ p ∈ records, p.clearedAt = none) :
    Change uuid i now db (.insertParticipants client c userIds)
      { db with participants := db.participants ++ records }
  | marked {d : Date} {c u k : String} {t : Int} (hd : timestampParam d = .ok t)
    (hc : uuid c = some k) : Change uuid i now db (.updateLastReadAt d c u)
      (updateParticipant db k u fun p => { p with lastReadAt := some t })
  | cleared {d : Date} {c u k : String} {t : Int} (hd : timestampParam d = .ok t)
    (hc : uuid c = some k) : Change uuid i now db (.updateClearedAt d c u)
      (updateParticipant db k u fun p => { p with clearedAt := some t })
  | sent {c k u body : String} (hc : uuid c = some k) (hfresh : ∀ m ∈ db.messages, m.id ≠ i.uuid) :
    Change uuid i now db (.insertMessage c u body)
      { db with messages := db.messages ++ [⟨i.uuid, k, u, body, now, none⟩] }
  | tombstoned {id k : String} {d : Date} {t : Int} (hid : uuid id = some k)
    (hd : timestampParam d = .ok t) : Change uuid i now db (.updateDeleted id d)
      { db with messages := db.messages.map fun m =>
        if decide (m.id = k ∧ m.deletedAt = none) then tombstoneRecord m t else m }

/-- Everything a statement can do. -/
theorem execute_change {i : Input} {now : Int} {db db' : Database} {s : Statement} {rows : s.Rows}
    (h : execute uuid i now db s = .ok (rows, db')) : Change uuid i now db s db' := by
  cases s with
  | begin client =>
    cases h
    exact .untouched rfl rfl fun _ => rfl
  | commit client =>
    cases h
    exact .committed rfl rfl
  | rollback client =>
    cases h
    exact .rolledBack rfl rfl
  | insertConversation client =>
    simp only [execute, insertConversation] at h
    split at h
    · cases h
    · cases h
      exact .untouched rfl rfl fun _ => rfl
  | insertParticipants client c userIds =>
    obtain ⟨db₁, hdb, h⟩ := bind_ok h
    cases h
    obtain ⟨k, hk, hdb⟩ := bind_ok hdb
    obtain ⟨ids, hids, hdb⟩ := bind_ok hdb
    simp only at hdb
    split at hdb
    · cases hdb
    split at hdb
    · next hkeys =>
      cases hdb
      refine .joined hkeys ?_
      intro p hp
      obtain ⟨u, -, rfl⟩ := List.mem_map.mp hp
      rfl
    · cases hdb
  | selectConversation id =>
    obtain ⟨k, hk, h⟩ := bind_ok h
    cases h
    exact .untouched rfl rfl fun _ => rfl
  | selectConversationsOf u =>
    obtain ⟨k, hk, h⟩ := bind_ok h
    cases h
    exact .untouched rfl rfl fun _ => rfl
  | updateLastReadAt d c u =>
    obtain ⟨t, ht, h⟩ := bind_ok h
    obtain ⟨k, hk, h⟩ := bind_ok h
    obtain ⟨u', hu, h⟩ := bind_ok h
    obtain rfl := textParam_ok hu
    cases h
    exact .marked ht (uuidParam_ok hk)
  | updateClearedAt d c u =>
    obtain ⟨t, ht, h⟩ := bind_ok h
    obtain ⟨k, hk, h⟩ := bind_ok h
    obtain ⟨u', hu, h⟩ := bind_ok h
    obtain rfl := textParam_ok hu
    cases h
    exact .cleared ht (uuidParam_ok hk)
  | insertMessage c u body =>
    obtain ⟨k, hk, h⟩ := bind_ok h
    obtain ⟨u', hu, h⟩ := bind_ok h
    obtain ⟨body', hbody, h⟩ := bind_ok h
    obtain rfl := textParam_ok hu
    obtain rfl := textParam_ok hbody
    simp only at h
    split at h
    · cases h
    · next hfresh =>
      split at h
      · cases h
        exact .sent (uuidParam_ok hk) (by simpa using hfresh)
      · cases h
  | selectMessage id =>
    obtain ⟨k, hk, h⟩ := bind_ok h
    cases h
    exact .untouched rfl rfl fun _ => rfl
  | updateDeleted id d =>
    obtain ⟨k, hk, h⟩ := bind_ok h
    obtain ⟨t, ht, h⟩ := bind_ok h
    cases h
    exact .tombstoned (uuidParam_ok hk) ht
  | selectHistory query =>
    obtain ⟨rows, hrows, h⟩ := bind_ok h
    cases h
    exact .untouched rfl rfl fun _ => rfl

theorem execute_updateClearedAt {i : Input} {now : Int} {db db' : Database} {t : Int} {c u : String}
    (h : execute uuid i now db (.updateClearedAt (Date.of t) c u) = .ok ((), db')) :
    timestampParam (Date.of t) = .ok (t * 1000) ∧ ∃ k, uuid c = some k ∧
      db' = updateParticipant db k u fun p => { p with clearedAt := some (t * 1000) } := by
  obtain ⟨at_, hat, h⟩ := bind_ok h
  obtain ⟨k, hk, h⟩ := bind_ok h
  obtain ⟨u', hu, h⟩ := bind_ok h
  obtain rfl := textParam_ok hu
  obtain ⟨ms, hms, rfl⟩ := timestampParam_ok hat
  cases hms
  cases h
  exact ⟨hat, k, uuidParam_ok hk, rfl⟩

theorem execute_insertMessage {i : Input} {now : Int} {db db' : Database} {c u body : String}
    {rows : List MessageRow}
    (h : execute uuid i now db (.insertMessage c u body) = .ok (rows, db')) :
    ∃ (k : String) (m : MessageRecord), uuid c = some k ∧ m = ⟨i.uuid, k, u, body, now, none⟩ ∧
      rows = [m.row] ∧ db' = { db with messages := db.messages ++ [m] } := by
  obtain ⟨k, hk, h⟩ := bind_ok h
  obtain ⟨u', hu, h⟩ := bind_ok h
  obtain ⟨body', hbody, h⟩ := bind_ok h
  obtain rfl := textParam_ok hu
  obtain rfl := textParam_ok hbody
  simp only at h
  split at h
  · cases h
  split at h
  · cases h
    exact ⟨k, _, uuidParam_ok hk, rfl, rfl, rfl⟩
  · cases h

/-- A message that a SELECT by its id returned. -/
theorem execute_selectMessage {i : Input} {now : Int} {db db' : Database} {messageId : String}
    {rows : List MessageRow}
    (hexec : execute uuid i now db (.selectMessage messageId) = .ok (rows, db')) :
    db' = db ∧ ∃ k, uuid messageId = some k ∧
      (∀ row ∈ rows, ∃ r ∈ db.messages, r.id = k ∧ row = r.row) ∧
      ∀ r ∈ db.messages, r.id = k → r.row ∈ rows := by
  obtain ⟨k, hk, hexec⟩ := bind_ok hexec
  cases hexec
  refine ⟨rfl, k, uuidParam_ok hk, fun row hrow => ?_, fun r hr hid => ?_⟩
  · obtain ⟨r, hr, rfl⟩ := List.mem_map.mp hrow
    obtain ⟨hr, hid⟩ := List.mem_filter.mp hr
    exact ⟨r, hr, of_decide_eq_true hid, rfl⟩
  · exact List.mem_map_of_mem (List.mem_filter.mpr ⟨hr, decide_eq_true hid⟩)

/-- What the UPDATE of a deletion returns and leaves. -/
theorem execute_updateDeleted {i : Input} {now : Int} {db db' : Database} {messageId : String} {d : Date}
    {rows : List MessageRow}
    (hexec : execute uuid i now db (.updateDeleted messageId d) = .ok (rows, db')) :
    ∃ k, uuid messageId = some k ∧
      (∀ row ∈ rows, ∃ r ∈ db'.messages, r.id = k ∧ r.deletedAt ≠ none ∧ row = r.row) ∧
      (rows = [] → ∀ r ∈ db'.messages, r.id = k → r.deletedAt ≠ none) := by
  obtain ⟨k, hk, hexec⟩ := bind_ok hexec
  obtain ⟨t, -, hexec⟩ := bind_ok hexec
  cases hexec
  refine ⟨k, uuidParam_ok hk, fun row hrow => ?_, fun hnil r hr hid hnone => ?_⟩
  · obtain ⟨r, hr, rfl⟩ := List.mem_map.mp hrow
    obtain ⟨hr, hhit⟩ := List.mem_filter.mp hr
    refine ⟨tombstoneRecord r t, List.mem_map.mpr ⟨r, hr, if_pos hhit⟩, ?_, by simp [tombstoneRecord], rfl⟩
    exact (of_decide_eq_true hhit).1
  · obtain ⟨r₀, hr₀, rfl⟩ := List.mem_map.mp hr
    have hnot := List.filter_eq_nil_iff.mp (List.map_eq_nil_iff.mp hnil) r₀ hr₀
    rw [if_neg hnot] at hid hnone
    exact hnot (decide_eq_true ⟨hid, hnone⟩)

-- ---------------------------------------------------------------------------
-- What follows from it
-- ---------------------------------------------------------------------------

/-- What holds of the tables at all times: the primary keys, and that only a
`Date` is ever written to `cleared_at`. -/
structure Consistent (db : Database) : Prop where
  keys : (db.participants.map ParticipantRecord.key).Nodup
  ids : (db.messages.map fun m => m.id).Nodup
  millis : ∀ p ∈ db.participants, ∀ t, p.clearedAt = some t → t % 1000 = 0

section Change

variable {i : Input} {now : Int} {db db' : Database} {s : Statement}

theorem key_updateParticipant {k u : String} {f : ParticipantRecord → ParticipantRecord}
    (hf : ∀ p, (f p).key = p.key) :
    (updateParticipant db k u f).participants.map ParticipantRecord.key =
      db.participants.map ParticipantRecord.key := by
  simp only [updateParticipant, List.map_map]
  apply List.map_congr_left
  intro p _
  simp only [Function.comp]
  split
  · exact hf p
  · rfl

theorem Change.keys (h : Change uuid i now db s db')
    (hk : (db.participants.map ParticipantRecord.key).Nodup) :
    (db'.participants.map ParticipantRecord.key).Nodup := by
  cases h with
  | untouched hp => exact hp ▸ hk
  | @committed client _ hp =>
    have hmap : db'.participants.map ParticipantRecord.key =
        db.participants.map ParticipantRecord.key := by
      rw [hp, List.map_map]
      apply List.map_congr_left
      intro p _
      simp only [Function.comp]
      split <;> rfl
    exact hmap ▸ hk
  | rolledBack hp =>
    rw [hp]
    exact hk.sublist (List.filter_sublist.map _)
  | joined hkeys => exact hkeys
  | marked | cleared =>
    refine (congrArg List.Nodup (key_updateParticipant ?_)).mpr hk
    intro p
    rfl
  | sent | tombstoned => exact hk

theorem Change.ids (h : Change uuid i now db s db') (hid : (db.messages.map fun m => m.id).Nodup) :
    (db'.messages.map fun m => m.id).Nodup := by
  cases h with
  | untouched _ hm | committed _ hm | rolledBack _ hm => exact hm ▸ hid
  | joined | marked | cleared => exact hid
  | sent _ hfresh =>
    simp only [List.map_append, List.map_cons, List.map_nil]
    refine List.nodup_append.mpr ⟨hid, List.nodup_singleton _, ?_⟩
    intro a ha b hb hab
    obtain ⟨m, hm, rfl⟩ := List.mem_map.mp ha
    exact hfresh m hm (hab.trans (List.mem_singleton.mp hb))
  | tombstoned =>
    rw [List.map_map]
    convert hid using 2
    funext m
    simp only [Function.comp]
    split <;> rfl

/-- A `cleared_at` was there before, or is the `Date` of a deletion. -/
theorem Change.clearedAt (h : Change uuid i now db s db') {p : ParticipantRecord}
    (hp : p ∈ db'.participants) {t : Int} (ht : p.clearedAt = some t) :
    (∃ p' ∈ db.participants, p'.clearedAt = some t) ∨
      ∃ d c u ms, s = .updateClearedAt d c u ∧ d.time = some ms ∧ t = ms * 1000 := by
  cases h with
  | untouched hp' => exact .inl ⟨p, hp' ▸ hp, ht⟩
  | committed hp' =>
    rw [hp'] at hp
    obtain ⟨q, hq, rfl⟩ := List.mem_map.mp hp
    refine .inl ⟨q, hq, ?_⟩
    revert ht
    split <;> exact id
  | rolledBack hp' =>
    rw [hp'] at hp
    exact .inl ⟨p, List.mem_of_mem_filter hp, ht⟩
  | joined _ hnew =>
    rcases List.mem_append.mp hp with hp | hp
    · exact .inl ⟨p, hp, ht⟩
    · rw [hnew p hp] at ht
      cases ht
  | marked =>
    obtain ⟨q, hq, rfl⟩ := List.mem_map.mp hp
    refine .inl ⟨q, hq, ?_⟩
    revert ht
    split <;> exact id
  | cleared hd =>
    obtain ⟨q, hq, rfl⟩ := List.mem_map.mp hp
    revert ht
    split
    · rintro ⟨⟩
      obtain ⟨ms, hms, rfl⟩ := timestampParam_ok hd
      exact .inr ⟨_, _, _, ms, rfl, hms, rfl⟩
    · exact fun ht => .inl ⟨q, hq, ht⟩
  | sent | tombstoned => exact .inl ⟨p, hp, ht⟩

theorem Change.millis (h : Change uuid i now db s db')
    (hc : ∀ p ∈ db.participants, ∀ t, p.clearedAt = some t → t % 1000 = 0) :
    ∀ p ∈ db'.participants, ∀ t, p.clearedAt = some t → t % 1000 = 0 := by
  intro p hp t ht
  rcases h.clearedAt hp ht with ⟨p', hp', ht'⟩ | ⟨-, -, -, ms, -, -, rfl⟩
  · exact hc p' hp' t ht'
  · exact Int.mul_emod_left ms 1000

theorem Change.consistent (h : Change uuid i now db s db') (hdb : Consistent db) : Consistent db' :=
  ⟨h.keys hdb.keys, h.ids hdb.ids, h.millis hdb.millis⟩

/-- A participant of a conversation has one row. -/
theorem Consistent.eq_of_key (hdb : Consistent db) {p p' : ParticipantRecord}
    (hp : p ∈ db.participants) (hp' : p' ∈ db.participants) (hkey : p.key = p'.key) : p = p' :=
  List.inj_on_of_nodup_map hdb.keys hp hp' hkey

/-- A committed row stays, with the field set that the statement sets. -/
theorem Change.row (h : Change uuid i now db s db') {p : ParticipantRecord}
    (hp : p ∈ db.participants) (hpending : p.pending = none) : onRow uuid s p ∈ db'.participants := by
  cases h with
  | untouched hp' _ hs =>
    rw [hs, hp']
    exact hp
  | committed hp' =>
    rw [hp']
    exact List.mem_map.mpr ⟨p, hp, by simp [hpending, onRow]⟩
  | rolledBack hp' =>
    rw [hp']
    exact List.mem_filter.mpr ⟨hp, by simp [hpending]⟩
  | joined => exact List.mem_append_left _ hp
  | marked hd hc | cleared hd hc =>
    obtain ⟨ms, hms, rfl⟩ := timestampParam_ok hd
    refine List.mem_map.mpr ⟨p, hp, ?_⟩
    simp only [onRow, hc, hms, hpending, Option.some.injEq, true_and, eq_comm, Option.map_some]
  | sent | tombstoned => exact hp

/-- Only one statement moves the `cleared_at` of a committed row. -/
theorem Change.participant (h : Change uuid i now db s db') {p : ParticipantRecord}
    (hp : p ∈ db.participants) (hpending : p.pending = none) :
    ∃ p' ∈ db'.participants, p'.pending = none ∧ p'.key = p.key ∧ (p'.clearedAt = p.clearedAt ∨
      ∃ d c ms, s = .updateClearedAt d c p.userId ∧ uuid c = some p.conversationId ∧
        d.time = some ms ∧ p'.clearedAt = some (ms * 1000)) := by
  refine ⟨_, h.row hp hpending, (onRow_pending s p).trans hpending, onRow_key s p, ?_⟩
  cases h with
  | untouched _ _ hs => exact .inl (congrArg ParticipantRecord.clearedAt (hs p))
  | marked =>
    left
    simp only [onRow]
    split <;> rfl
  | @cleared d c u k t hd hc =>
    obtain ⟨ms, hms, rfl⟩ := timestampParam_ok hd
    simp only [onRow, hms, Option.map_some]
    split
    · next hrow => exact .inr ⟨d, c, ms, by rw [hrow.2], hrow.1, hms, rfl⟩
    · exact .inl rfl
  | committed | rolledBack | joined | sent | tombstoned => exact .inl rfl

/-- The same message, up to its body and its deletion. -/
def SameOrigin (m m' : MessageRecord) : Prop :=
  m' = { m with body := m'.body, deletedAt := m'.deletedAt }

theorem SameOrigin.conversationId {m m' : MessageRecord} (h : SameOrigin m m') :
    m'.conversationId = m.conversationId := (congrArg MessageRecord.conversationId h).trans rfl

/-- A stored message stays. -/
theorem Change.kept (h : Change uuid i now db s db') {m : MessageRecord} (hm : m ∈ db.messages) :
    ∃ m' ∈ db'.messages, SameOrigin m m' := by
  cases h with
  | untouched _ hm' | committed _ hm' | rolledBack _ hm' => exact ⟨m, hm' ▸ hm, rfl⟩
  | joined | marked | cleared => exact ⟨m, hm, rfl⟩
  | sent => exact ⟨m, List.mem_append_left _ hm, rfl⟩
  | tombstoned =>
    refine ⟨_, List.mem_map_of_mem hm, ?_⟩
    split <;> rfl

/-- A stored message was there before, or is new. -/
theorem Change.message (h : Change uuid i now db s db') {m' : MessageRecord}
    (hm' : m' ∈ db'.messages) :
    (∃ m ∈ db.messages, SameOrigin m m') ∨ m'.id = i.uuid ∧ m'.createdAt = now ∧
      ∃ c u body, s = .insertMessage c u body := by
  cases h with
  | untouched _ hm | committed _ hm | rolledBack _ hm => exact .inl ⟨m', hm ▸ hm', rfl⟩
  | joined | marked | cleared => exact .inl ⟨m', hm', rfl⟩
  | sent =>
    rcases List.mem_append.mp hm' with hm' | hm'
    · exact .inl ⟨m', hm', rfl⟩
    · rw [List.mem_singleton] at hm'
      subst hm'
      exact .inr ⟨rfl, rfl, _, _, _, rfl⟩
  | tombstoned =>
    obtain ⟨m, hm, rfl⟩ := List.mem_map.mp hm'
    refine .inl ⟨m, hm, ?_⟩
    split <;> rfl

end Change

end Postgres

end Jiffy
