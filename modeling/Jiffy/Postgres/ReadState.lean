-- SUMMARY: How far a participant has read, in both pairs of stores: the instant that was written last, in whatever order the instants come.
import Jiffy.InMemory.ReadState
import Jiffy.Postgres.ClearOrder
import Jiffy.Postgres.Integrity

/-!
# Read state on both stores

Both stores overwrite `lastReadAt` with whatever instant a `markRead` brings,
so it goes back when an earlier instant is written after a later one.
-/

namespace Jiffy

open Js Async

namespace Postgres

variable {uuid : String → Option String} {i : Input} {w : World} {db : Database} {k u : String}
  {p : ParticipantRecord}

-- ---------------------------------------------------------------------------
-- The Postgres store
-- ---------------------------------------------------------------------------

/-- The committed row of `u` in conversation `k`. -/
def participantRow (db : Database) (k u : String) : Option ParticipantRecord :=
  db.participants.find? fun p => p.pending = none ∧ p.key = (k, u)

/-- The `Date` that the driver hands over for the row. -/
def readAt (p : ParticipantRecord) : Option Date := p.lastReadAt.map fun t => Date.of (toMillis t)

def lastReadAt (db : Database) (k u : String) : Option Date := (participantRow db k u).bind readAt

theorem participantRow_eq_some (hkeys : (db.participants.map ParticipantRecord.key).Nodup) :
    participantRow db k u = some p ↔
    p ∈ db.participants ∧ p.pending = none ∧ p.key = (k, u) := by
  constructor
  · intro h
    have hp := List.find?_some h
    simp only [decide_eq_true_eq] at hp
    exact ⟨List.mem_of_find?_eq_some h, hp⟩
  · rintro ⟨hmem, hp⟩
    cases h : participantRow db k u with
    | none =>
      have hnone := List.find?_eq_none.mp h p hmem
      simp [hp] at hnone
    | some q =>
      have hq := List.find?_some h
      simp only [decide_eq_true_eq] at hq
      rw [List.inj_on_of_nodup_map hkeys (List.mem_of_find?_eq_some h) hmem (hq.2.trans hp.2.symm)]

/-- The instant that a performed request writes to the row of `u` in `k`. -/
def marks (uuid : String → Option String) (k u : String) : server.Event Failure → Option (Option Date)
  | ⟨.query (.updateLastReadAt at_ c u'), .ok _⟩ =>
    if uuid c = some k ∧ u' = u then some (some at_) else none
  | _ => none

/-- `u` has a row in `k`, and no other. -/
structure HasRow (k u : String) (db : Database) : Prop where
  keys : (db.participants.map ParticipantRecord.key).Nodup
  there : (participantRow db k u).isSome

/-- The row after a statement that ran. -/
theorem execute_row {now : Int} {db' : Database} {s : Statement} {rows : s.Rows} (hdb : HasRow k u db)
    (hrow : participantRow db k u = some p) (h : execute uuid i now db s = .ok (rows, db')) :
    HasRow k u db' ∧ participantRow db' k u = some (onRow uuid s p) := by
  have hkeys := (execute_change h).keys hdb.keys
  obtain ⟨hmem, hpending, hkey⟩ := (participantRow_eq_some hdb.keys).mp hrow
  have hrow' : participantRow db' k u = some (onRow uuid s p) := by
    refine (participantRow_eq_some hkeys).mpr ⟨(execute_change h).row hmem hpending, ?_, ?_⟩
    · exact (onRow_pending s p).trans hpending
    · exact (onRow_key s p).trans hkey
  exact ⟨⟨hkeys, hrow' ▸ rfl⟩, hrow'⟩

/-- Only `updateLastReadAt` sets `last_read_at`, and it sets the `Date` it is given. -/
theorem readAt_onRow {now : Int} {db' : Database} {s : Statement} {rows : s.Rows} (hkey : p.key = (k, u))
    (h : execute uuid i now db s = .ok (rows, db')) :
    readAt (onRow uuid s p) = (marks uuid k u ⟨.query s, .ok rows⟩).getD (readAt p) := by
  obtain ⟨rfl, rfl⟩ := Prod.mk.inj hkey
  cases s with
  | updateLastReadAt d c u' =>
    obtain ⟨t, ht, -⟩ := bind_ok h
    obtain ⟨ms, hms, rfl⟩ := timestampParam_ok ht
    obtain ⟨time⟩ := d
    cases hms
    simp only [onRow, marks]
    split
    · simp [readAt, toMillis, Date.of]
    · rfl
  | updateClearedAt d c u' =>
    simp only [onRow, marks]
    split <;> rfl
  | _ => rfl

theorem lastReadAt_perform (r : ServerCall) (h : HasRow k u w.database) :
    HasRow k u (perform uuid i r w).2.database ∧
    lastReadAt (perform uuid i r w).2.database k u =
      (marks uuid k u ⟨r, (perform uuid i r w).1⟩).getD (lastReadAt w.database k u) := by
  cases r with
  | query s =>
    rcases perform_query_cases uuid i w s with ⟨e, hrun⟩ | ⟨rows, db, hexec, hrun⟩
    · rw [hrun]
      refine ⟨h, ?_⟩
      cases s <;> rfl
    · obtain ⟨p, hp⟩ := Option.isSome_iff_exists.mp h.there
      obtain ⟨hdb, hp'⟩ := execute_row h hp hexec
      have hkey := ((participantRow_eq_some h.keys).mp hp).2.2
      rw [hrun]
      refine ⟨hdb, ?_⟩
      simp only [lastReadAt, hp', hp, Option.bind_some]
      exact readAt_onRow hkey hexec
  | connect | release => exact ⟨⟨h.keys, h.there⟩, rfl⟩
  | _ => exact ⟨h, rfl⟩

/-- `last_read_at` of a participant `u` of conversation `k`. -/
def readRegister (uuid : String → Option String) (k u : String) : Register (system uuid) (Option Date) where
  Inv w := HasRow k u w.database
  value w := lastReadAt w.database k u
  writes := marks uuid k u
  tick _ h := ⟨h, rfl⟩
  arrive h hw := by cases h; exact ⟨hw, rfl⟩
  perform _ _ := fun h => lastReadAt_perform _ h

end Postgres

-- ---------------------------------------------------------------------------
-- Both stores
-- ---------------------------------------------------------------------------

/-- Whatever calls interleave, `lastReadAt` of a participant is the instant that
was written last. It moves forward, and what is read stays read, as long as no
write brings an earlier instant than the one it replaces. -/
theorem lastReadAt_follows :
    (∀ {clock : Int} {ls₁ ls₂ : List (Label Input Op)} {c₁ c₂ : InMemory.State},
      InMemory.system.runs (.idle (World.init clock)) ls₁ = some c₁ →
      InMemory.system.runs c₁ ls₂ = some c₂ → ∀ c u : String,
        FollowsWrites (c₁.world.participant c u).isSome (c₁.world.lastReadAt c u)
          (c₂.world.lastReadAt c u) ((InMemory.readRegister c u).written c₁ ls₂)) ∧
    ∀ {uuid : String → Option String} {clock : Int} {ls₁ ls₂ : List (Label Postgres.Input Op)}
      {c₁ c₂ : Postgres.State},
      (Postgres.system uuid).runs (.idle (Postgres.World.init clock)) ls₁ = some c₁ →
      (Postgres.system uuid).runs c₁ ls₂ = some c₂ → ∀ k u : String,
        FollowsWrites (Postgres.participantRow c₁.world.database k u).isSome
          (Postgres.lastReadAt c₁.world.database k u) (Postgres.lastReadAt c₂.world.database k u)
          ((Postgres.readRegister uuid k u).written c₁ ls₂) := by
  constructor
  · intro clock ls₁ ls₂ c₁ c₂ _ h₂ c u
    refine followsWrites (InMemory.readRegister c u) h₂ fun hnone => ?_
    exact congrArg (fun p => Option.bind p _) (Option.not_isSome_iff_eq_none.mp hnone)
  · intro uuid clock ls₁ ls₂ c₁ c₂ h₁ h₂ k u
    have hkeys := (Postgres.integrity_runs h₁).keys
    have hfollows := followsWrites (Postgres.readRegister uuid k u) h₂ fun hnone => ?_
    · exact ⟨fun hthere => hfollows.last ⟨hkeys, hthere⟩, hfollows.forward, hfollows.read⟩
    · have hrow := Option.not_isSome_iff_eq_none.mp fun hthere => hnone ⟨hkeys, hthere⟩
      exact congrArg (fun p => Option.bind p _) hrow

/-- Ann and Bob share a conversation in memory, and Bob sends a message at 1500. -/
def sharedConversation : List (Label Input Op) :=
  Label.turns 0 (.createConversation "ann" ["ann", "bob"]) (.allowAll 100 "c") 1 ++
  [.resume 0 (.allowAll 100 "x")] ++
  Label.turns 1 (.sendMessage ⟨"c", "bob", "hello"⟩) (.allowAll 1500 "m") 3

/-- Two marks in the order of their instants, in both stores. -/
theorem lastReadAt_follows_in_order :
    (∃ (ls₁ ls₂ : List (Label Input Op)) (c₁ c₂ : InMemory.State),
      InMemory.system.runs (.idle (World.init 0)) ls₁ = some c₁ ∧
      InMemory.system.runs c₁ ls₂ = some c₂ ∧
      ReadOn (c₁.world.lastReadAt "c" "ann") (c₂.world.lastReadAt "c" "ann")) ∧
    ∃ (ls₁ ls₂ : List (Label Postgres.Input Op)) (c₁ c₂ : Postgres.State),
      (Postgres.system some).runs (.idle (Postgres.World.init 0)) ls₁ = some c₁ ∧
      (Postgres.system some).runs c₁ ls₂ = some c₂ ∧
      ReadOn (Postgres.lastReadAt c₁.world.database "c" "ann")
        (Postgres.lastReadAt c₂.world.database "c" "ann") := by
  have hchain : List.IsChain ReadOn [some (Date.of 1600), some (Date.of 2000)] :=
    List.isChain_cons_cons.mpr ⟨show (1600 : Int) ≤ 2000 by decide, .singleton _⟩
  constructor
  · let ls₁ := sharedConversation ++
      Label.turns 2 (.markRead "c" "ann" (Date.of 1600)) (.allowAll 1600 "x") 3
    let ls₂ : List (Label Input Op) :=
      Label.turns 3 (.markRead "c" "ann" (Date.of 2000)) (.allowAll 2000 "x") 3
    obtain ⟨c₁, c₂, h₁, h₂, hwritten⟩ : ∃ c₁ c₂, InMemory.system.runs (.idle (World.init 0)) ls₁ = some c₁ ∧
        InMemory.system.runs c₁ ls₂ = some c₂ ∧
        c₁.world.lastReadAt "c" "ann" :: (InMemory.readRegister "c" "ann").written c₁ ls₂ =
          [some (Date.of 1600), some (Date.of 2000)] := ⟨_, _, rfl, rfl, rfl⟩
    exact ⟨ls₁, ls₂, c₁, c₂, h₁, h₂, (lastReadAt_follows.1 h₁ h₂ "c" "ann").forward (hwritten ▸ hchain)⟩
  · let ls₁ := Postgres.conversationWithMessage ++
      Label.turns 2 (.markRead "c" "ann" (Date.of 1600)) (.calm 1600 "x") 5
    let ls₂ : List (Label Postgres.Input Op) :=
      Label.turns 3 (.markRead "c" "ann" (Date.of 2000)) (.calm 1600 "x") 5
    obtain ⟨c₁, c₂, h₁, h₂, hwritten⟩ : ∃ c₁ c₂,
        (Postgres.system some).runs (.idle (Postgres.World.init 0)) ls₁ = some c₁ ∧
        (Postgres.system some).runs c₁ ls₂ = some c₂ ∧
        Postgres.lastReadAt c₁.world.database "c" "ann" ::
          (Postgres.readRegister some "c" "ann").written c₁ ls₂ =
            [some (Date.of 1600), some (Date.of 2000)] := ⟨_, _, rfl, rfl, rfl⟩
    exact ⟨ls₁, ls₂, c₁, c₂, h₁, h₂, (lastReadAt_follows.2 h₁ h₂ "c" "ann").forward (hwritten ▸ hchain)⟩

/-- Ann marks the conversation read as of 2000, and then as of an earlier
instant: Bob's message, which she had read, is unread again, in both stores. -/
theorem read_goes_back :
    (∃ (ls₁ ls₂ : List (Label Input Op)) (c₁ c₂ : InMemory.State),
      InMemory.system.runs (.idle (World.init 0)) ls₁ = some c₁ ∧
      InMemory.system.runs c₁ ls₂ = some c₂ ∧
      ¬ ReadOn (c₁.world.lastReadAt "c" "ann") (c₂.world.lastReadAt "c" "ann") ∧
      ∃ m ∈ c₁.world.messages.messages, isUnread m (c₁.world.lastReadAt "c" "ann") = false ∧
        isUnread m (c₂.world.lastReadAt "c" "ann") = true) ∧
    ∃ (ls₁ ls₂ : List (Label Postgres.Input Op)) (c₁ c₂ : Postgres.State),
      (Postgres.system some).runs (.idle (Postgres.World.init 0)) ls₁ = some c₁ ∧
      (Postgres.system some).runs c₁ ls₂ = some c₂ ∧
      ¬ ReadOn (Postgres.lastReadAt c₁.world.database "c" "ann")
        (Postgres.lastReadAt c₂.world.database "c" "ann") ∧
      ∃ r ∈ c₁.world.database.messages,
        isUnread (rowToMessage r.row) (Postgres.lastReadAt c₁.world.database "c" "ann") = false ∧
        isUnread (rowToMessage r.row) (Postgres.lastReadAt c₂.world.database "c" "ann") = true := by
  constructor
  · refine ⟨sharedConversation ++ Label.turns 2 (.markRead "c" "ann" (Date.of 2000)) (.allowAll 1600 "x") 3,
      Label.turns 3 (.markRead "c" "ann" (Date.of 1000)) (.allowAll 1600 "x") 3, _, _, rfl, rfl, ?_,
      _, List.mem_cons_self, rfl, rfl⟩
    intro h
    exact absurd (show (2000 : Int) ≤ 1000 from h) (by decide)
  · refine ⟨Postgres.conversationWithMessage ++
        Label.turns 2 (.markRead "c" "ann" (Date.of 2000)) (.calm 1600 "x") 5,
      Label.turns 3 (.markRead "c" "ann" (Date.of 0)) (.calm 1600 "x") 5, _, _, rfl, rfl, ?_,
      _, List.mem_cons_self, rfl, rfl⟩
    intro h
    exact absurd (show (2000 : Int) ≤ 0 from h) (by decide)

end Jiffy
