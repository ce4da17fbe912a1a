-- SUMMARY: How far a participant has read: the order of the instants, and the one in the in-memory stores under any interleaving of calls.
import Jiffy.InMemory.Stores
import Jiffy.Lib.Register

/-!
# Read state

`lastReadAt` is a register that `markRead` overwrites with the instant it is
given, and that nothing else touches.
-/

namespace Jiffy

open Js Async

-- ---------------------------------------------------------------------------
-- Instants in order
-- ---------------------------------------------------------------------------

/-- The second instant reads at least as far as the first. Never having read
comes before every `Date`, and an invalid one after all others: no message
counts as unread after it. -/
def ReadOn : Option Date → Option Date → Prop
  | none, _ => True
  | some _, none => False
  | some _, some ⟨none⟩ => True
  | some ⟨none⟩, some ⟨some _⟩ => False
  | some ⟨some s⟩, some ⟨some t⟩ => s ≤ t

namespace ReadOn

theorem refl : ∀ a : Option Date, ReadOn a a
  | none => trivial
  | some ⟨none⟩ => trivial
  | some ⟨some t⟩ => le_refl t

theorem trans : ∀ {a b c : Option Date}, ReadOn a b → ReadOn b c → ReadOn a c
  | none, _, _, _, _ => trivial
  | some _, none, _, h, _ => h.elim
  | some _, some _, none, _, h => h.elim
  | some _, some _, some ⟨none⟩, _, _ => trivial
  | some _, some ⟨none⟩, some ⟨some _⟩, _, h => h.elim
  | some ⟨none⟩, some ⟨some _⟩, some ⟨some _⟩, h, _ => h.elim
  | some ⟨some _⟩, some ⟨some _⟩, some ⟨some _⟩, h, h' => Int.le_trans h h'

/-- What was read stays read. -/
theorem isUnread {m : Message} : ∀ {a b : Option Date}, ReadOn a b → isUnread m a = false →
    isUnread m b = false
  | none, _, _, hm => by cases hm
  | some _, none, h, _ => h.elim
  | some _, some ⟨none⟩, _, _ => rfl
  | some ⟨none⟩, some ⟨some _⟩, h, _ => h.elim
  | some ⟨some s⟩, some ⟨some t⟩, h, hm => by
    have hst : s ≤ t := h
    have hs : ¬ s < m.createdAt := of_decide_eq_false hm
    exact decide_eq_false fun ht => hs (Int.lt_of_le_of_lt hst ht)

end ReadOn

/-- From `before` to `after`, over these writes. The last write stays, if there
is a record to write to, and writes that come in the order of their instants
unread nothing. -/
structure FollowsWrites (member : Prop) (before after : Option Date) (written : List (Option Date)) :
    Prop where
  last : member → after = written.getLastD before
  forward : List.IsChain ReadOn (before :: written) → ReadOn before after
  read : List.IsChain ReadOn (before :: written) → ∀ m, isUnread m before = false → isUnread m after = false

/-- What holds of any register of read state. -/
theorem followsWrites {P : Interface} {σ ι : Type} {S : System P Failure Reply σ ι Op}
    (R : Register S (Option Date)) {c₁ c₂ : Config P Failure Reply σ Op} {ls : List (Label ι Op)}
    (h : S.runs c₁ ls = some c₂) (hout : ¬ R.Inv c₁.world → R.value c₁.world = none) :
    FollowsWrites (R.Inv c₁.world) (R.value c₁.world) (R.value c₂.world) (R.written c₁ ls) := by
  have hforward : List.IsChain ReadOn (R.value c₁.world :: R.written c₁ ls) →
      ReadOn (R.value c₁.world) (R.value c₂.world) := by
    intro hchain
    by_cases hmember : R.Inv c₁.world
    · exact R.runs_moves ReadOn.refl ReadOn.trans h hmember hchain
    · rw [hout hmember]
      trivial
  exact ⟨fun hmember => (R.runs h hmember).2, hforward, fun hchain _ hm => (hforward hchain).isUnread hm⟩

-- ---------------------------------------------------------------------------
-- The in-memory store
-- ---------------------------------------------------------------------------

namespace World

def lastReadAt (w : World) (c u : String) : Option Date :=
  (w.participant c u).bind fun p => p.lastReadAt

end World

namespace InMemory

variable {i : Input} {w w₀ : World} {c u : String}

/-- The instant that a performed request writes to the record of `u` in `c`. -/
def marks (c u : String) : ports.Event Failure → Option (Option Date)
  | ⟨.markRead c' u' at_, _⟩ => if c = c' ∧ u = u' then some (some at_) else none
  | _ => none

/-- Nothing but `markRead` touches `lastReadAt`. -/
theorem lastReadAt_perform (ha : admissible i w₀ = true) (h₀ : (w₀.participant c u).isSome)
    (call : PortCall) (h : (w.participant c u).isSome) :
    ((perform i call w).2.participant c u).isSome ∧ (perform i call w).2.lastReadAt c u =
      (marks c u ⟨call, (perform i call w).1⟩).getD (w.lastReadAt c u) := by
  cases call with
  | createConversation participantIds =>
    have hne : c ≠ i.uuid := by
      rintro rfl
      simp only [admissible, Bool.and_eq_true, Option.isNone_iff_eq_none] at ha
      rw [World.participant, ha.1.2] at h₀
      cases h₀
    have hsame : (perform i (.createConversation participantIds) w).2.participant c u =
        w.participant c u := by
      simp only [World.participant, perform, InMemoryConversationStore.create,
        InMemoryConversationStore.findById_put]
      exact congrArg (fun x : Option Conversation => x.bind _) (if_neg hne)
    exact ⟨hsame ▸ h, congrArg (fun p : Option ConversationParticipant => p.bind _) hsame⟩
  | markRead c' u' at_ =>
    have hrecord := @World.participant_updateParticipant w c c' u u'
      (fun p => { p with lastReadAt := some at_ }) fun _ => rfl
    obtain ⟨p, hp⟩ := Option.isSome_iff_exists.mp h
    simp only [perform, InMemoryConversationStore.markRead, World.lastReadAt, hrecord, marks]
    split <;> simp [hp]
  | clear c' u' at_ =>
    have hrecord := @World.participant_updateParticipant w c c' u u'
      (fun p => { p with clearedAt := some at_ }) fun _ => rfl
    obtain ⟨p, hp⟩ := Option.isSome_iff_exists.mp h
    simp only [perform, InMemoryConversationStore.clear, World.lastReadAt, hrecord, marks]
    split <;> simp [hp]
  | _ => exact ⟨h, rfl⟩

/-- `lastReadAt` of a participant `u` of conversation `c`. -/
def readRegister (c u : String) : Register system (Option Date) where
  Inv w := (w.participant c u).isSome
  value w := w.lastReadAt c u
  writes := marks c u
  tick _ h := ⟨h, rfl⟩
  arrive h hw := by cases h; exact ⟨hw, rfl⟩
  perform ha h₀ := fun h => lastReadAt_perform ha h₀ _ h

end InMemory

end Jiffy
