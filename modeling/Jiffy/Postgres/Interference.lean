-- SUMMARY: What interleaved calls can do to each other's view of the Postgres tables, and the reads under that interference.
import Jiffy.Postgres.SafeCalls

/-!
# Interference on the Postgres adapters

Between two turns of a call nothing that is committed goes away. Apart from the
UPDATE of a deletion, no statement touches a `cleared_at`.
-/

namespace Jiffy

open Js Async MessagingService

namespace Postgres

variable {uuid : String → Option String} {i : Input} {w w' : World}

-- ---------------------------------------------------------------------------
-- How the tables go on
-- ---------------------------------------------------------------------------

/-- An instant that is set stays set, and does not move back. -/
def NotAfter (a b : Option Int) : Prop := ∀ t, a = some t → ∃ t', b = some t' ∧ t ≤ t'

theorem NotAfter.refl (a : Option Int) : NotAfter a a := fun t ht => ⟨t, ht, le_refl t⟩

theorem NotAfter.trans {a b c : Option Int} (h : NotAfter a b) (h' : NotAfter b c) : NotAfter a c := by
  intro t ht
  obtain ⟨t₁, ht₁, hle₁⟩ := h t ht
  obtain ⟨t₂, ht₂, hle₂⟩ := h' t₁ ht₁
  exact ⟨t₂, ht₂, hle₁.trans hle₂⟩

/-- Time went on, what is committed is still there, and every `cleared_at` moved
as `R` says. -/
structure Evolves (R : Option Int → Option Int → Prop) (w w' : World) : Prop where
  clock : w.clock ≤ w'.clock
  rows : ∀ p ∈ w.database.participants, p.pending = none →
    ∃ p' ∈ w'.database.participants, p'.pending = none ∧ p'.key = p.key ∧ R p.clearedAt p'.clearedAt

namespace Evolves

variable {R : Option Int → Option Int → Prop}

theorem of_participants (hR : ∀ a, R a a) (hclock : w.clock ≤ w'.clock)
    (hp : w'.database.participants = w.database.participants) : Evolves R w w' where
  clock := hclock
  rows p hmem hpending := ⟨p, hp ▸ hmem, hpending, rfl, hR _⟩

theorem trans (hR : ∀ {a b c}, R a b → R b c → R a c) {w₁ w₂ w₃ : World} (h : Evolves R w₁ w₂)
    (h' : Evolves R w₂ w₃) : Evolves R w₁ w₃ where
  clock := h.clock.trans h'.clock
  rows p hp hpending := by
    obtain ⟨p₂, hp₂, hpending₂, hkey₂, hR₂⟩ := h.rows p hp hpending
    obtain ⟨p₃, hp₃, hpending₃, hkey₃, hR₃⟩ := h'.rows p₂ hp₂ hpending₂
    exact ⟨p₃, hp₃, hpending₃, hkey₃.trans hkey₂, hR hR₂ hR₃⟩

theorem mono {R' : Option Int → Option Int → Prop} (hR : ∀ {a b}, R a b → R' a b)
    (h : Evolves R w w') : Evolves R' w w' where
  clock := h.clock
  rows p hp hpending := by
    obtain ⟨p', hp', hpending', hkey, hmoved⟩ := h.rows p hp hpending
    exact ⟨p', hp', hpending', hkey, hR hmoved⟩

end Evolves

/-- Nothing was cleared. -/
abbrev Keeps : World → World → Prop := Evolves (· = ·)

/-- No `cleared_at` moved back. -/
abbrev Advances : World → World → Prop := Evolves NotAfter

theorem Keeps.trans {w₁ w₂ w₃ : World} (h : Keeps w₁ w₂) (h' : Keeps w₂ w₃) : Keeps w₁ w₃ :=
  Evolves.trans (R := (· = ·)) Eq.trans h h'

theorem Keeps.refl (w : World) : Keeps w w := .of_participants (fun _ => rfl) (le_refl _) rfl

theorem Keeps.advances (h : Keeps w w') : Advances w w' :=
  Evolves.mono (R := (· = ·)) (fun hsame => hsame ▸ NotAfter.refl _) h

theorem Advances.refl (w : World) : Advances w w := (Keeps.refl w).advances

theorem Advances.trans {w₁ w₂ w₃ : World} (h : Advances w₁ w₂) (h' : Advances w₂ w₃) :
    Advances w₁ w₃ := Evolves.trans (R := NotAfter) NotAfter.trans h h'

/-- The committed row of `u` in conversation `k`, with what holds of its
`cleared_at`. -/
def RowOf (k u : String) (A : Option Int → Prop) (w : World) : Prop :=
  ∃ p ∈ w.database.participants, p.pending = none ∧ p.key = (k, u) ∧ A p.clearedAt

theorem RowOf.evolves {k u : String} {A A' : Option Int → Prop} {R : Option Int → Option Int → Prop}
    (h : RowOf k u A w) (hw : Evolves R w w') (hA : ∀ {a b}, R a b → A a → A' b) :
    RowOf k u A' w' := by
  obtain ⟨p, hp, hpending, hkey, hcleared⟩ := h
  obtain ⟨p', hp', hpending', hkey', hR⟩ := hw.rows p hp hpending
  exact ⟨p', hp', hpending', hkey'.trans hkey, hA hR hcleared⟩

theorem RowOf.of_joined {k u : String} {A : Option Int → Prop}
    {r : ConversationRecord × ParticipantRecord} (hr : r ∈ joined w.database)
    (hkey : r.2.key = (k, u)) (hA : A r.2.clearedAt) : RowOf k u A w := by
  obtain ⟨-, -, hp, hpending, -⟩ := mem_joined.mp hr
  exact ⟨r.2, hp, hpending, hkey, hA⟩

/-- `u` is a participant of `k`. -/
def Member (k u : String) : World → Prop := RowOf k u fun _ => True

/-- `u` has cleared `k` at the millisecond `d` or later. -/
def ClearedFrom (k u : String) (d : Int) : World → Prop :=
  RowOf k u fun a => NotAfter (some (d * 1000)) a

/-- `u` has cleared `k` at the millisecond `d` or earlier, or not at all. -/
def ClearedUpTo (k u : String) (d : Int) : World → Prop :=
  RowOf k u fun a => NotAfter a (some (d * 1000))

theorem Member.advances {k u : String} (h : Member k u w) (hw : Advances w w') : Member k u w' :=
  RowOf.evolves h hw fun _ _ => trivial

theorem ClearedFrom.advances {k u : String} {d : Int} (h : ClearedFrom k u d w)
    (hw : Advances w w') : ClearedFrom k u d w' :=
  RowOf.evolves h hw fun hab ha => ha.trans hab

theorem ClearedUpTo.keeps {k u : String} {d : Int} (h : ClearedUpTo k u d w) (hw : Keeps w w') :
    ClearedUpTo k u d w' :=
  RowOf.evolves h hw fun hab ha => hab ▸ ha

-- ---------------------------------------------------------------------------
-- What a request does
-- ---------------------------------------------------------------------------

/-- The tables are consistent and nothing was cleared in the future. -/
structure Timely (w : World) : Prop where
  consistent : Consistent w.database
  past : ∀ p ∈ w.database.participants, NotAfter p.clearedAt (some (toMillis w.clock * 1000))

theorem timely_init (clock : Int) : Timely (World.init clock) := by
  refine ⟨?_, ?_⟩
  · constructor <;> simp [World.init]
  · simp [World.init]

theorem Timely.of_participants (h : Timely w) (hclock : w.clock ≤ w'.clock)
    (hp : w'.database.participants = w.database.participants)
    (hm : w'.database.messages = w.database.messages) : Timely w' where
  consistent := ⟨hp ▸ h.consistent.keys, hm ▸ h.consistent.ids, hp ▸ h.consistent.millis⟩
  past p hmem := (h.past p (hp ▸ hmem)).trans (by
    rintro _ ⟨⟩
    exact ⟨_, rfl, Int.mul_le_mul_of_nonneg_right (Int.ediv_le_ediv (by decide) hclock) (by decide)⟩)

theorem Timely.change {s : Statement} {db : Database} (h : Timely w)
    (hchange : Change uuid i w.clock w.database s db)
    (hs : ∀ d c u, s = .updateClearedAt d c u → ∀ t, d.time = some t → t ≤ toMillis w.clock) :
    Timely { w with database := db } where
  consistent := hchange.consistent h.consistent
  past p hp := by
    intro t ht
    refine ⟨_, rfl, ?_⟩
    rcases hchange.clearedAt hp ht with ⟨p', hp', ht'⟩ | ⟨d, c, u, ms, rfl, hms, rfl⟩
    · obtain ⟨_, ⟨⟩, hle⟩ := h.past p' hp' t ht'
      exact hle
    · exact Int.mul_le_mul_of_nonneg_right (hs d c u rfl ms hms) (by decide)

variable (uuid i w) in
/-- Every request but the UPDATE of a deletion keeps what was cleared. -/
theorem perform_keeps {r : ServerCall} (hr : ∀ d c u, r ≠ .query (.updateClearedAt d c u)) :
    (Timely w → Timely (perform uuid i r w).2) ∧ Keeps w (perform uuid i r w).2 := by
  cases r with
  | query s =>
    rcases perform_query_world uuid i w s with h | ⟨rows, db, hexec, h⟩
    · rw [h]
      exact ⟨id, .refl w⟩
    · rw [h]
      have hchange := execute_change hexec
      refine ⟨fun hw => hw.change hchange fun d c u hs => ?_, le_refl _, fun p hp hpending => ?_⟩
      · exact absurd (congrArg ServerCall.query hs) (hr d c u)
      · obtain ⟨p', hp', hpending', hkey, hsame | ⟨d, c, ms, rfl, -⟩⟩ :=
          hchange.participant hp hpending
        · exact ⟨p', hp', hpending', hkey, hsame.symm⟩
        · exact absurd rfl (hr d c p.userId)
  | connect | release | canCreateConversation | newDate | publish | notify | handleUpgrade | register
    | unregister | socketsOf | isOpen | send =>
    exact ⟨fun hw => hw.of_participants (le_refl _) rfl rfl,
      .of_participants (fun _ => rfl) (le_refl _) rfl⟩

-- ---------------------------------------------------------------------------
-- Reads under interference
-- ---------------------------------------------------------------------------

/-- Other calls move no `cleared_at` back and keep `Stable`. -/
abbrev under (Stable : World → Prop) : Conditions server Failure World :=
  ⟨fun w => Timely w ∧ Stable w, Advances, fun _ _ _ => True⟩

section Safe

variable {Stable : World → Prop} {β : Type} {h : List (server.Event Failure)}

/-- The statement runs some time later, and its rows come back later still. -/
theorem safe_query {s : Statement} {R : Postcondition server Failure s.Rows World Input}
    (hR : ∀ {j t j' t' h'}, Timely t → Stable t → Advances (perform uuid j (.query s) t).2 t' →
      Stable t' → R j' (perform uuid j (.query s) t).1 h' t') :
    (query s).Safe (adapter uuid) (under Stable) R i h w :=
  query_safe (fun _ => trivial) fun ht _ hadvances ht' _ => hR ht.1 ht.2 hadvances ht'.2

/-- A port call that is one statement. -/
theorem safe_fetch {call : PortCall} {s : Statement} {g : s.Rows → call.Resp}
    (himpl : implementation call = (query s).bind fun rows => .ret (g rows))
    {k : Except Failure call.Resp → Service β} {Q : Postcondition server Failure β World Input}
    (hk : ∀ {j t j' t' h'}, Timely t → Stable t → Advances (perform uuid j (.query s) t).2 t' →
      Stable t' → ((k ((perform uuid j (.query s) t).1.map g)).implement implementation).Safe
        (adapter uuid) (under Stable) Q j' h' t') :
    ((.await call k : Service β).implement implementation).Safe (adapter uuid) (under Stable) Q i h w :=
  fetch_safe himpl (fun _ => trivial) fun ht _ hadvances ht' _ => hk ht.1 ht.2 hadvances ht'.2

/-- The participant check, and then the rest on the conversation it read. -/
theorem safe_awaitParticipant {c u : String} {f : Conversation → Service β}
    {Q : Postcondition server Failure β World Input} (herr : ∀ i e h s, Q i (.error e) h s)
    (hok : ∀ {t conversation r} {j' : Input} {t' : World} {h' : List (server.Event Failure)},
      Timely t → Stable t → uuid c = some conversation.id → ReadFor t.database u conversation r →
      ((f conversation).implement implementation).Safe (adapter uuid) (under Stable) Q j' h' t') :
    (((awaitParticipant c u).bind f).implement implementation).Safe (adapter uuid) (under Stable)
      Q i h w := by
  refine check_safe (fun _ => trivial) (fun _ => herr _ _ _ _)
    fun {j t rows conversation j' t'} hI hexec hhead hu _ _ => ?_
  obtain ⟨-, k, hk, hrows, hid, -⟩ := execute_selectConversation hexec
  have hmem := List.mem_of_mem_head? hhead
  obtain ⟨r, hr⟩ := clearedAtOf_row hrows hmem hu
  obtain ⟨row, hrow, hrid⟩ := rowsToConversations_row hmem
  exact hok hI.1 hI.2 (by rw [hk, ← hrid, hid row hrow]) hr

end Safe

section Reads

variable {k u : String} {d : Int} {h : List (server.Event Failure)}

/-- What a read of a conversation that `u` has cleared goes by. -/
theorem ReadFor.clearedFrom {conversation : Conversation}
    {r : ConversationRecord × ParticipantRecord} (hr : ReadFor w.database u conversation r)
    (hw : Timely w) (hcleared : ClearedFrom conversation.id u d w) :
    ∃ t, d ≤ t ∧ clearedAtOf conversation u = some t := by
  obtain ⟨p, hp, -, hkey, hfrom⟩ := hcleared
  obtain ⟨-, -, hstored, -, -⟩ := mem_joined.mp hr.stored
  obtain rfl := hw.consistent.eq_of_key hstored hp (hr.key.trans hkey.symm)
  obtain ⟨t, ht, hle⟩ := hfrom _ rfl
  exact ⟨toMillis t, (Int.le_ediv_iff_mul_le (by decide)).mpr hle, by rw [hr.clearedAt, ht]; rfl⟩

/-- A page that goes by `t` shows nothing created before `t`. -/
theorem page_after {c : String} {options : ListMessagesOptions} {t : Int} {j : Input}
    {rows : List MessageRow}
    (h : (perform uuid j (.query (.selectHistory (PostgresMessageStore.historyQuery c
      (withCleared options (some t))))) w).1 = .ok rows) {m : Message}
    (hm : m ∈ rows.map rowToMessage) : t ≤ m.createdAt := by
  obtain ⟨-, db, hexec, -⟩ := perform_query (Prod.ext h rfl)
  obtain ⟨-, k, -, hrows⟩ := execute_selectHistory hexec
  obtain ⟨row, hrow, rfl⟩ := List.mem_map.mp hm
  obtain ⟨s, -, rfl, -, hlate⟩ := hrows row hrow
  exact (Int.le_ediv_iff_mul_le (by decide)).mpr (hlate t rfl).le

/-- A call that settles shows `u` nothing in `k` that was created before `d`. -/
def ReadsFrom (uuid : String → Option String) (k u : String) (d : Int) (op : Op) :
    Postcondition server Failure Reply World Input :=
  fun _ x _ _ => ∀ m, Shows uuid k u m op x → d ≤ m.createdAt

theorem safe_listMessages (c : String) (options : ListMessagesOptions) :
    ((Op.program (.listMessages c u options)).implement implementation).Safe (adapter uuid)
      (under (ClearedFrom k u d)) (ReadsFrom uuid k u d (.listMessages c u options)) i h w := by
  simp only [Op.program, listMessages, Proc.bind_eq_bind, Proc.bind_assoc]
  refine safe_awaitParticipant ?_ fun {t conversation r j' t' h'} ht hst hc hr => ?_
  · rintro i e h s m (⟨-, -, -, -, -, ⟨⟩, -⟩ | ⟨-, ⟨⟩, -⟩)
  refine safe_fetch (s := .selectHistory (PostgresMessageStore.historyQuery c
    (withCleared options (clearedAtOf conversation u)))) (g := List.map rowToMessage) rfl
    fun {j t₁ j' t₂ h'} _ _ _ _ => ?_
  cases hpage : (perform uuid j (.query (.selectHistory (PostgresMessageStore.historyQuery c
    (withCleared options (clearedAtOf conversation u))))) t₁).1 with
  | error e =>
    rintro m (⟨-, -, -, -, -, ⟨⟩, -⟩ | ⟨-, ⟨⟩, -⟩)
  | ok rows =>
    rintro m (⟨_, _, _, ⟨⟩, hk, ⟨⟩, hm⟩ | ⟨-, ⟨⟩, -⟩)
    obtain rfl : conversation.id = k := Option.some.inj (hc.symm.trans hk)
    obtain ⟨at_, hle, hcleared⟩ := hr.clearedFrom ht hst
    rw [hcleared] at hpage
    exact hle.trans (page_after hpage hm)

/-- The queries of `listConversations`, each against the tables as they then are. -/
theorem safe_listPreviews {Stable : World → Prop} (queries : List PreviewQuery) :
    (listPreviews queries).Safe (adapter uuid) (under Stable)
      (fun _ x _ _ => ∀ previews, x = .ok previews → ∀ q ∈ previews, q.1 ∈ queries ∧
        ∀ options t, q.1.options = withCleared options (some t) → ∀ m ∈ q.2, t ≤ m.createdAt)
      i h w := by
  induction queries generalizing i h w with
  | nil =>
    rintro previews ⟨⟩ q hq
    cases hq
  | cons query queries ih =>
    refine Proc.Safe.bind (Proc.Safe.bind (safe_query fun {j t j' t' h'} _ _ _ _ => ?_))
    cases hpage : (perform uuid j (.query (.selectHistory (PostgresMessageStore.historyQuery
      query.conversation.id query.options))) t).1 with
    | error e =>
      rintro previews ⟨⟩
    | ok rows =>
      refine Proc.Safe.bind (ih.mono ?_)
      rintro i x h s hrest
      cases x with
      | error e =>
        rintro previews ⟨⟩
      | ok rest =>
        rintro previews ⟨⟩ q hq
        rcases List.mem_cons.mp hq with rfl | hq
        · refine ⟨List.mem_cons_self, fun options t hoptions m hm => ?_⟩
          simp only at hoptions
          rw [hoptions] at hpage
          exact page_after hpage hm
        · obtain ⟨hmem, hlate⟩ := hrest rest rfl q hq
          exact ⟨List.mem_cons_of_mem _ hmem, hlate⟩

theorem safe_listConversations :
    ((Op.program (.listConversations u)).implement implementation).Safe (adapter uuid)
      (under (ClearedFrom k u d)) (ReadsFrom uuid k u d (.listConversations u)) i h w := by
  simp only [Op.program, listConversations, Proc.bind_eq_bind, Proc.bind_assoc, Proc.request,
    Proc.await_bind]
  refine safe_fetch (s := .selectConversationsOf u) (g := rowsToConversations) rfl
    fun {j t j' t' h'} ht hst _ _ => ?_
  cases hread : perform uuid j (.query (.selectConversationsOf u)) t with
  | mk x t₁ =>
    cases x with
    | error e =>
      rintro m (⟨-, -, -, ⟨⟩, -⟩ | ⟨-, -, ⟨⟩, -⟩)
    | ok rows =>
      obtain ⟨-, db, hexec, rfl⟩ := perform_query hread
      obtain ⟨rfl, hrows, hown⟩ := execute_selectConversationsOf hexec
      simp only [Except.map, Proc.ofExcept_ok, Proc.ret_bind]
      refine Proc.Safe.implement ((safe_listPreviews _).mono ?_)
      rintro i x h s hpreviews
      cases x with
      | error e =>
        rintro m (⟨-, -, -, ⟨⟩, -⟩ | ⟨-, -, ⟨⟩, -⟩)
      | ok previews =>
        rintro m (⟨-, -, -, ⟨⟩, -⟩ | ⟨conversations, -, ⟨⟩, conversation, hmem, rfl, hlast⟩)
        obtain ⟨⟨q, messages⟩, hq, hshown⟩ := List.mem_filterMap.mp hmem
        simp only at hshown
        split at hshown
        · cases hshown
          obtain ⟨hquery, hlate⟩ := hpreviews previews rfl _ hq
          obtain ⟨read, hconv, rfl⟩ := List.mem_map.mp hquery
          have hu : isParticipant read u = true := by
            obtain ⟨row, hrow, hid⟩ := rowsToConversations_row hconv
            obtain ⟨own, hmine, hsame, huser⟩ := hown row hrow
            exact isParticipant_of_row hconv hmine (hsame.trans hid) huser
          obtain ⟨r, hr⟩ := clearedAtOf_row hrows hconv hu
          obtain ⟨at_, hle, hcleared⟩ := hr.clearedFrom ht hst
          refine hle.trans (hlate { limit := some (.finite 1) } at_ ?_ m
            (List.mem_of_mem_head? (Option.some.inj hlast)))
          simp only [previewQuery, hcleared]
        · cases hshown

end Reads

end Postgres

end Jiffy
