-- SUMMARY: Deletions of messages on the Postgres stores: any number of them at once leave one tombstone and report it.
import Jiffy.Lib.Turns
import Jiffy.Postgres.Requests

/-!
# Tombstones

`UPDATE messages SET body = '', deleted_at = .. WHERE .. AND deleted_at IS NULL`
writes a row once. A deletion that comes late finds the tombstone there, be it
in its first SELECT or in the one that follows its UPDATE.
-/

namespace Jiffy

open Js Async MessagingService

namespace Postgres

variable {uuid : String → Option String} {i : Input} {w w' : World}

-- ---------------------------------------------------------------------------
-- Rows
-- ---------------------------------------------------------------------------

/-- What becomes of a row: it stays, or turns into a tombstone if it is none. -/
def Buried (r r' : MessageRecord) : Prop :=
  r' = r ∨ r.deletedAt = none ∧ ∃ t, r' = tombstoneRecord r t

theorem Buried.id {r r' : MessageRecord} (h : Buried r r') : r'.id = r.id := by
  rcases h with rfl | ⟨-, t, rfl⟩ <;> rfl

theorem Buried.trans {r₁ r₂ r₃ : MessageRecord} (h : Buried r₁ r₂) (h' : Buried r₂ r₃) :
    Buried r₁ r₃ := by
  rcases h with rfl | ⟨hnone, t, rfl⟩
  · exact h'
  · rcases h' with rfl | ⟨hnone', -⟩
    · exact .inr ⟨hnone, t, rfl⟩
    · cases hnone'

/-- A tombstone stays as it is. -/
theorem Buried.eq_of_deleted {r r' : MessageRecord} (h : Buried r r') (hr : r.deletedAt ≠ none) :
    r' = r := by
  rcases h with h | ⟨hnone, -⟩
  · exact h
  · exact absurd hnone hr

theorem Change.buried {now : Int} {db db' : Database} {s : Statement} (h : Change uuid i now db s db')
    {r : MessageRecord} (hr : r ∈ db.messages) : ∃ r' ∈ db'.messages, Buried r r' := by
  cases h with
  | untouched _ hm | committed _ hm | rolledBack _ hm => exact ⟨r, hm ▸ hr, .inl rfl⟩
  | joined | marked | cleared => exact ⟨r, hr, .inl rfl⟩
  | sent => exact ⟨r, List.mem_append_left _ hr, .inl rfl⟩
  | tombstoned =>
    refine ⟨_, List.mem_map_of_mem hr, ?_⟩
    split
    · next hhit => exact .inr ⟨(of_decide_eq_true hhit).2, _, rfl⟩
    · exact .inl rfl

/-- One row for an id, and no text in a tombstone. -/
structure Orderly (w : World) : Prop where
  ids : (w.database.messages.map fun m => m.id).Nodup
  emptied : ∀ r ∈ w.database.messages, r.deletedAt ≠ none → r.body = ""

theorem orderly_init (clock : Int) : Orderly (World.init clock) :=
  ⟨List.nodup_nil, fun r hr => by cases hr⟩

theorem Orderly.eq_of_id (hw : Orderly w) {r r' : MessageRecord} (hr : r ∈ w.database.messages)
    (hr' : r' ∈ w.database.messages) (hid : r.id = r'.id) : r = r' :=
  List.inj_on_of_nodup_map hw.ids hr hr' hid

theorem Orderly.change {s : Statement} {db : Database} (hw : Orderly w)
    (h : Change uuid i w.clock w.database s db) : Orderly { w with database := db } := by
  refine ⟨h.ids hw.ids, ?_⟩
  intro r hr hdeleted
  cases h with
  | untouched _ hm | committed _ hm | rolledBack _ hm => exact hw.emptied r (hm ▸ hr) hdeleted
  | joined | marked | cleared => exact hw.emptied r hr hdeleted
  | sent =>
    rcases List.mem_append.mp hr with hr | hr
    · exact hw.emptied r hr hdeleted
    · rw [List.mem_singleton] at hr
      subst hr
      exact absurd rfl hdeleted
  | tombstoned =>
    obtain ⟨r₀, hr₀, rfl⟩ := List.mem_map.mp hr
    revert hdeleted
    split
    · exact fun _ => rfl
    · exact hw.emptied r₀ hr₀

/-- Messages are only ever added, or deleted once. -/
def Buries (w w' : World) : Prop :=
  ∀ r ∈ w.database.messages, ∃ r' ∈ w'.database.messages, Buried r r'

theorem Buries.refl (w : World) : Buries w w := fun r hr => ⟨r, hr, .inl rfl⟩

theorem Buries.trans {w₁ w₂ w₃ : World} (h : Buries w₁ w₂) (h' : Buries w₂ w₃) : Buries w₁ w₃ := by
  intro r hr
  obtain ⟨r', hr', hburied⟩ := h r hr
  obtain ⟨r'', hr'', hburied'⟩ := h' r' hr'
  exact ⟨r'', hr'', hburied.trans hburied'⟩

theorem Buries.stored (h : Buries w w') {k : String} (hk : ∃ r ∈ w.database.messages, r.id = k) :
    ∃ r ∈ w'.database.messages, r.id = k := by
  obtain ⟨r, hr, hid⟩ := hk
  obtain ⟨r', hr', hburied⟩ := h r hr
  exact ⟨r', hr', hburied.id.trans hid⟩

theorem perform_buries (r : ServerCall) (hw : Orderly w) :
    Orderly (perform uuid i r w).2 ∧ Buries w (perform uuid i r w).2 := by
  cases r with
  | query s =>
    rcases perform_query_world uuid i w s with h | ⟨rows, db, hexec, h⟩
    · rw [h]
      exact ⟨hw, .refl w⟩
    · rw [h]
      have hchange := execute_change hexec
      exact ⟨hw.change hchange, fun r hr => hchange.buried hr⟩
  | connect | release | canCreateConversation | newDate | publish | notify | handleUpgrade | register
    | unregister | socketsOf | isOpen | send => exact ⟨⟨hw.ids, hw.emptied⟩, .refl w⟩

/-- What all calls keep of the messages. -/
def burials (uuid : String → Option String) : Contract (system uuid) where
  Inv := Orderly
  Rely := Buries
  Pre _ _ _ _ := True
  refl := Buries.refl
  trans := Buries.trans
  tick h ha := ⟨⟨h.ids, h.emptied⟩, .refl _, admissible_tick ha⟩
  arrive h ha harr := by
    cases harr
    exact ⟨h, .refl _, ha⟩
  perform h _ _ := perform_buries _ h
  program op _ _ _ ha := program_safe op (fun _ _ _ _ _ _ => trivial) ha

-- ---------------------------------------------------------------------------
-- Tombstones
-- ---------------------------------------------------------------------------

/-- The message is the tombstone of row `k`. -/
def Tombstone (k : String) (m : Message) (w : World) : Prop :=
  ∃ r ∈ w.database.messages, r.id = k ∧ r.deletedAt ≠ none ∧ m = rowToMessage r.row

theorem Tombstone.buries {k : String} {m : Message} (h : Tombstone k m w) (hw : Buries w w') :
    Tombstone k m w' := by
  obtain ⟨r, hr, hid, hdeleted, rfl⟩ := h
  obtain ⟨r', hr', hburied⟩ := hw r hr
  obtain rfl := hburied.eq_of_deleted hdeleted
  exact ⟨r', hr', hid, hdeleted, rfl⟩

/-- There is one tombstone. -/
theorem Tombstone.unique (hw : Orderly w) {k : String} {m m' : Message} (h : Tombstone k m w)
    (h' : Tombstone k m' w) : m = m' := by
  obtain ⟨r, hr, hid, -, rfl⟩ := h
  obtain ⟨r', hr', hid', -, rfl⟩ := h'
  rw [hw.eq_of_id hr hr' (hid.trans hid'.symm)]

theorem Tombstone.empty (hw : Orderly w) {k : String} {m : Message} (h : Tombstone k m w) :
    m.id = k ∧ m.body = "" ∧ m.deletedAt ≠ none := by
  obtain ⟨r, hr, hid, hdeleted, rfl⟩ := h
  refine ⟨hid, hw.emptied r hr hdeleted, ?_⟩
  simpa [rowToMessage, MessageRecord.row] using hdeleted

-- ---------------------------------------------------------------------------
-- A deletion
-- ---------------------------------------------------------------------------

section Deletion

variable {h : List (server.Event Failure)} {k c messageId u : String} {Stable : World → Prop}

/-- None of the call's statements failed. -/
def Unfailed (h : List (server.Event Failure)) : Prop :=
  ∀ s e, (⟨.query s, .error e⟩ : server.Event Failure) ∉ h

/-- The call read the message, which is its caller's, in the conversation. -/
def PastCheck (c messageId u : String) (h : List (server.Event Failure)) : Prop :=
  ∃ rows row, ran (.selectMessage messageId) rows ∈ h ∧ rows.head? = some row ∧
    row.conversationId = c ∧ row.senderId = u

/-- What a deletion settles with: the tombstone, unless a statement failed. -/
def Deletes (k : String) (x : Except Failure Message) (h : List (server.Event Failure)) (w : World) :
    Prop :=
  (∀ m, x = .ok m → Tombstone k m w) ∧ (Unfailed h → ∃ m, x = .ok m)

/-- Other calls bury messages at most, and keep `Stable`. -/
abbrev burying (Stable : World → Prop) : Conditions server Failure World :=
  ⟨fun w => Orderly w ∧ Stable w, Buries, fun _ _ _ => True⟩

theorem deletes_failed {s : Statement} {e e' : Failure} :
    Deletes k (.error e') (h ++ [⟨.query s, .error e⟩]) w :=
  ⟨fun m hm => (by cases hm), fun hno => absurd (List.mem_append_right _ List.mem_cons_self) (hno s e)⟩

theorem safe_softDelete {C : Conditions server Failure World} (hinv : ∀ {t}, C.Inv t → Orderly t)
    (hrely : ∀ {s t}, C.Rely s t → Buries s t) (hpre : ∀ h t s, C.Pre h t (.query s))
    (hk : uuid messageId = some k) (hstored : ∃ r ∈ w.database.messages, r.id = k) (at_ : Int) :
    (PostgresMessageStore.softDelete messageId at_).Safe (adapter uuid) C
      (fun i x h w => admissible uuid i w = true ∧ Deletes k x h w) i h w := by
  unfold PostgresMessageStore.softDelete
  simp only [Proc.bind_eq_bind]
  refine Proc.Safe.bind (query_safe (hpre _ · _) fun {j t j' t'} hI hwt hR hI' ha => ?_)
  rcases perform_query_cases uuid j t (.updateDeleted messageId (Date.of at_)) with
    ⟨e, heq⟩ | ⟨rows, db, hexec, heq⟩
  · rw [heq]
    exact ⟨ha, deletes_failed⟩
  rw [heq] at hR ⊢
  obtain ⟨k', hk', hrows, hnil⟩ := execute_updateDeleted hexec
  obtain rfl : k = k' := Option.some.inj (hk.symm.trans hk')
  cases rows with
  | cons row rows =>
    refine ⟨ha, fun m hm => ?_, fun _ => ⟨_, rfl⟩⟩
    cases hm
    obtain ⟨r, hr, hid, hdeleted, rfl⟩ := hrows row List.mem_cons_self
    have hstone : Tombstone k (rowToMessage r.row) { t with database := db } :=
      ⟨r, hr, hid, hdeleted, rfl⟩
    exact hstone.buries (hrely hR)
  | nil =>
    -- the row is there, so it is a tombstone
    have hburies : Buries t { t with database := db } := fun r hr => (execute_change hexec).buried hr
    obtain ⟨r, hr, hid⟩ := ((hrely hwt).trans hburies).stored hstored
    have hstone : Tombstone k (rowToMessage r.row) { t with database := db } :=
      ⟨r, hr, hid, hnil rfl r hr hid, rfl⟩
    refine Proc.Safe.bind (query_safe (hpre _ · _) fun {j₁ t₁ j₁' t₁'} hI₁ hwt₁ hR₁ hI₁' ha₁ => ?_)
    have hthere := hstone.buries ((hrely hR).trans (hrely hwt₁))
    rcases perform_query_cases uuid j₁ t₁ (.selectMessage messageId) with
      ⟨e, heq₁⟩ | ⟨existing, db₁, hexec₁, heq₁⟩
    · rw [heq₁]
      exact ⟨ha₁, deletes_failed⟩
    rw [heq₁] at hR₁ ⊢
    obtain ⟨rfl, k', hk', hrows₁, hall⟩ := execute_selectMessage hexec₁
    obtain rfl : k = k' := Option.some.inj (hk.symm.trans hk')
    obtain ⟨r₁, hr₁, hid₁, hdeleted₁, hsame⟩ := hthere
    cases existing with
    | nil => exact absurd (hall r₁ hr₁ hid₁) List.not_mem_nil
    | cons row existing =>
      refine ⟨ha₁, fun m hm => ?_, fun _ => ⟨_, rfl⟩⟩
      cases hm
      obtain ⟨r₂, hr₂, hid₂, rfl⟩ := hrows₁ row List.mem_cons_self
      obtain rfl := (hinv hI₁).eq_of_id hr₂ hr₁ (hid₂.trans hid₁.symm)
      have hstone₁ : Tombstone k (rowToMessage r₂.row) t₁ := ⟨r₂, hr₂, hid₂, hdeleted₁, rfl⟩
      exact hstone₁.buries (hrely hR₁)

/-- What a call of `deleteMessage` settles with. -/
def Resolves (uuid : String → Option String) (c messageId u : String) :
    Postcondition server Failure Reply World Input :=
  fun _ x h w => (∀ m, x = .ok (.message m) → ∃ k, uuid messageId = some k ∧ Tombstone k m w) ∧
    (PastCheck c messageId u h → Unfailed h → ∃ m, x = .ok (.message m))

theorem resolves_refused {e : Failure} (hnot : PastCheck c messageId u h → ¬ Unfailed h) :
    Resolves uuid c messageId u i (.error e) h w :=
  ⟨fun m hm => (by cases hm), fun hpast hno => absurd hno (hnot hpast)⟩

/-- Before its own SELECT the call has read no message. -/
theorem not_pastCheck (x : Except Failure (List ConversationParticipantRow)) :
    ¬ PastCheck c messageId u ([] ++ [⟨.query (.selectConversation c), x⟩]) := by
  rintro ⟨rows, row, hmem, -⟩
  cases List.mem_singleton.mp hmem

theorem pastCheck_read {x : List ConversationParticipantRow} {rows : List MessageRow}
    (hpast : PastCheck c messageId u ([] ++ [⟨.query (.selectConversation c), .ok x⟩] ++
      [⟨.query (.selectMessage messageId), .ok rows⟩])) :
    ∃ row, rows.head? = some row ∧ row.conversationId = c ∧ row.senderId = u := by
  obtain ⟨rows', row, hmem, hhead, hown⟩ := hpast
  rcases List.mem_append.mp hmem with hmem | hmem
  · cases List.mem_singleton.mp hmem
  · cases List.mem_singleton.mp hmem
    exact ⟨row, hhead, hown⟩

theorem safe_deleteMessage :
    ((Op.program (.deleteMessage c messageId u)).implement implementation).Safe (adapter uuid)
      (burying Stable) (Resolves uuid c messageId u) i [] w := by
  simp only [Op.program, deleteMessage, Proc.bind_eq_bind, Proc.bind_assoc]
  refine check_safe (fun _ => trivial)
    (fun x => resolves_refused fun hpast => absurd hpast (not_pastCheck x))
    fun {j t read conversation j' t'} _ _ _ _ _ _ => ?_
  simp only [Proc.request, Proc.await_bind]
  refine fetch_safe (s := .selectMessage messageId) (g := fun rows => rows.head?.map rowToMessage)
    rfl (fun _ => trivial) fun {j t j' t'} hI _ hR hI' ha => ?_
  rcases perform_query_cases uuid j t (.selectMessage messageId) with ⟨e, heq⟩ | ⟨rows, db, hexec, heq⟩
  · rw [heq]
    exact resolves_refused fun _ hno =>
      hno _ _ (List.mem_append_right _ (List.mem_singleton.mpr rfl))
  rw [heq] at hR ⊢
  obtain ⟨rfl, k, hk, hrows, -⟩ := execute_selectMessage hexec
  simp only [Except.map, Proc.ofExcept_ok, Proc.ret_bind]
  cases rows with
  | nil =>
    refine resolves_refused fun hpast => ?_
    obtain ⟨row, hhead, -⟩ := pastCheck_read hpast
    cases hhead
  | cons row rows =>
    obtain ⟨r, hr, hid, rfl⟩ := hrows row List.mem_cons_self
    simp only [List.head?_cons, Option.map_some]
    split
    · next hc =>
      refine resolves_refused fun hpast => ?_
      obtain ⟨row, hhead, hconv, -⟩ := pastCheck_read hpast
      cases hhead
      exact absurd hconv hc
    split
    · next hu =>
      refine resolves_refused fun hpast => ?_
      obtain ⟨row, hhead, -, hsender⟩ := pastCheck_read hpast
      cases hhead
      exact absurd hsender hu
    split
    · next hdeleted =>
      refine ⟨fun m hm => ⟨k, hk, ?_⟩, fun _ _ => ⟨_, rfl⟩⟩
      cases hm
      have hstone : Tombstone k (rowToMessage r.row) t := by
        refine ⟨r, hr, hid, fun hnone => hdeleted ?_, rfl⟩
        simp [rowToMessage, MessageRecord.row, hnone]
      exact hstone.buries hR
    -- what was live when it was read may be a tombstone by now
    have hstored : ∃ r ∈ t'.database.messages, r.id = k := Buries.stored hR ⟨r, hr, hid⟩
    refine Proc.Safe.bind (Proc.Safe.settle ⟨trivial, ha, ?_⟩)
    refine Proc.Safe.implement ((safe_softDelete And.left id (fun _ _ _ => trivial) hk hstored _).mono
      fun j x h t hx => ?_)
    cases x with
    | error e =>
      refine resolves_refused fun _ hno => ?_
      obtain ⟨m, hm⟩ := hx.2.2 hno
      cases hm
    | ok deleted =>
      refine Proc.Safe.bind (Proc.Safe.settle ⟨trivial, hx.1, fun m hm => ⟨k, hk, ?_⟩, fun _ _ => ⟨_, rfl⟩⟩)
      cases hm
      exact hx.2.1 deleted rfl

/-- A listing that starts when the tombstone is there shows it. -/
theorem safe_listMessages_tombstone (m : Message) (options : ListMessagesOptions) :
    ((Op.program (.listMessages c u options)).implement implementation).Safe (adapter uuid)
      (burying (Tombstone k m))
      (fun _ x _ _ => ∀ messages, x = .ok (.messages messages) → ∀ m' ∈ messages, m'.id = k → m' = m)
      i [] w := by
  simp only [Op.program, listMessages, Proc.bind_eq_bind, Proc.bind_assoc]
  refine check_safe (fun _ => trivial) (fun x messages hx => by cases hx)
    fun {j t read conversation j' t'} _ _ _ _ _ _ => ?_
  refine fetch_safe (s := .selectHistory (PostgresMessageStore.historyQuery c
    (withCleared options (clearedAtOf conversation u)))) (g := List.map rowToMessage) rfl
    (fun _ => trivial) fun {j t j' t'} hI _ _ _ _ => ?_
  rcases perform_query_cases uuid j t (.selectHistory (PostgresMessageStore.historyQuery c
    (withCleared options (clearedAtOf conversation u)))) with ⟨e, heq⟩ | ⟨rows, db, hexec, heq⟩
  · rw [heq]
    exact fun messages hx => by cases hx
  rw [heq]
  rintro messages ⟨⟩ m' hm' hid
  obtain ⟨-, _, -, hrows⟩ := execute_selectHistory hexec
  obtain ⟨row, hrow, rfl⟩ := List.mem_map.mp hm'
  obtain ⟨s, hs, rfl, -⟩ := hrows row hrow
  obtain ⟨r, hr, hrid, -, rfl⟩ := hI.2
  rw [hI.1.eq_of_id hs hr (Eq.trans hid hrid.symm)]

end Deletion

-- ---------------------------------------------------------------------------
-- Turns
-- ---------------------------------------------------------------------------

theorem query_within (s : Statement) : (query s).Within 2 :=
  ⟨by decide, by decide, fun x => Proc.Within.ofExcept x 0⟩

theorem softDelete_within (id : String) (at_ : Int) : (PostgresMessageStore.softDelete id at_).Within 4 := by
  unfold PostgresMessageStore.softDelete
  simp only [Proc.bind_eq_bind]
  refine Proc.Within.bind (m := 2) (n := 2) (query_within _) fun updated => ?_
  split
  · trivial
  · refine Proc.Within.bind (m := 2) (n := 0) (query_within _) fun existing => ?_
    cases existing <;> trivial

/-- A deletion waits nine times at most. -/
theorem deleteMessage_within (c messageId u : String) :
    ((Op.program (.deleteMessage c messageId u)).implement implementation).Within 9 := by
  have hfetch : ∀ {s : Statement} {α : Type} (g : s.Rows → α),
      ((query s).bind fun rows => (.ret (g rows) : StoreMethod α)).Within 2 :=
    fun g => Proc.Within.bind (n := 0) (query_within _) fun _ => trivial
  simp only [Op.program, deleteMessage, awaitParticipant, requireParticipant, Proc.request, Proc.perform,
    Proc.bind_eq_bind, Proc.bind_assoc, Proc.await_bind]
  refine Proc.Within.await (m := 2) (n := 7) (hfetch _) fun x => ?_
  cases x with
  | error e => trivial
  | ok found =>
  cases found with
  | none => trivial
  | some conversation =>
  simp only [Proc.ofExcept_ok, Proc.ret_bind]
  split
  · refine Proc.Within.await (m := 1) (n := 6) ⟨by decide, trivial⟩ fun x => ?_
    cases x with
    | error e => trivial
    | ok conversation =>
    refine Proc.Within.await (m := 2) (n := 4) (hfetch _) fun x => ?_
    cases x with
    | error e => trivial
    | ok found =>
    cases found with
    | none => trivial
    | some message =>
    simp only [Proc.ofExcept_ok, Proc.ret_bind]
    split
    · trivial
    split
    · trivial
    split
    · trivial
    refine Proc.Within.sync (m := 0) (n := 4) (fun x => Proc.Within.ofExcept x 0) fun now => ?_
    cases now with
    | error e => trivial
    | ok now =>
    refine Proc.Within.await (m := 4) (n := 0) (softDelete_within _ _) fun x => ?_
    cases x with
    | error e => trivial
    | ok deleted =>
    refine Proc.Within.sync (m := 0) (n := 0) (fun x => Proc.Within.ofExcept x 0) fun x => ?_
    cases x <;> trivial
  · trivial

-- ---------------------------------------------------------------------------
-- Agreement
-- ---------------------------------------------------------------------------

/-- Any number of deletions at once agree. -/
structure DeletesAgree (uuid : String → Option String) (c : Config server Failure Reply World Op) :
    Prop where
  ids : (c.world.database.messages.map fun m => m.id).Nodup
  /-- A turn turns a row into a tombstone, once, or leaves it alone. -/
  once : ∀ {l c'}, (system uuid).step c l = some c' → Buries c.world c'.world
  /-- Past its check a deletion does not reject. -/
  resolved : ∀ {id k messageId u hist x},
    c.calls id = some ⟨.deleteMessage k messageId u, hist, .settled x⟩ →
      PastCheck k messageId u hist → Unfailed hist → ∃ m, x = .ok (.message m)
  /-- And it settles. -/
  settles : ∀ {id k messageId u ls c'}, c.InFlight id (.deleteMessage k messageId u) →
    (system uuid).runs c ls = some c' → 9 < System.turns id ls →
      ∃ x, c'.Settled id (.deleteMessage k messageId u) x
  tombstone : ∀ {id k messageId u m}, c.Settled id (.deleteMessage k messageId u) (.ok (.message m)) →
    uuid messageId = some m.id ∧ m.body = "" ∧ m.deletedAt ≠ none
  same : ∀ {id k messageId u m id' k' messageId' u' m'},
    c.Settled id (.deleteMessage k messageId u) (.ok (.message m)) →
    c.Settled id' (.deleteMessage k' messageId' u') (.ok (.message m')) →
      uuid messageId = uuid messageId' → m = m'
  /-- A listing that starts later shows what the deletion reported. -/
  later : ∀ {id k messageId u m ls c' id' k' u' options messages},
    c.Settled id (.deleteMessage k messageId u) (.ok (.message m)) →
    (system uuid).runs c ls = some c' → c.calls id' = none →
    c'.Settled id' (.listMessages k' u' options) (.ok (.messages messages)) →
      ∀ m' ∈ messages, m'.id = m.id → m' = m

/-- What a program establishes while `Stable` holds, a call of it has
established once it settled. -/
theorem burials_follow {Stable : World → Prop}
    (hstable : ∀ {s t}, Stable s → Orderly t → Buries s t → Stable t) {op : Op}
    {Q : Postcondition server Failure Reply World Input}
    (hprog : ∀ {i w}, (op.program.implement implementation).Safe (adapter uuid) (burying Stable) Q i [] w)
    {c c' : Config server Failure Reply World Op} (hc : (burials uuid).Holds c) (hs : Stable c.world)
    {id : Nat} (hnew : c.calls id = none) {ls : List (Label Input Op)}
    (h : (system uuid).runs c ls = some c') {hist : List (server.Event Failure)}
    {x : Except Failure Reply} (hx : c'.calls id = some ⟨op, hist, .settled x⟩) :
    ∃ i s, Buries s c'.world ∧ Q i x hist s := by
  let R := (burials uuid).regime Stable hstable
  have hsafe : ∀ {i s}, (burials uuid).Inv s → R.Stable s → (system uuid).admissible i s →
      ((system uuid).program op).Safe (system uuid).toAdapter (R.conditions op) Q i [] s :=
    fun _ _ _ => hprog
  have hforce : R.InForce c := ⟨hc, hs, fun _ => trivial⟩
  obtain ⟨i, s, hR, -, -, hQ⟩ := R.follow hsafe hforce (fun _ _ _ _ _ _ => trivial) hnew h hx
  exact ⟨i, s, hR, hQ⟩

/-- In every state that interleaved calls reach, the deletions of a message
agree on one tombstone, which every later listing shows. -/
theorem deletes_agree {clock : Int} {ls : List (Label Input Op)}
    {c : Config server Failure Reply World Op}
    (h : (system uuid).runs (.idle (World.init clock)) ls = some c) : DeletesAgree uuid c := by
  let K := burials uuid
  obtain ⟨hholds, -⟩ := K.runs_holds (K.holds_idle (orderly_init clock)) h
  -- what a settled deletion reports is the tombstone in the table
  have hdeletion : ∀ {id k messageId u hist x},
      c.calls id = some ⟨.deleteMessage k messageId u, hist, .settled x⟩ →
        (∀ m, x = .ok (.message m) → ∃ r, uuid messageId = some r ∧ Tombstone r m c.world) ∧
          (PastCheck k messageId u hist → Unfailed hist → ∃ m, x = .ok (.message m)) := by
    intro id k messageId u hist x hcall
    have hstable : ∀ {s t : World}, True → Orderly t → Buries s t → True := fun h _ _ => h
    obtain ⟨i, s, hR, hQ⟩ := burials_follow hstable safe_deleteMessage
      (K.holds_idle (orderly_init clock)) trivial rfl h hcall
    refine ⟨fun m hm => ?_, hQ.2⟩
    obtain ⟨r, hr, hstone⟩ := hQ.1 m hm
    exact ⟨r, hr, hstone.buries hR⟩
  have hstone : ∀ {id k messageId u m},
      c.Settled id (.deleteMessage k messageId u) (.ok (.message m)) →
        uuid messageId = some m.id ∧ Tombstone m.id m c.world := by
    rintro id k messageId u m ⟨hist, hcall⟩
    obtain ⟨r, hr, hstone⟩ := (hdeletion hcall).1 m rfl
    obtain ⟨hid, -⟩ := hstone.empty hholds.inv
    exact ⟨hid ▸ hr, hid ▸ hstone⟩
  refine ⟨hholds.inv.ids, fun hstep => K.step_rely hholds hstep, fun hcall => (hdeletion hcall).2,
    ?_, fun hm => ?_, fun hm hm' hsame => ?_, ?_⟩
  · rintro id k messageId u ls' c' ⟨hist, resume, hcall⟩ hruns hturns
    exact System.settles hruns hcall
      (System.runs_within (deleteMessage_within k messageId u) (fun hcall => by cases hcall) h hcall) hturns
  · obtain ⟨hid, hstone⟩ := hstone hm
    exact ⟨hid, (hstone.empty hholds.inv).2⟩
  · obtain ⟨hid, hm⟩ := hstone hm
    obtain ⟨hid', hm'⟩ := hstone hm'
    have hids : _ = _ := Option.some.inj (hid.symm.trans (hsame.trans hid'))
    exact hm.unique hholds.inv (hids ▸ hm')
  · rintro id k messageId u m ls' c' id' k' u' options messages hm hruns hnew ⟨hist, hcall⟩
    obtain ⟨-, hm⟩ := hstone hm
    obtain ⟨i, s, -, hQ⟩ := burials_follow (fun h _ hw => h.buries hw)
      (safe_listMessages_tombstone m options) hholds hm hnew hruns hcall
    exact hQ messages rfl

/-- Ann sends a message in a conversation with Bob. -/
def sentMessage : List (Label Input Op) :=
  Label.turns 0 (.createConversation "ann" ["ann", "bob"]) (.calm 100 "c") 6 ++
  List.replicate 5 (.resume 0 (.calm 100 "x")) ++
  Label.turns 1 (.sendMessage ⟨"c", "ann", "hello"⟩) (.calm 1500 "m") 5 ++ [.resume 1 (.calm 1500 "x")]

/-- Two deletions of it, each of which has read it before the other writes. -/
def deletedTwice : List (Label Input Op) :=
  Label.turns 2 (.deleteMessage "c" "m" "ann") (.calm 2000 "x") 4 ++
  Label.turns 3 (.deleteMessage "c" "m" "ann") (.calm 3000 "x") 5 ++
  List.replicate 3 (.resume 2 (.calm 4000 "x")) ++ List.replicate 4 (.resume 3 (.calm 5000 "x"))

theorem deletes_agree_twice : ∃ (c : Config server Failure Reply World Op) (m m' : Message),
    (system some).runs (.idle (World.init 0)) (sentMessage ++ deletedTwice) = some c ∧
      c.Settled 2 (.deleteMessage "c" "m" "ann") (.ok (.message m)) ∧
      c.Settled 3 (.deleteMessage "c" "m" "ann") (.ok (.message m')) ∧ m = m' := by
  obtain ⟨c, h, ⟨m, hm⟩, m', hm'⟩ : ∃ c : Config server Failure Reply World Op,
      (system some).runs (.idle (World.init 0)) (sentMessage ++ deletedTwice) = some c ∧
      (∃ m, c.Settled 2 (.deleteMessage "c" "m" "ann") (.ok (.message m))) ∧
      ∃ m, c.Settled 3 (.deleteMessage "c" "m" "ann") (.ok (.message m)) :=
    ⟨_, rfl, ⟨_, _, rfl⟩, _, _, rfl⟩
  exact ⟨c, m, m', h, hm, hm', (deletes_agree h).same hm hm' rfl⟩

end Postgres

end Jiffy
