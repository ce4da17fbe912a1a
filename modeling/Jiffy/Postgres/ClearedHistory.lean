-- SUMMARY: What a deleted conversation hides on the Postgres stores, where an instant is cut to milliseconds.
import Jiffy.Postgres.Calls

/-!
# Cleared history on Postgres

A message is stamped in microseconds and a deletion in whole milliseconds, so
a deletion hides exactly the messages that are no later than the start of its
own millisecond.
-/

namespace Jiffy

open Js Async MessagingService

namespace Postgres

variable {uuid : String → Option String} {i : Input} {w w' : World}

/-- What happened in a run. -/
abbrev Log : Type := List (Machine.Event World (Input × Op) (Except Failure Reply))

theorem machine_step {op : Op} {x : Except Failure Reply}
    (h : (machine uuid).step (i, op) w = some (x, w')) : admissible uuid i w = true ∧
      (portAdapter uuid).run i op.program { w with clock := i.now } = (x, w') := by
  simp only [machine] at h
  split at h
  · next hadm => exact ⟨hadm, (serve_eq uuid i op w).symm.trans (Option.some.inj h)⟩
  · cases h

theorem consistent_run {clock : Int} {log : Log} (h : (machine uuid).Run (World.init clock) log w) :
    Consistent w.database := by
  have hinit : Consistent (World.init clock).database := by
    constructor <;> simp [World.init]
  refine h.inv (I := fun _ w => Consistent w.database) hinit ?_
  rintro _ w ⟨i, op⟩ x w' hw hstep
  obtain ⟨-, hrun⟩ := machine_step hstep
  have hw' := run_invariant uuid i (I := fun w => Consistent w.database)
    (fun hw hchange _ => hchange.consistent hw)
    (fun _ hp hm hw => ⟨hp ▸ hw.keys, hm ▸ hw.ids, hp ▸ hw.millis⟩) op (w := { w with clock := i.now }) hw
  rw [hrun] at hw'
  exact hw'

-- ---------------------------------------------------------------------------
-- What was sent
-- ---------------------------------------------------------------------------

/-- A message of conversation `k` with this id is stored. -/
def Stored (k id : String) (w : World) : Prop :=
  ∃ m ∈ w.database.messages, m.conversationId = k ∧ m.id = id

/-- The event is a send that resolved with a message of conversation `k` with
this id. -/
def Sent (k id : String) (e : Machine.Event World (Input × Op) (Except Failure Reply)) : Prop :=
  ∃ input message, e.input.2 = .sendMessage input ∧ e.output = .ok (.message message) ∧
    message.conversationId = k ∧ message.id = id

variable (uuid i) in
/-- Only a send stores a message. -/
theorem stored_before {op : Op} (hop : ¬ ∃ input, op = .sendMessage input) {k id : String}
    (h : Stored k id ((portAdapter uuid).run i op.program w).2) : Stored k id w := by
  rw [portAdapter, ← Adapter.run_implement] at h
  revert h
  refine Adapter.run_only _ (J := fun w w' => Stored k id w' → Stored k id w) (fun _ h => h)
    (fun h h' hs => h (h' hs)) ?_ (program_only op) w
  rintro r w ⟨call, huses, hsends⟩ hstored
  cases r with
  | query s =>
    rcases perform_query_world uuid i w s with h | ⟨rows, db, hexec, h⟩
    · rw [adapter_perform, h] at hstored
      exact hstored
    · rw [adapter_perform, h] at hstored
      obtain ⟨m', hm', hk, hid⟩ := hstored
      rcases (execute_change hexec).message hm' with ⟨m, hm, hsame⟩ | ⟨-, -, c, u, body, rfl⟩
      · rw [hsame] at hk hid
        exact ⟨m, hm, hk, hid⟩
      · exact absurd (uses_insert huses hsends) hop
  | connect | release | canCreateConversation | newDate | publish | notify | handleUpgrade | register
    | unregister | socketsOf | isOpen | send => exact hstored

variable (uuid i) in
/-- And a stored message stays. -/
theorem stored_after {k id : String} (h : Stored k id w) (op : Op) :
    Stored k id ((portAdapter uuid).run i op.program w).2 := by
  refine run_invariant uuid i ?_ (fun _ _ hm ⟨m, hmem, h⟩ => ⟨m, hm ▸ hmem, h⟩) op h
  rintro w s db ⟨m, hm, hk, hid⟩ hchange -
  obtain ⟨m', hm', hsame⟩ := hchange.kept hm
  refine ⟨m', hm', ?_, ?_⟩
  · rw [hsame]
    exact hk
  · rw [hsame]
    exact hid

theorem stored_step {op : Op} {x : Except Failure Reply} {k id : String}
    (h : (machine uuid).step (i, op) w = some (x, w')) :
    Stored k id w' ↔ Stored k id w ∨ Sent k id ⟨w, (i, op), x, w'⟩ := by
  obtain ⟨-, hrun⟩ := machine_step h
  by_cases hop : ∃ input, op = .sendMessage input
  · obtain ⟨input, rfl⟩ := hop
    rw [Op.program, Proc.bind_eq_bind] at hrun
    simp only [Proc.pure_eq_ret, Adapter.run_map] at hrun
    obtain ⟨rfl, rfl⟩ := Prod.mk.inj hrun
    rcases sendMessage_stores uuid i input { w with clock := i.now } with ⟨e, he, hdb⟩ | ⟨m, hm, hdb⟩
    · simp only [Stored, Sent, he, hdb]
      simp [Except.map]
    · simp only [Stored, Sent, hm, hdb]
      simp [Except.map, rowToMessage, MessageRecord.row, or_and_right, exists_or]
  · have hsent : ¬ Sent k id ⟨w, (i, op), x, w'⟩ := by
      rintro ⟨input, message, hin, -⟩
      exact hop ⟨input, hin⟩
    rw [or_iff_left hsent]
    constructor
    · intro hstored
      refine stored_before uuid i (w := { w with clock := i.now }) hop ?_
      rw [hrun]
      exact hstored
    · intro hstored
      have hafter := stored_after uuid i (w := { w with clock := i.now }) hstored op
      rw [hrun] at hafter
      exact hafter

/-- The stored messages are those whose send has resolved. -/
theorem stored_iff_sent {clock : Int} {log : Log} (h : (machine uuid).Run (World.init clock) log w)
    {k id : String} : Stored k id w ↔ ∃ e ∈ log, Sent k id e := by
  refine h.inv (I := fun log w => Stored k id w ↔ ∃ e ∈ log, Sent k id e) ?_ ?_
  · simp [Stored, World.init]
  · rintro log w ⟨i, op⟩ x w' hw hstep
    rw [stored_step hstep, hw]
    simp [or_and_right, exists_or]

-- ---------------------------------------------------------------------------
-- Messages that stay hidden
-- ---------------------------------------------------------------------------

/-- `u` deleted conversation `k` at the instant `t`, and the messages with the
given ids were stored by then. -/
structure Hides (k u : String) (t : Int) (ids : List String) (w : World) : Prop where
  consistent : Consistent w.database
  past : t ≤ toMillis w.clock
  cleared : ∃ p ∈ w.database.participants, p.pending = none ∧ p.key = (k, u) ∧
    ∃ t', p.clearedAt = some t' ∧ t * 1000 ≤ t'
  stored : ∀ id ∈ ids, ∃ m ∈ w.database.messages, m.id = id
  old : ∀ m ∈ w.database.messages, m.id ∈ ids → m.createdAt ≤ t * 1000

section Hides

variable {k u : String} {t : Int} {ids : List String}

theorem Hides.change {s : Statement} {db : Database} (h : Hides k u t ids w)
    (hchange : Change uuid i w.clock w.database s db)
    (hs : ∀ d c u, s = .updateClearedAt d c u → d = Date.of (toMillis w.clock))
    (hfresh : i.uuid ∉ ids) : Hides k u t ids { w with database := db } where
  consistent := hchange.consistent h.consistent
  past := h.past
  cleared := by
    obtain ⟨p, hp, hpending, hkey, t', ht', hle⟩ := h.cleared
    obtain ⟨p', hp', hpending', hkey', hcleared⟩ := hchange.participant hp hpending
    refine ⟨p', hp', hpending', hkey'.trans hkey, ?_⟩
    rcases hcleared with hsame | ⟨d, c, ms, hd, -, hms, hnew⟩
    · exact ⟨t', hsame.trans ht', hle⟩
    · obtain rfl := hs d c _ hd
      cases hms
      exact ⟨_, hnew, Int.mul_le_mul_of_nonneg_right h.past (by decide)⟩
  stored id hid := by
    obtain ⟨m, hm, rfl⟩ := h.stored id hid
    obtain ⟨m', hm', hsame⟩ := hchange.kept hm
    exact ⟨m', hm', by rw [hsame]⟩
  old m' hm' hid := by
    rcases hchange.message hm' with ⟨m, hm, hsame⟩ | ⟨hnew, -⟩
    · rw [hsame] at hid ⊢
      exact h.old m hm hid
    · exact absurd (hnew ▸ hid) hfresh

theorem Hides.step {op : Op} {x : Except Failure Reply} (h : Hides k u t ids w)
    (hstep : (machine uuid).step (i, op) w = some (x, w')) : Hides k u t ids w' := by
  obtain ⟨hadm, hrun⟩ := machine_step hstep
  obtain ⟨hclock, hfresh⟩ := admissible_spec hadm
  have hnotin : i.uuid ∉ ids := by
    intro hid
    obtain ⟨m, hm, hmid⟩ := h.stored _ hid
    exact hfresh m hm hmid
  have htick : Hides k u t ids { w with clock := i.now } :=
    ⟨h.consistent, h.past.trans (Int.ediv_le_ediv (by decide) hclock), h.cleared, h.stored, h.old⟩
  have hw' := run_invariant uuid i (I := Hides k u t ids)
    (fun hw hchange hs => hw.change hchange hs hnotin)
    (fun hclock hp hm hw => ⟨⟨hp ▸ hw.consistent.keys, hm ▸ hw.consistent.ids,
      hp ▸ hw.consistent.millis⟩, hclock ▸ hw.past, hp ▸ hw.cleared, hm ▸ hw.stored, hm ▸ hw.old⟩)
    op htick
  rw [hrun] at hw'
  exact hw'

theorem Hides.not_shown (h : Hides k u t ids w) {m : Message} (hm : ShownTo w.database k u m) :
    m.id ∉ ids := by
  intro hid
  obtain ⟨r, hr, hkey, s, hs, rfl, hlate⟩ := hm
  obtain ⟨p, hp, -, hkey', t', ht', hle⟩ := h.cleared
  obtain ⟨-, -, hstored, -, -⟩ := mem_joined.mp hr
  obtain rfl := h.consistent.eq_of_key hstored hp (hkey.trans hkey'.symm)
  have hmillis := h.consistent.millis r.2 hstored t' ht'
  have hold := h.old s hs hid
  have hlate := hlate t' ht'
  unfold toMillis at hlate
  omega

end Hides

theorem Hides.not_shows {k u : String} {t : Int} {ids : List String} (h : Hides k u t ids w)
    {op : Op} {o : Except Failure Reply} (hstep : (machine uuid).step (i, op) w = some (o, w'))
    {m : Message} (hm : Shows uuid k u m op o) : m.id ∉ ids := by
  obtain ⟨hadm, hrun⟩ := machine_step hstep
  have htick : Hides k u t ids { w with clock := i.now } :=
    ⟨h.consistent, h.past.trans (Int.ediv_le_ediv (by decide) (admissible_spec hadm).1), h.cleared,
      h.stored, h.old⟩
  rcases hm with ⟨c, options, messages, rfl, hc, rfl, hm⟩ |
    ⟨conversations, rfl, rfl, conversation, hconv, rfl, hlast⟩
  · obtain ⟨messages', w₁, hlist, hret⟩ := Adapter.run_bind_ok _ hrun
    cases hret
    obtain ⟨-, k', hk', hshown⟩ := listMessages_ok hlist
    obtain rfl : k' = k := Option.some.inj (hk'.symm.trans hc)
    exact htick.not_shown (hshown m hm).1
  · obtain ⟨conversations', w₁, hlist, hret⟩ := Adapter.run_bind_ok _ hrun
    cases hret
    obtain ⟨-, hshown⟩ := listConversations_ok hlist
    exact htick.not_shown (hshown conversation hconv m hlast)

-- ---------------------------------------------------------------------------
-- A deletion
-- ---------------------------------------------------------------------------

/-- The messages of a conversation. -/
def World.messagesOf (w : World) (k : String) : List MessageRecord :=
  w.database.messages.filter fun m => m.conversationId = k

/-- What a deletion that resolved at `now` did: it wrote the start of its own
millisecond to the row of `u`. -/
structure Deleted (uuid : String → Option String) (i : Input) (k u : String) (w w' : World) : Prop where
  world : w' = { w with
    clock := i.now
    database := updateParticipant w.database k u
      fun p => { p with clearedAt := some (toMillis i.now * 1000) } }
  inRange : timestampParam (Date.of (toMillis i.now)) = .ok (toMillis i.now * 1000)
  row : ∃ r ∈ joined w.database, r.2.key = (k, u)

theorem deleted {c u : String} (h : (machine uuid).step (i, .deleteConversation c u) w =
    some (.ok .done, w')) : ∃ k, uuid c = some k ∧ Deleted uuid i k u w w' := by
  obtain ⟨-, hrun⟩ := machine_step h
  obtain ⟨_, w₁, hdelete, hret⟩ := Adapter.run_bind_ok _ hrun
  cases hret
  obtain ⟨k, r, db, hc, hr, hkey, hexec, rfl⟩ := deleteConversation_ok hdelete
  obtain ⟨hrange, k', hc', rfl⟩ := execute_updateClearedAt hexec
  obtain rfl : k = k' := Option.some.inj (hc.symm.trans hc')
  exact ⟨k, hc, rfl, hrange, r, hr, hkey⟩

section Deleted

variable {k u : String}

/-- The row of `u` after the deletion. -/
theorem Deleted.cleared (h : Deleted uuid i k u w w') : ∃ r ∈ joined w'.database,
    r.2.key = (k, u) ∧ r.2.clearedAt = some (toMillis i.now * 1000) := by
  obtain ⟨r, hr, hkey⟩ := h.row
  obtain ⟨hc, hcp, hp, hpp, hid⟩ := mem_joined.mp hr
  obtain ⟨hconv, huser⟩ := Prod.mk.inj hkey
  rw [h.world]
  refine ⟨(r.1, { r.2 with clearedAt := some (toMillis i.now * 1000) }), ?_, hkey, rfl⟩
  refine mem_joined.mpr ⟨hc, hcp, ?_, hpp, hid⟩
  refine List.mem_map.mpr ⟨r.2, hp, ?_⟩
  rw [if_pos ⟨hpp, hconv, huser⟩]

theorem Deleted.hides (h : Deleted uuid i k u w w') (hw : Consistent w'.database)
    (hold : ∀ m ∈ w.messagesOf k, m.createdAt ≤ toMillis i.now * 1000) :
    Hides k u (toMillis i.now) ((w.messagesOf k).map fun m => m.id) w' where
  consistent := hw
  past := by rw [h.world]
  cleared := by
    obtain ⟨r, hr, hkey, hclear⟩ := h.cleared
    obtain ⟨-, -, hp, hpp, -⟩ := mem_joined.mp hr
    exact ⟨r.2, hp, hpp, hkey, _, hclear, le_refl _⟩
  stored id hid := by
    obtain ⟨m, hm, rfl⟩ := List.mem_map.mp hid
    refine ⟨m, ?_, rfl⟩
    rw [h.world]
    exact List.mem_of_mem_filter hm
  old m hm hid := by
    obtain ⟨m', hm', hmid⟩ := List.mem_map.mp hid
    have hmem : m' ∈ w'.database.messages := by
      rw [h.world]
      exact List.mem_of_mem_filter hm'
    obtain rfl := List.inj_on_of_nodup_map hw.ids hmem hm hmid
    exact hold _ hm'

/-- The same turn, with nothing failing. -/
def Input.faultless (i : Input) : Input := { i with fault := fun _ => none }

/-- A read that follows at once and asks for nothing in particular shows
something, if a message is later than the start of the millisecond. -/
theorem Deleted.shows (h : Deleted uuid i k u w w') (hw : Consistent w'.database) {c : String}
    (hc : uuid c = some k) (hadm : admissible uuid i w = true) {m : MessageRecord}
    (hmem : m ∈ w.messagesOf k) (hlate : toMillis i.now * 1000 < m.createdAt) :
    ∃ x o shown, (machine uuid).step x w' = some (o, w') ∧ Shows uuid k u shown x.2 o ∧
      Stored k shown.id w' := by
  obtain ⟨r, hr, hkey, hclear⟩ := h.cleared
  have hworld := h.world
  obtain ⟨hm, hmk⟩ := List.mem_filter.mp hmem
  have hadm' : admissible uuid i.faultless w' = true := by
    subst hworld
    simp only [admissible, Bool.and_eq_true, decide_eq_true_eq] at hadm ⊢
    exact ⟨⟨⟨le_refl _, hadm.1.1.2⟩, hadm.1.2⟩, hadm.2⟩
  have hrange : ∀ t, r.2.clearedAt = some t → timestampParam (Date.of (toMillis t)) = .ok t := by
    intro t ht
    obtain rfl := Option.some.inj (hclear.symm.trans ht)
    have hmillis : toMillis (toMillis i.now * 1000) = toMillis i.now :=
      Int.mul_ediv_cancel _ (by decide)
    rw [hmillis]
    exact h.inRange
  have hstored : m ∈ w'.database.messages := by
    subst hworld
    exact hm
  obtain ⟨messages, hlist, hne⟩ := listMessages_resolves (i := i.faultless)
    (fun _ => rfl) hw hc hr hkey hrange hstored (by simpa using hmk) fun t ht => by
      obtain rfl := Option.some.inj (hclear.symm.trans ht)
      exact hlate
  obtain ⟨shown, rest, rfl⟩ := List.exists_cons_of_ne_nil hne
  obtain ⟨-, k', hk', hshown⟩ := listMessages_ok hlist
  obtain rfl : k = k' := Option.some.inj (hc.symm.trans hk')
  obtain ⟨⟨-, -, -, s, hs, hms, -⟩, hconv⟩ := hshown shown List.mem_cons_self
  have hclock : { w' with clock := i.faultless.now } = w' := by
    rw [hworld]
    rfl
  have hserve : serve uuid i.faultless (.listMessages c u {}) w' =
      (.ok (.messages (shown :: rest)), w') := by
    rw [serve_eq, Op.program, Proc.bind_eq_bind]
    simp only [Proc.pure_eq_ret, Adapter.run_map, hclock, hlist]
    rfl
  refine ⟨(i.faultless, .listMessages c u {}), .ok (.messages (shown :: rest)), shown, ?_, ?_, ?_⟩
  · simp only [machine, hadm', if_true, hserve]
  · exact .inl ⟨c, {}, _, rfl, hc, rfl, List.mem_cons_self⟩
  · refine ⟨s, hs, ?_, ?_⟩
    · exact (congrArg Message.conversationId hms).symm.trans hconv
    · exact congrArg Message.id hms.symm

end Deleted

/-- A deletion hides everything sent before it exactly when all of that is no
later than the start of the deletion's millisecond. -/
theorem cleared_hidden_iff {clock : Int} {log : Log} {c u k : String}
    (hrun : (machine uuid).Run (World.init clock) log w)
    (hdelete : (machine uuid).step (i, .deleteConversation c u) w = some (.ok .done, w'))
    (hk : uuid c = some k) :
    (∀ log' w'', (machine uuid).Run w' log' w'' → ∀ e' ∈ log', ∀ m,
      Shows uuid k u m e'.input.2 e'.output → ∀ e ∈ log, ¬ Sent k m.id e) ↔
      ∀ m ∈ w.messagesOf k, m.createdAt ≤ toMillis i.now * 1000 := by
  obtain ⟨k', hk', hdeleted⟩ := deleted hdelete
  obtain rfl : k = k' := Option.some.inj (hk.symm.trans hk')
  have hw' : Consistent w'.database := consistent_run (hrun.snoc hdelete)
  have hsame : w'.database.messages = w.database.messages := by
    rw [hdeleted.world]
    rfl
  constructor
  · intro hhidden m hm
    by_contra hlate
    obtain ⟨x, o, shown, hstep, hshows, s, hs, hstored⟩ :=
      hdeleted.shows hw' hk (machine_step hdelete).1 hm (not_le.mp hlate)
    obtain ⟨e, he, hsent⟩ := (stored_iff_sent hrun).mp ⟨s, hsame ▸ hs, hstored⟩
    exact hhidden _ _ (Machine.Run.nil.snoc hstep) _ List.mem_cons_self shown hshows e he hsent
  · rintro hold log' w'' hrun' e' he' m hshows e he hsent
    have hides := hdeleted.hides hw' hold
    have hid : m.id ∈ (w.messagesOf k).map fun m => m.id := by
      obtain ⟨s, hs, hconv, hid⟩ := (stored_iff_sent hrun).mpr ⟨e, he, hsent⟩
      exact List.mem_map.mpr ⟨s, List.mem_filter.mpr ⟨hs, by simpa using hconv⟩, hid⟩
    refine hrun'.events (P := fun e' => ¬ Shows uuid k u m e'.input.2 e'.output) ?_ e' he' hshows
    rintro log'' t ⟨j, op⟩ o t' hrun'' hstep hshown
    refine Hides.not_shows (hrun''.inv (I := fun _ t =>
      Hides k u (toMillis i.now) ((w.messagesOf k).map fun m => m.id) t) hides ?_) hstep hshown hid
    rintro _ t ⟨j, op⟩ o t' ht hstep
    exact ht.step hstep

/-- A message sent 200 microseconds before the deletion stays visible: the
deletion reads the clock at 1700 and writes 1000. -/
theorem cleared_shown_same_millisecond : ∃ log w i w' log' w'',
    (machine some).Run (World.init 0) log w ∧
      (machine some).step (i, .deleteConversation "c" "ann") w = some (.ok .done, w') ∧
        (machine some).Run w' log' w'' ∧
          ∃ e' ∈ log', ∃ m, Shows some "c" "ann" m e'.input.2 e'.output ∧
            ∃ e ∈ log, Sent "c" m.id e := by
  have hrun := (Machine.Run.nil (M := machine some) (s := World.init 0))
    |>.snoc (i := (.calm 100 "c", .createConversation "ann" ["ann", "bob"])) rfl
    |>.snoc (i := (.calm 1500 "m", .sendMessage ⟨"c", "bob", "hello"⟩)) rfl
  refine ⟨_, _, .calm 1700 "x", _, _, _, hrun, rfl,
    .snoc (i := (.calm 1800 "y", .listMessages "c" "ann" {})) .nil rfl, _, List.mem_cons_self, _,
    .inl ⟨_, _, _, rfl, rfl, rfl, List.mem_cons_self⟩, _,
    List.mem_cons_of_mem _ List.mem_cons_self, ?_⟩
  exact ⟨_, _, rfl, rfl, rfl, rfl⟩

/-- One sent in an earlier millisecond is hidden. -/
theorem cleared_hidden_earlier_millisecond : ∃ log w i w',
    (machine some).Run (World.init 0) log w ∧
      (machine some).step (i, .deleteConversation "c" "ann") w = some (.ok .done, w') ∧
        (∃ e ∈ log, Sent "c" "m" e) ∧
          ∀ log' w'', (machine some).Run w' log' w'' → ∀ e' ∈ log', ∀ m,
            Shows some "c" "ann" m e'.input.2 e'.output → ∀ e ∈ log, ¬ Sent "c" m.id e := by
  have hrun := (Machine.Run.nil (M := machine some) (s := World.init 0))
    |>.snoc (i := (.calm 100 "c", .createConversation "ann" ["ann", "bob"])) rfl
    |>.snoc (i := (.calm 500 "m", .sendMessage ⟨"c", "bob", "hello"⟩)) rfl
  refine ⟨_, _, .calm 1700 "x", _, hrun, rfl, ?_, ?_⟩
  · exact ⟨_, List.mem_cons_of_mem _ List.mem_cons_self, _, _, rfl, rfl, rfl, rfl⟩
  · exact (cleared_hidden_iff (c := "c") (u := "ann") (i := .calm 1700 "x") hrun rfl rfl).mpr (by decide)

end Postgres

end Jiffy
