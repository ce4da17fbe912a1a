-- SUMMARY: Overlapping deletions of one conversation on Postgres: the instant only moves forward when their UPDATEs run in the order of their Dates.
import Jiffy.Postgres.Interference

/-!
# The order of deletions on Postgres

A deletion reads its `Date` in one turn and writes it in a later one, over any
connection of the pool and unconditionally. So the instant can move back. It
does not as long as no UPDATE overtakes one of the same participant with an
earlier `Date`.
-/

namespace Jiffy

open Js Async MessagingService

namespace Postgres

variable {uuid : String → Option String} {i : Input} {w w' : World}

/-- Calls in flight over the Postgres stores. -/
abbrev State : Type := Config server Failure Reply World Op

-- ---------------------------------------------------------------------------
-- The turns of a deletion
-- ---------------------------------------------------------------------------

section Program

variable (c u : String)

/-- The end of a deletion. -/
def written (x : Except Failure Unit) : Proc server Failure Reply :=
  match x with
  | .ok () => .ret .done
  | .error e => .throw e

/-- A deletion that has read `now`. -/
def clearing (now : Int) : Proc server Failure Reply :=
  .await (.query (.updateClearedAt (Date.of now) c u)) written

/-- A deletion that is allowed. -/
def readingClock : Proc server Failure Reply :=
  .sync .newDate fun x =>
    match x with
    | .ok now => .pause (clearing c u now)
    | .error e => .throw e

/-- A deletion with the rows of its conversation. -/
def checked (x : Except Failure (List ConversationParticipantRow)) : Proc server Failure Reply :=
  match x with
  | .error e => .throw e
  | .ok rows =>
    match (rowsToConversations rows).head? with
    | none => .throw (.core (.conversationNotFound c))
    | some conversation =>
      if isParticipant conversation u then
        .pause (readingClock c u)
      else
        .throw (.core (.notAParticipant c u))

/-- A deletion from its first statement on. -/
def checking : Proc server Failure Reply :=
  .await (.query (.selectConversation c)) (checked c u)

/-- These are the turns of `deleteConversation`. -/
theorem program_deleteConversation :
    (Op.program (.deleteConversation c u)).implement implementation = .pause (checking c u) := by
  simp only [Op.program, deleteConversation, awaitParticipant, requireParticipant, Proc.bind_eq_bind,
    Proc.request, Proc.perform, Proc.await_bind, Proc.await_implement, implementation,
    PostgresConversationStore.findById, query, awaitCall, Proc.settle, Proc.pause_bind,
    Proc.pause_catching, Proc.await_catching]
  unfold checking
  congr 2
  funext x
  cases x with
  | error e => rfl
  | ok rows =>
    simp only [Proc.ofExcept_ok, Proc.ret_bind, Proc.pure_eq_ret, Proc.ret_catching, checked]
    cases (rowsToConversations rows).head? with
    | none => rfl
    | some conversation =>
      simp only
      split
      · refine congrArg Proc.pause ?_
        change (syncCall .newDate).settle.bind _ = _
        unfold readingClock
        rw [Proc.settle_perform, Proc.sync_bind]
        congr 1
        funext x
        cases x with
        | error e => rfl
        | ok now =>
          change (query (.updateClearedAt (Date.of now) c u)).settle.bind _ = _
          refine congrArg Proc.pause ?_
          change (awaitCall (.query (.updateClearedAt (Date.of now) c u))).settle.bind _ = _
          unfold clearing
          rw [Proc.settle_request, Proc.await_bind]
          congr 1
          funext y
          cases y <;> rfl
      · rfl

end Program

-- ---------------------------------------------------------------------------
-- Its UPDATE
-- ---------------------------------------------------------------------------

/-- The tables after a deletion's UPDATE. -/
def World.clearedBy (w : World) (k u : String) (d : Int) : World :=
  { w with database := updateParticipant w.database k u fun p => { p with clearedAt := some (d * 1000) } }

section ClearedBy

variable {k u : String} {d : Int}

/-- A committed row after the UPDATE. -/
theorem clearedBy_row (k u : String) (d : Int) {p : ParticipantRecord}
    (hp : p ∈ w.database.participants) (hpending : p.pending = none) :
    ∃ p' ∈ (w.clearedBy k u d).database.participants, p'.pending = none ∧ p'.key = p.key ∧
      p'.clearedAt = if p.key = (k, u) then some (d * 1000) else p.clearedAt := by
  by_cases hkey : p.key = (k, u)
  · obtain ⟨hk, hu⟩ := Prod.mk.inj hkey
    exact ⟨{ p with clearedAt := some (d * 1000) },
      List.mem_map.mpr ⟨p, hp, if_pos ⟨hpending, hk, hu⟩⟩, hpending, rfl, (if_pos hkey).symm⟩
  · refine ⟨p, List.mem_map.mpr ⟨p, hp, if_neg ?_⟩, hpending, rfl, (if_neg hkey).symm⟩
    rintro ⟨-, hk, hu⟩
    exact hkey (Prod.ext hk hu)

theorem clearedBy_advances (hw : Consistent w.database) (h : ClearedUpTo k u d w) :
    Advances w (w.clearedBy k u d) where
  clock := le_refl _
  rows p hp hpending := by
    obtain ⟨p', hp', hpending', hkey', hcleared⟩ := clearedBy_row k u d hp hpending
    refine ⟨p', hp', hpending', hkey', ?_⟩
    rw [hcleared]
    split
    · next hkey =>
      obtain ⟨q, hq, -, hqkey, hupto⟩ := h
      obtain rfl := hw.eq_of_key hp hq (hkey.trans hqkey.symm)
      exact hupto
    · exact .refl _

theorem clearedBy_from (h : Member k u w) : ClearedFrom k u d (w.clearedBy k u d) := by
  obtain ⟨p, hp, hpending, hkey, -⟩ := h
  obtain ⟨p', hp', hpending', hkey', hcleared⟩ := clearedBy_row k u d hp hpending
  refine ⟨p', hp', hpending', hkey'.trans hkey, ?_⟩
  rw [hcleared, if_pos hkey]
  exact .refl _

/-- An earlier Date does not get past the Dates that are still to be written. -/
theorem clearedBy_upTo {k' u' : String} {d' : Int} (h : ClearedUpTo k' u' d' w)
    (hle : k' = k → u' = u → d ≤ d') : ClearedUpTo k' u' d' (w.clearedBy k u d) := by
  obtain ⟨p, hp, hpending, hkey, hupto⟩ := h
  obtain ⟨p', hp', hpending', hkey', hcleared⟩ := clearedBy_row k u d hp hpending
  refine ⟨p', hp', hpending', hkey'.trans hkey, ?_⟩
  rw [hcleared, hkey]
  split
  · next hsame =>
    obtain ⟨rfl, rfl⟩ := Prod.mk.inj hsame
    rintro t ⟨⟩
    exact ⟨_, rfl, Int.mul_le_mul_of_nonneg_right (hle rfl rfl) (by decide)⟩
  · exact hupto

end ClearedBy

variable (uuid i) in
/-- What the turn with the UPDATE does. -/
theorem perform_updateClearedAt (c u : String) {d : Int} (hw : Timely w) (hd : d ≤ toMillis w.clock) :
    Timely (perform uuid i (.query (.updateClearedAt (Date.of d) c u)) w).2 ∧
      ((∃ e, perform uuid i (.query (.updateClearedAt (Date.of d) c u)) w = (.error e, w)) ∨
        ∃ k, uuid c = some k ∧
          perform uuid i (.query (.updateClearedAt (Date.of d) c u)) w = (.ok (), w.clearedBy k u d)) := by
  cases hrun : perform uuid i (.query (.updateClearedAt (Date.of d) c u)) w with
  | mk x w' =>
    cases x with
    | error e =>
      have hsame : w' = w := by
        simp only [perform] at hrun
        split at hrun
        · cases hrun
          rfl
        · split at hrun
          · cases hrun
            rfl
          · cases hrun
      subst hsame
      exact ⟨hw, .inl ⟨e, rfl⟩⟩
    | ok rows =>
      obtain ⟨-, db, hexec, rfl⟩ := perform_query hrun
      refine ⟨hw.change (execute_change hexec) ?_, .inr ?_⟩
      · rintro _ _ _ ⟨⟩ t ⟨⟩
        exact hd
      · obtain ⟨-, k, hk, rfl⟩ := execute_updateClearedAt hexec
        exact ⟨k, hk, rfl⟩

-- ---------------------------------------------------------------------------
-- How far a deletion has come
-- ---------------------------------------------------------------------------

/-- The check of a deletion, and how it was answered. -/
abbrev selected (c : String) (x : Except Failure (List ConversationParticipantRow)) :
    server.Event Failure := ⟨.query (.selectConversation c), x⟩

abbrev dated (d : Int) : server.Event Failure := ⟨.newDate, .ok d⟩

abbrev updated (c u : String) (d : Int) (x : Except Failure Unit) : server.Event Failure :=
  ⟨.query (.updateClearedAt (Date.of d) c u), x⟩

/-- What a deletion has performed, where it stands, and what it can count on. -/
inductive Deletion (uuid : String → Option String) (c u : String) (w : World) :
    List (server.Event Failure) → Status server Failure Reply World → Prop where
  | started : Deletion uuid c u w [] (.suspended fun _ => checking c u)
  | checked {x : Except Failure (List ConversationParticipantRow)}
    (hmember : ∀ rows conversation, x = .ok rows →
      (rowsToConversations rows).head? = some conversation → isParticipant conversation u = true →
        ∃ k, uuid c = some k ∧ Member k u w) :
    Deletion uuid c u w [selected c x] (.suspended fun _ => checked c u x)
  | allowed {x : Except Failure (List ConversationParticipantRow)} {k : String}
    (hc : uuid c = some k) (hmember : Member k u w) :
    Deletion uuid c u w [selected c x] (.suspended fun _ => readingClock c u)
  | dated {x : Except Failure (List ConversationParticipantRow)} {k : String} {d : Int}
    (hc : uuid c = some k) (hpast : d ≤ toMillis w.clock) (hupto : ClearedUpTo k u d w) :
    Deletion uuid c u w [selected c x, Postgres.dated d] (.suspended fun _ => clearing c u d)
  | written {x : Except Failure (List ConversationParticipantRow)} {k : String} {d : Int}
    {y : Except Failure Unit} (hc : uuid c = some k) (hfrom : y = .ok () → ClearedFrom k u d w) :
    Deletion uuid c u w [selected c x, Postgres.dated d, updated c u d y]
      (.suspended fun _ => Postgres.written y)
  | resolved {x : Except Failure (List ConversationParticipantRow)} {k : String} {d : Int}
    {y : Except Failure Unit} (hc : uuid c = some k) (hfrom : ClearedFrom k u d w) :
    Deletion uuid c u w [selected c x, Postgres.dated d, updated c u d y] (.settled (.ok .done))
  | rejected {h : List (server.Event Failure)} {e : Failure} :
    Deletion uuid c u w h (.settled (.error e))

section Deletion

variable {c u : String} {h : List (server.Event Failure)} {st : Status server Failure Reply World}

/-- What a deletion counts on outlasts the turns of others, if they do not
write a later Date than one it still has to write. -/
theorem Deletion.advances (hd : Deletion uuid c u w h st) (hw : Advances w w')
    (hupto : ∀ k d, uuid c = some k → h.getLast? = some (Postgres.dated d) →
      st = .suspended (fun _ => clearing c u d) → ClearedUpTo k u d w → ClearedUpTo k u d w') :
    Deletion uuid c u w' h st := by
  cases hd with
  | started => exact .started
  | checked hmember =>
    refine .checked fun rows conversation hx hhead hu => ?_
    obtain ⟨k, hc, hk⟩ := hmember rows conversation hx hhead hu
    exact ⟨k, hc, hk.advances hw⟩
  | allowed hc hmember => exact .allowed hc (hmember.advances hw)
  | dated hc hpast hup =>
    exact .dated hc (hpast.trans (Int.ediv_le_ediv (by decide) hw.clock)) (hupto _ _ hc rfl rfl hup)
  | written hc hfrom => exact .written hc fun hy => (hfrom hy).advances hw
  | resolved hc hfrom => exact .resolved hc (hfrom.advances hw)
  | rejected => exact .rejected

theorem Deletion.keeps (hd : Deletion uuid c u w h st) (hw : Keeps w w') : Deletion uuid c u w' h st :=
  hd.advances hw.advances fun _ _ _ _ _ hup => hup.keeps hw

/-- The rows an await hands over are the ones that were read. -/
theorem advance_await (r : ServerCall) (k : Except Failure r.Resp → Proc server Failure Reply)
    (h : List (server.Event Failure)) (w : World) :
    (adapter uuid).advance i (.await r k) h w =
      ⟨.suspended fun _ => k (perform uuid i r w).1, h ++ [⟨r, (perform uuid i r w).1⟩],
        (perform uuid i r w).2⟩ := by
  simp only [Adapter.advance, adapter_perform]
  congr 2
  funext t
  cases (perform uuid i r w).1 <;> rfl

/-- One turn of a deletion: it clears when it had read its Date, and else keeps
the tables. -/
theorem Deletion.turn {resume : World → Proc server Failure Reply}
    (hd : Deletion uuid c u w h (.suspended resume)) (hw : Timely w) (i : Input) :
    let o := (adapter uuid).advance i (resume w) h w
    Timely o.state ∧ Deletion uuid c u o.state o.history o.status ∧
      (Keeps w o.state ∨ ∃ k d, uuid c = some k ∧ h.getLast? = some (Postgres.dated d) ∧
        ClearedUpTo k u d w ∧ o.state = w.clearedBy k u d) := by
  cases hd with
  | started =>
    rw [checking, advance_await]
    obtain ⟨htimely, hkeeps⟩ := perform_keeps uuid i w (r := .query (.selectConversation c))
      (fun _ _ _ h => by cases h)
    refine ⟨htimely hw, .checked fun rows conversation hx hhead hu => ?_, .inl hkeeps⟩
    obtain ⟨-, db, hexec, -⟩ := perform_query (Prod.ext hx rfl)
    obtain ⟨rfl, k, hk, hrows, hid, -⟩ := execute_selectConversation hexec
    have hmem := List.mem_of_mem_head? hhead
    obtain ⟨r, hr⟩ := clearedAtOf_row hrows hmem hu
    obtain ⟨row, hrow, hrid⟩ := rowsToConversations_row hmem
    have hmember : Member k u w := by
      refine RowOf.of_joined hr.stored (hr.key.trans ?_) trivial
      rw [← hrid, hid row hrow]
    exact ⟨k, hk, hmember.advances hkeeps.advances⟩
  | @checked x hmember =>
    cases x with
    | error e => exact ⟨hw, .rejected, .inl (.refl w)⟩
    | ok rows =>
      simp only [Postgres.checked]
      cases hhead : (rowsToConversations rows).head? with
      | none => exact ⟨hw, .rejected, .inl (.refl w)⟩
      | some conversation =>
        simp only
        split
        · next hu =>
          obtain ⟨k, hc, hk⟩ := hmember rows conversation rfl hhead hu
          exact ⟨hw, .allowed hc hk, .inl (.refl w)⟩
        · exact ⟨hw, .rejected, .inl (.refl w)⟩
  | allowed hc hmember =>
    refine ⟨hw, .dated hc (le_refl _) ?_, .inl (.refl w)⟩
    obtain ⟨p, hp, hpending, hkey, -⟩ := hmember
    exact ⟨p, hp, hpending, hkey, hw.past p hp⟩
  | @dated x k d hc hpast hupto =>
    rw [clearing, advance_await]
    obtain ⟨htimely, ⟨e, herr⟩ | ⟨k', hk', hdone⟩⟩ :=
      perform_updateClearedAt uuid i c u hw hpast
    · rw [herr] at htimely ⊢
      exact ⟨htimely, .written hc (fun hy => by cases hy), .inl (.refl w)⟩
    · obtain rfl : k = k' := Option.some.inj (hc.symm.trans hk')
      rw [hdone] at htimely ⊢
      refine ⟨htimely, .written hc fun _ => clearedBy_from ?_, .inr ⟨k, d, hc, rfl, hupto, rfl⟩⟩
      exact RowOf.evolves hupto (Keeps.refl w) fun _ _ => trivial
  | @written x k d y hc hfrom =>
    cases y with
    | ok done => exact ⟨hw, .resolved hc (hfrom rfl), .inl (.refl w)⟩
    | error e => exact ⟨hw, .rejected, .inl (.refl w)⟩

end Deletion

-- ---------------------------------------------------------------------------
-- Runs
-- ---------------------------------------------------------------------------

/-- What a call of `op` may ask for. -/
def Asks (op : Op) (r : ServerCall) : Prop := ∃ call, op.Uses call ∧ Sends call r

/-- Call `id` deletes conversation `k` for `u`, has read the Date `d` and is
still to write it. -/
def Pending (uuid : String → Option String) (c : State) (id : Nat) (k u : String) (d : Int) : Prop :=
  ∃ c' h resume, c.calls id = some ⟨.deleteConversation c' u, h, .suspended resume⟩ ∧
    uuid c' = some k ∧ h.getLast? = some (dated d)

/-- The turn writes no Date while an earlier one for the same participant and
conversation is still to be written. -/
def InOrder (uuid : String → Option String) (c : State) (l : Label Input Op) : Prop :=
  ∀ k u d, Pending uuid c l.id k u d → ∀ id d', Pending uuid c id k u d' → d ≤ d'

/-- What holds of a state that a run in order reaches. -/
structure Sound (uuid : String → Option String) (c : State) : Prop where
  timely : Timely c.world
  asks : System.AsksOnly Asks c
  deletions : ∀ {id c' u h st}, c.calls id = some ⟨.deleteConversation c' u, h, st⟩ →
    Deletion uuid c' u c.world h st

theorem sound_idle (clock : Int) : Sound uuid (.idle (World.init clock)) where
  timely := timely_init clock
  asks h := by cases h
  deletions h := by cases h

section Turn

variable {c c' : State} {l : Label Input Op}

/-- A turn starts with a later clock. -/
theorem turn_state (τ : (system uuid).Turn c l c') :
    τ.state = { c.world with clock := τ.input.now } := by
  rcases τ.origin with ⟨-, -, -, -, harrive⟩ | ⟨-, hstate, -⟩
  · exact (Option.some.inj harrive).symm
  · exact hstate

theorem turn_start (hc : Timely c.world) (τ : (system uuid).Turn c l c') :
    Timely τ.state ∧ Keeps c.world τ.state ∧ admissible uuid τ.input τ.state = true := by
  have hadm : admissible uuid τ.input c.world = true := τ.admissible
  have hclock := (admissible_spec hadm).1
  rw [turn_state τ]
  refine ⟨hc.of_participants hclock rfl rfl, .of_participants (fun _ => rfl) hclock rfl, ?_⟩
  simp only [admissible, Bool.and_eq_true, decide_eq_true_eq] at hadm ⊢
  exact ⟨⟨⟨le_refl _, hadm.1.1.2⟩, hadm.1.2⟩, hadm.2⟩

/-- What a turn did to the tables, and how far its call has come if it is a
deletion. -/
theorem Sound.own (hc : Sound uuid c) (τ : (system uuid).Turn c l c') :
    Timely c'.world ∧
      (∀ {c₀ u₀ h st}, c'.calls l.id = some ⟨.deleteConversation c₀ u₀, h, st⟩ →
        Deletion uuid c₀ u₀ c'.world h st) ∧
      (Keeps τ.state c'.world ∨ ∃ k u d, Pending uuid c l.id k u d ∧ ClearedUpTo k u d τ.state ∧
        c'.world = τ.state.clearedBy k u d) := by
  obtain ⟨htimely, hkeeps, -⟩ := turn_start hc.timely τ
  have hasks := τ.program_only program_only hc.asks
  rw [τ.own, τ.world]
  by_cases hop : ∃ c₀ u₀, τ.op = .deleteConversation c₀ u₀
  · obtain ⟨c₀, u₀, hop⟩ := hop
    rw [hop]
    suffices hturn : ∀ o, (adapter uuid).advance τ.input τ.program τ.history τ.state = o →
        Timely o.state ∧ Deletion uuid c₀ u₀ o.state o.history o.status ∧
          (Keeps τ.state o.state ∨ ∃ k u d, Pending uuid c l.id k u d ∧ ClearedUpTo k u d τ.state ∧
            o.state = τ.state.clearedBy k u d) by
      obtain ⟨ht, hd, hk⟩ := hturn _ rfl
      refine ⟨ht, ?_, hk⟩
      rintro c₁ u₁ h st ⟨⟩
      exact hd
    rintro _ rfl
    rcases τ.origin with ⟨-, -, hhist, hprog, -⟩ | ⟨-, -, resume, hcall, hprog⟩
    · have hchecking : τ.program = .pause (checking c₀ u₀) := by
        rw [hprog, hop]
        exact program_deleteConversation c₀ u₀
      rw [hhist, hchecking]
      exact ⟨htimely, .started, .inl (.refl _)⟩
    · rw [hop] at hcall
      rw [hprog]
      obtain ⟨ht, hd, hk | ⟨k, d, hk, hlast, hupto, hw⟩⟩ :=
        ((hc.deletions hcall).keeps hkeeps).turn htimely τ.input
      · exact ⟨ht, hd, .inl hk⟩
      · exact ⟨ht, hd, .inr ⟨k, u₀, d, ⟨c₀, _, resume, hcall, hk, hlast⟩, hupto, hw⟩⟩
  · have hquiet := System.advance_state (A := adapter uuid) (i := τ.input)
      (J := fun s t => (Timely s → Timely t) ∧ Keeps s t) (fun s => ⟨id, .refl s⟩)
      (fun h h' => ⟨fun hs => h'.1 (h.1 hs), h.2.trans h'.2⟩) ?_ hasks τ.history τ.state
    · refine ⟨hquiet.1 htimely, ?_, .inl hquiet.2⟩
      rintro c₀ u₀ h st hcall
      exact absurd ⟨c₀, u₀, (Call.mk.inj (Option.some.inj hcall)).1⟩ hop
    · rintro r s ⟨call, huses, hsends⟩
      refine perform_keeps uuid τ.input s fun d c₀ u₀ hr => ?_
      subst hr
      exact hop ⟨c₀, u₀, uses_clear huses hsends⟩

theorem Sound.turn (hc : Sound uuid c) (hl : InOrder uuid c l) (τ : (system uuid).Turn c l c') :
    Advances τ.state c'.world ∧ Sound uuid c' := by
  obtain ⟨htimely, hkeeps, -⟩ := turn_start hc.timely τ
  obtain ⟨htimely', hown, hworld⟩ := hc.own τ
  have hadvances : Advances τ.state c'.world := by
    rcases hworld with hk | ⟨k, u, d, -, hupto, hw⟩
    · exact hk.advances
    · rw [hw]
      exact clearedBy_advances htimely.consistent hupto
  refine ⟨hadvances, htimely', τ.asksOnly program_only hc.asks, ?_⟩
  intro id c₁ u₁ h st hcall
  by_cases hid : id = l.id
  · subst hid
    exact hown hcall
  · rw [τ.other hid] at hcall
    refine ((hc.deletions hcall).keeps hkeeps).advances hadvances fun k₁ d₁ hk₁ hlast hst hup => ?_
    rcases hworld with hk | ⟨k, u, d, hpending, -, hw⟩
    · exact hup.keeps hk
    · rw [hw]
      refine clearedBy_upTo hup ?_
      rintro rfl rfl
      exact hl _ _ _ hpending id d₁ ⟨c₁, h, _, hst ▸ hcall, hk₁, hlast⟩

end Turn

/-- The runs in which deletions are written in the order of their Dates, while
something lasts that no `cleared_at` moving forward can break. -/
def inOrder (uuid : String → Option String) (Stable : World → Prop)
    (hstable : ∀ {w w'}, Stable w → Advances w w' → Stable w') : Course (system uuid) where
  Holds c := Sound uuid c ∧ Stable c.world
  Permits := InOrder uuid
  Inv w := Timely w ∧ Stable w
  Rely := Advances
  refl := Advances.refl
  trans := Advances.trans
  inv hc := ⟨hc.1.timely, hc.2⟩
  turn {_ _ _} hc hl τ := by
    obtain ⟨htimely, hkeeps, hadm⟩ := turn_start hc.1.timely τ
    exact ⟨⟨htimely, hstable hc.2 hkeeps.advances⟩, hadm, hkeeps.advances, (hc.1.turn hl τ).1⟩
  next {c l c'} hc hl h := by
    obtain ⟨τ⟩ := (system uuid).step_turn h
    obtain ⟨hadvances, hsound⟩ := hc.1.turn hl τ
    have hkeeps := (turn_start hc.1.timely τ).2.1
    exact ⟨hsound, hstable hc.2 (hkeeps.advances.trans hadvances)⟩

/-- `cleared_at` of a participant. -/
def clearedAt (db : Database) (k u : String) : Option Int :=
  (db.participants.find? fun p => p.pending = none ∧ p.key = (k, u)).bind ParticipantRecord.clearedAt

theorem clearedAt_advances (hw : Advances w w') (hdb : Consistent w'.database) (k u : String) :
    NotAfter (clearedAt w.database k u) (clearedAt w'.database k u) := by
  intro t ht
  obtain ⟨p, hfind, ht⟩ := Option.bind_eq_some_iff.mp ht
  have hp := List.find?_some hfind
  simp only [decide_eq_true_eq] at hp
  obtain ⟨p', hp', hpending', hkey', hmoved⟩ := hw.rows p (List.mem_of_find?_eq_some hfind) hp.1
  obtain ⟨t', ht', hle⟩ := hmoved t ht
  refine ⟨t', ?_, hle⟩
  unfold clearedAt
  cases hfind' : w'.database.participants.find? fun p => p.pending = none ∧ p.key = (k, u) with
  | none =>
    have hnone := List.find?_eq_none.mp hfind' p' hp'
    simp [hpending', hkey', hp.2] at hnone
  | some q =>
    have hq := List.find?_some hfind'
    simp only [decide_eq_true_eq] at hq
    obtain rfl := hdb.eq_of_key hp' (List.mem_of_find?_eq_some hfind')
      ((hkey'.trans hp.2).trans hq.2.symm)
    exact ht'

/-- In every run that writes the Dates of deletions in order, no `cleared_at`
ever moves back, and once a deletion has resolved, nothing created before its
Date is shown to its caller by a read that starts later. -/
theorem cleared_moves_forward {clock : Int} {ls₁ ls₂ : List (Label Input Op)} {c₁ c₂ : State}
    (h₁ : (system uuid).runs (.idle (World.init clock)) ls₁ = some c₁)
    (hls₁ : (system uuid).Along (InOrder uuid) (.idle (World.init clock)) ls₁)
    (h₂ : (system uuid).runs c₁ ls₂ = some c₂) (hls₂ : (system uuid).Along (InOrder uuid) c₁ ls₂) :
    (∀ k u, NotAfter (clearedAt c₁.world.database k u) (clearedAt c₂.world.database k u)) ∧
      ∀ id c u h reply k d, c₁.calls id = some ⟨.deleteConversation c u, h, .settled (.ok reply)⟩ →
        dated d ∈ h → uuid c = some k →
          ∀ id' op h' x, c₁.calls id' = none → c₂.calls id' = some ⟨op, h', .settled x⟩ →
            ∀ m, Shows uuid k u m op x → d ≤ m.createdAt := by
  have hsound :=
    ((inOrder uuid (fun _ => True) fun _ _ => trivial).runs ⟨sound_idle clock, trivial⟩ hls₁ h₁).1.1
  constructor
  · obtain ⟨hsound₂, hadvances⟩ :=
      (inOrder uuid (fun _ => True) fun _ _ => trivial).runs ⟨hsound, trivial⟩ hls₂ h₂
    exact clearedAt_advances hadvances hsound₂.1.timely.consistent
  · intro id c u h reply k d hcall hdated hk id' op h' x hnew hx m hm
    have hcleared : ClearedFrom k u d c₁.world := by
      cases hsound.deletions hcall with
      | resolved hc hfrom =>
        obtain rfl := Option.some.inj (hk.symm.trans hc)
        simp only [List.mem_cons, List.not_mem_nil] at hdated
        rcases hdated with hd | hd | hd | hd
        · cases hd
        · cases hd
          exact hfrom
        · cases hd
        · cases hd
    let C := inOrder uuid (ClearedFrom k u d) fun h hw => h.advances hw
    have hfollow : ∀ op, (∀ {i s}, ((system uuid).program op).Safe (system uuid).toAdapter
        (C.conditions fun _ _ _ => True) (ReadsFrom uuid k u d op) i [] s) →
        c₂.calls id' = some ⟨op, h', .settled x⟩ → Shows uuid k u m op x → d ≤ m.createdAt := by
      intro op hsafe hx hm
      obtain ⟨_, _, -, -, hQ⟩ := C.follow (fun _ _ => hsafe) ⟨hsound, hcleared⟩ hls₂ hnew h₂ hx
      exact hQ m hm
    rcases hm with ⟨c', options, messages, rfl, hrest⟩ | ⟨conversations, rfl, hrest⟩
    · exact hfollow _ (safe_listMessages c' options) hx (.inl ⟨c', options, messages, rfl, hrest⟩)
    · exact hfollow _ safe_listConversations hx (.inr ⟨conversations, rfl, hrest⟩)

/-- A run with one deletion is in order. -/
theorem along_of_single (only : Nat) {ls : List (Label Input Op)}
    (hls : ∀ l ∈ ls, ∀ id c u i, l = .call id (.deleteConversation c u) i → id = only) {c : State}
    (hc : ∀ id c' u h st, c.calls id = some ⟨.deleteConversation c' u, h, st⟩ → id = only) :
    (system uuid).Along (InOrder uuid) c ls := by
  refine @System.along_of_calls _ _ _ _ _ _ (system uuid) _ (fun _ => True)
    (fun id op => ∀ c u, op = .deleteConversation c u → id = only) (fun h _ => h) ?_ _
    (fun l hl id op i hcall c u hop => hls l hl id c u i (hop ▸ hcall)) _ trivial ?_
  · rintro c l - hkind k u d ⟨c₁, h, resume, hcall, hk, hlast⟩ id d' ⟨c₂, h', resume', hcall', hk', hlast'⟩
    obtain rfl : id = l.id := (hkind hcall' _ _ rfl).trans (hkind hcall _ _ rfl).symm
    rw [hcall] at hcall'
    cases hcall'
    rw [hlast] at hlast'
    cases hlast'
    exact le_refl d
  · rintro id ⟨op, h, st⟩ hcall c' u rfl
    exact hc id c' u h st hcall

/-- Ann and Bob share a conversation, and Bob sends a message at 1500. -/
def conversationWithMessage : List (Label Input Op) :=
  Label.turns 0 (.createConversation "ann" ["ann", "bob"]) (.calm 100 "c") 6 ++
  List.replicate 5 (.resume 0 (.calm 100 "x")) ++
  Label.turns 1 (.sendMessage ⟨"c", "bob", "hello"⟩) (.calm 1500 "m") 5 ++
  [.resume 1 (.calm 1500 "x")]

/-- Two deletions by Ann read the clock at 1600 and at 2500, and write in the
other order: her instant moves back, and Bob's message is back. -/
theorem cleared_moves_back :
    ∃ (ls₁ ls₂ : List (Label Input Op)) (c₁ c₂ : State),
      (system some).runs (.idle (World.init 0)) ls₁ = some c₁ ∧ (system some).runs c₁ ls₂ = some c₂ ∧
        clearedAt c₁.world.database "c" "ann" = some 2000 ∧
        clearedAt c₂.world.database "c" "ann" = some 1000 ∧
        (∃ h, c₁.calls 3 = some ⟨.deleteConversation "c" "ann", h, .settled (.ok .done)⟩ ∧ dated 2 ∈ h) ∧
        (∃ h, c₂.calls 2 = some ⟨.deleteConversation "c" "ann", h, .settled (.ok .done)⟩) ∧
        c₁.calls 4 = none ∧
        ∃ op h x m, c₂.calls 4 = some ⟨op, h, .settled x⟩ ∧ Shows some "c" "ann" m op x ∧
          m.createdAt < 2 := by
  let ls₁ : List (Label Input Op) := conversationWithMessage ++
    Label.turns 2 (.deleteConversation "c" "ann") (.calm 1600 "x") 3 ++
    Label.turns 3 (.deleteConversation "c" "ann") (.calm 2500 "x") 5
  let ls₂ : List (Label Input Op) := List.replicate 2 (.resume 2 (.calm 2600 "x")) ++
    Label.turns 4 (.listMessages "c" "ann" {}) (.calm 2700 "x") 5
  refine ⟨ls₁, ls₂, _, _, rfl, rfl, rfl, rfl, ⟨_, rfl, ?_⟩, ⟨_, rfl⟩, rfl, _, _, _, _, rfl,
    .inl ⟨_, _, _, rfl, rfl, rfl, List.mem_cons_self⟩, ?_⟩
  · exact List.mem_cons_of_mem _ List.mem_cons_self
  · decide

/-- One deletion, and a read after it. -/
theorem cleared_moves_forward_single :
    ∃ (ls₁ ls₂ : List (Label Input Op)) (c₁ c₂ : State) (x : Except Failure Reply),
      (system some).runs (.idle (World.init 0)) ls₁ = some c₁ ∧ (system some).runs c₁ ls₂ = some c₂ ∧
        (∀ k u, NotAfter (clearedAt c₁.world.database k u) (clearedAt c₂.world.database k u)) ∧
        (∃ h, c₂.calls 3 = some ⟨.listMessages "c" "ann" {}, h, .settled x⟩) ∧
        ∀ m, Shows some "c" "ann" m (.listMessages "c" "ann" {}) x → 2 ≤ m.createdAt := by
  let ls₁ : List (Label Input Op) := conversationWithMessage ++
    Label.turns 2 (.deleteConversation "c" "ann") (.calm 2500 "x") 5
  let ls₂ : List (Label Input Op) := Label.turns 3 (.listMessages "c" "ann" {}) (.calm 2700 "x") 5
  obtain ⟨c₁, c₂, x, h₁, h₂, ⟨h, hdelete, hdated⟩, hnew, hread⟩ :
      ∃ (c₁ c₂ : State) (x : Except Failure Reply),
      (system some).runs (.idle (World.init 0)) ls₁ = some c₁ ∧ (system some).runs c₁ ls₂ = some c₂ ∧
        (∃ h, c₁.calls 2 = some ⟨.deleteConversation "c" "ann", h, .settled (.ok .done)⟩ ∧ dated 2 ∈ h) ∧
        c₁.calls 3 = none ∧
        ∃ h, c₂.calls 3 = some ⟨.listMessages "c" "ann" {}, h, .settled x⟩ :=
    ⟨_, _, _, rfl, rfl, ⟨_, rfl, List.mem_cons_of_mem _ List.mem_cons_self⟩, rfl, _, rfl⟩
  have hsingle : (system some).Along (InOrder some) (.idle (World.init 0)) (ls₁ ++ ls₂) := by
    refine along_of_single 2 ?_ fun _ _ _ _ _ hcall => by cases hcall
    rintro l hl id c u i rfl
    simp [ls₁, ls₂, conversationWithMessage, Label.turns] at hl
    exact hl.1
  obtain ⟨halong₁, halong₂⟩ := (System.along_append _ h₁).mp hsingle
  obtain ⟨hforward, hshown⟩ := cleared_moves_forward h₁ halong₁ h₂ halong₂
  refine ⟨ls₁, ls₂, c₁, c₂, x, h₁, h₂, hforward, hread, fun m hm => ?_⟩
  obtain ⟨h', hread⟩ := hread
  exact hshown 2 "c" "ann" h _ "c" 2 hdelete hdated rfl 3 _ h' x hnew hread m hm

end Postgres

end Jiffy
