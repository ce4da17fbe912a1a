-- SUMMARY: Deletions on live connections: when a live frame of a message can follow its tombstone on a socket, and when not.
import Jiffy.Postgres.Pushing

/-!
# Deletions on live connections

Every message that the bus hands over looks its conversation up on its own, so a
frame goes out whenever that lookup comes back. A tombstone that comes first is
overtaken by whatever live version of the message is still under way.
-/

namespace Jiffy

open Js Async MessagingService

namespace Postgres

variable {uuid : String → Option String} {i : Input} {w : World} {task : Task} {x : String}
  {c c' : LiveState} {l : Label Input Task} {es : List (server.Event Failure)}

-- ---------------------------------------------------------------------------
-- What a turn adds
-- ---------------------------------------------------------------------------

/-- What a request publishes. -/
def publishesBy : server.Event Failure → List Message
  | ⟨.publish m, _⟩ => [m]
  | _ => []

/-- The frames that a request sends. -/
def framesBy : server.Event Failure → List (Frame Message)
  | ⟨.send s m, _⟩ => [⟨s, m⟩]
  | _ => []

variable (uuid i w) in
theorem perform_published (r : ServerCall) : (perform uuid i r w).2.published =
    w.published ++ publishesBy ⟨r, (perform uuid i r w).1⟩ := by
  cases r with
  | publish m => rfl
  | query s =>
    have hsame := perform_query_outside uuid i w (f := World.published) (fun _ _ => rfl) s
    exact hsame.trans (List.append_nil _).symm
  | _ => exact (List.append_nil _).symm

variable (uuid i w) in
theorem perform_frames (r : ServerCall) : (perform uuid i r w).2.sockets.frames =
    w.sockets.frames ++ framesBy ⟨r, (perform uuid i r w).1⟩ := by
  cases r with
  | send s m => rfl
  | query s =>
    have hsame := perform_query_outside uuid i w (f := fun w => w.sockets.frames) (fun _ _ => rfl) s
    exact hsame.trans (List.append_nil _).symm
  | _ => exact (List.append_nil _).symm

variable (uuid i w) in
theorem perform_handed (r : ServerCall) : (perform uuid i r w).2.handed = w.handed := by
  cases r with
  | query s => exact perform_query_outside uuid i w (fun _ _ => rfl) s
  | _ => rfl

/-- The requests of a turn of `task` that went on after `before`, with what they
add to the messages published and the frames sent. -/
structure Adds (uuid : String → Option String) (c c' : LiveState) (task : Task) (i : Input)
    (before es : List (server.Event Failure)) : Prop where
  published : c'.world.published = c.world.published ++ es.flatMap publishesBy
  frames : c'.world.sockets.frames = c.world.sockets.frames ++ es.flatMap framesBy
  handed : c.world.handed ≤ c'.world.handed
  event : ∀ e ∈ es, ∃ es₁ s, es₁ ⊆ es ∧ Buries c.world s ∧ admissible uuid i s = true ∧
    BeforePush task (before ++ es₁) s e.1 ∧ e.2 = (perform uuid i e.1 s).1

/-- Where a turn goes on, nothing is published or sent yet. -/
theorem turn_begins (τ : (realtime uuid).Turn c l c') : τ.state.published = c.world.published ∧
    τ.state.sockets.frames = c.world.sockets.frames ∧ c.world.handed ≤ τ.state.handed := by
  rcases τ.origin with ⟨-, -, -, -, harr⟩ | ⟨-, hstate, -⟩
  · have harrives := arrive_arrives harr
    exact ⟨harrives.published, harrives.frames, harrives.handed⟩
  · rw [hstate]
    exact ⟨rfl, rfl, le_refl _⟩

theorem turn_adds (hc : (pushing uuid).Holds c) (τ : (realtime uuid).Turn c l c') :
    ∃ es, ((realtime uuid).advance τ.input τ.program τ.history τ.state).history = τ.history ++ es ∧
      Adds uuid c c' τ.op τ.input τ.history es := by
  let K := pushing uuid
  obtain ⟨hI, hR, ha, hp⟩ := K.turn_safe hc τ
  obtain ⟨hpublished, hframes, hhanded⟩ := turn_begins τ
  obtain ⟨es, hes, hevents⟩ :=
    K.advance_events K.refl K.trans (fun hI ha hp => (K.perform hI ha hp).2) hI ha hp
  obtain ⟨es₁, hes₁, hlog⟩ := System.advance_log (A := adapter uuid) (L := World.published)
    (f := publishesBy) (fun i r s => perform_published uuid i s r) τ.program τ.input τ.history τ.state
  obtain rfl := List.append_cancel_left (hes.symm.trans hes₁)
  obtain ⟨es₂, hes₂, hsent⟩ := System.advance_log (A := adapter uuid) (L := fun w => w.sockets.frames)
    (f := framesBy) (fun i r s => perform_frames uuid i s r) τ.program τ.input τ.history τ.state
  obtain rfl := List.append_cancel_left (hes.symm.trans hes₂)
  refine ⟨es, hes, ?_, ?_, ?_, fun e he => ?_⟩
  · rw [τ.world, ← hpublished]
    exact hlog
  · rw [τ.world, ← hframes]
    exact hsent
  · have hkept : ((adapter uuid).advance τ.input τ.program τ.history τ.state).state.handed = τ.state.handed :=
      System.advance_inv (I := fun s => s.handed = τ.state.handed)
        (fun r s hs => (perform_handed uuid τ.input s r).trans hs) _ _ rfl
    rw [τ.world]
    exact hhanded.trans hkept.symm.le
  · obtain ⟨es₁, es₂, rfl⟩ := List.append_of_mem he
    obtain ⟨s, hs, -, ha, hpre, hanswer, -⟩ := hevents es₁ e es₂ rfl
    exact ⟨es₁, s, List.subset_append_left _ _, hR.trans hs, ha, hpre, hanswer⟩

theorem Adds.sends {before : List (server.Event Failure)} (h : Adds uuid c c' task i before es)
    {f : Frame Message} (hf : f ∈ es.flatMap framesBy) : ∃ n, task = .deliver n f.message := by
  obtain ⟨⟨r, answer⟩, he, hf⟩ := List.mem_flatMap.mp hf
  obtain ⟨es₁, s, -, -, -, hpre, -⟩ := h.event _ he
  cases r with
  | send socket m =>
    obtain rfl := List.mem_singleton.mp hf
    exact hpre
  | _ => cases hf

/-- What is published is live only if the call inserted it. -/
theorem Adds.publishes {before : List (server.Event Failure)} (h : Adds uuid c c' task i before es)
    {m : Message} (hm : m ∈ es.flatMap publishesBy) (hlive : m.deletedAt = none) :
    InsertedIn before m.id ∨ InsertedIn es m.id := by
  obtain ⟨⟨r, answer⟩, he, hm⟩ := List.mem_flatMap.mp hm
  obtain ⟨es₁, s, hsub, -, -, hpre, -⟩ := h.event _ he
  cases r with
  | publish message =>
    obtain rfl := List.mem_singleton.mp hm
    refine (InsertedIn.append.mp (hpre.1 hlive)).imp_right ?_
    rintro ⟨c, u, body, rows, hmem, hrow⟩
    exact ⟨c, u, body, rows, hsub hmem, hrow⟩
  | _ => cases hm

/-- No turn inserts a message that is already there. -/
theorem Adds.not_inserted {before : List (server.Event Failure)} (h : Adds uuid c c' task i before es)
    (hx : HasMessage x c.world) : ¬ InsertedIn es x := by
  rintro ⟨k, u, body, rows, hmem, row, hrow, rfl⟩
  obtain ⟨es₁, s, -, hburies, ha, -, hanswer⟩ := h.event _ hmem
  obtain ⟨-, db, hexec, -⟩ := perform_query (Prod.ext hanswer.symm rfl)
  obtain ⟨_, m, -, hm, rfl, -⟩ := execute_insertMessage hexec
  obtain rfl := List.mem_singleton.mp hrow
  obtain ⟨r, hr, hsame⟩ := hx.buries hburies
  exact (admissible_spec ha).2 r hr (hsame.trans (congrArg MessageRecord.id hm))

-- ---------------------------------------------------------------------------
-- Live versions under way
-- ---------------------------------------------------------------------------

/-- A live version of the message may still go out. -/
inductive UnderWay (x : String) (c : LiveState) : Prop
  /-- It is inserted, and its call has yet to publish it. -/
  | inserted {id task h k} (hcall : c.calls id = some ⟨task, h, .suspended k⟩) (hx : InsertedIn h x)
  /-- It is published, and the bus has yet to hand it over. -/
  | published {n m} (hn : c.world.handed ≤ n) (hm : c.world.published[n]? = some m) (hid : m.id = x)
      (hlive : m.deletedAt = none)
  /-- It is handed over, and its delivery has yet to send it. -/
  | handed {id n m h k} (hcall : c.calls id = some ⟨.deliver n m, h, .suspended k⟩) (hid : m.id = x)
      (hlive : m.deletedAt = none)

/-- What a call in flight has inserted, it has yet to publish. -/
theorem underWay_of_inserted (τ : (realtime uuid).Turn c l c') (hx : InsertedIn τ.history x) :
    UnderWay x c := by
  rcases τ.origin with ⟨-, -, hnil, -⟩ | ⟨-, -, k, hcall, -⟩
  · rw [hnil] at hx
    obtain ⟨_, _, _, _, hmem, -⟩ := hx
    cases hmem
  · exact .inserted hcall hx

/-- A delivery that takes a turn was handed over before or is so just now. -/
theorem underWay_of_deliver (τ : (realtime uuid).Turn c l c') {n : Nat} {m : Message}
    (hop : τ.op = .deliver n m) (hid : m.id = x) (hlive : m.deletedAt = none) : UnderWay x c := by
  rcases τ.origin with ⟨-, -, -, -, harr⟩ | ⟨-, -, k, hcall, -⟩
  · rw [hop] at harr
    obtain ⟨hn, hm, -⟩ := arrive_deliver harr
    exact .published hn hm hid hlive
  · exact .handed (hop ▸ hcall) hid hlive

/-- Of a message that is in the table, a turn starts no further live version. -/
theorem underWay_of_step (hc : (pushing uuid).Holds c) (hx : HasMessage x c.world)
    (τ : (realtime uuid).Turn c l c') (h : UnderWay x c') : UnderWay x c := by
  obtain ⟨es, hes, hadds⟩ := turn_adds hc τ
  cases h with
  | @inserted id task h k hcall hins =>
    by_cases hid : id = l.id
    · subst hid
      rw [τ.own] at hcall
      rw [← (Call.mk.inj (Option.some.inj hcall)).2.1, hes] at hins
      rcases InsertedIn.append.mp hins with hins | hins
      · exact underWay_of_inserted τ hins
      · exact absurd hins (hadds.not_inserted hx)
    · exact .inserted ((τ.other hid).symm.trans hcall) hins
  | @published n m hn hm hid hlive =>
    rw [hadds.published] at hm
    rcases Nat.lt_or_ge n c.world.published.length with hlt | hge
    · rw [List.getElem?_append_left hlt] at hm
      exact .published (hadds.handed.trans hn) hm hid hlive
    · rw [List.getElem?_append_right hge] at hm
      subst hid
      rcases hadds.publishes (List.mem_of_getElem? hm) hlive with hins | hins
      · exact underWay_of_inserted τ hins
      · exact absurd hins (hadds.not_inserted hx)
  | @handed id n m h k hcall hid hlive =>
    by_cases hown : id = l.id
    · subst hown
      rw [τ.own] at hcall
      exact underWay_of_deliver τ (Call.mk.inj (Option.some.inj hcall)).1 hid hlive
    · exact .handed ((τ.other hown).symm.trans hcall) hid hlive

-- ---------------------------------------------------------------------------
-- Deliveries
-- ---------------------------------------------------------------------------

/-- What is being delivered was published, and its conversation is looked up
first. -/
structure Deliveries (uuid : String → Option String) (c : LiveState) : Prop where
  holds : (pushing uuid).Holds c
  published : ∀ {id n m h st}, c.calls id = some ⟨.deliver n m, h, st⟩ → m ∈ c.world.published
  lookup : ∀ {id n m k}, c.calls id = some ⟨.deliver n m, [], .suspended k⟩ →
    ∃ f, k = fun _ => .await (.query (.selectConversation m.conversationId)) f

theorem deliveries_idle (clock : Int) : Deliveries uuid (.idle (World.init clock)) :=
  ⟨(pushing uuid).holds_idle (pushes_init clock), fun h => (by cases h), fun h => (by cases h)⟩

variable (uuid) in
theorem program_deliver (n : Nat) (m : Message) : ∃ f, (realtime uuid).program (.deliver n m) =
    .pause (.await (.query (.selectConversation m.conversationId)) f) := ⟨_, rfl⟩

theorem Deliveries.step (hc : Deliveries uuid c) (h : (realtime uuid).step c l = some c') :
    Deliveries uuid c' := by
  obtain ⟨τ⟩ := (realtime uuid).step_turn h
  obtain ⟨es, hes, hadds⟩ := turn_adds hc.holds τ
  refine ⟨(pushing uuid).step_holds hc.holds h, ?_, ?_⟩
  · intro id n m hist st hcall
    rw [hadds.published]
    refine List.mem_append_left _ ?_
    by_cases hid : id = l.id
    · subst hid
      rw [τ.own] at hcall
      have hop := (Call.mk.inj (Option.some.inj hcall)).1
      rcases τ.origin with ⟨-, -, -, -, harr⟩ | ⟨-, -, k, hbefore, -⟩
      · rw [hop] at harr
        obtain ⟨-, hm, -⟩ := arrive_deliver harr
        exact List.mem_of_getElem? hm
      · exact hc.published (hop ▸ hbefore)
    · exact hc.published ((τ.other hid).symm.trans hcall)
  · intro id n m k hcall
    by_cases hid : id = l.id
    · subst hid
      rw [τ.own] at hcall
      obtain ⟨hop, hhist, hstatus⟩ := Call.mk.inj (Option.some.inj hcall)
      rcases τ.origin with ⟨-, -, -, hp, -⟩ | ⟨-, -, k', hbefore, hp⟩
      · obtain ⟨f, hf⟩ := program_deliver uuid n m
        rw [hp, hop, hf] at hstatus
        cases hstatus
        exact ⟨f, rfl⟩
      · -- the turn that looks it up leaves that in the history
        have hnil := (List.append_eq_nil_iff.mp (hes.symm.trans hhist)).1
        rw [hop, hnil] at hbefore
        obtain ⟨f, rfl⟩ := hc.lookup hbefore
        rw [hp, hnil] at hhist
        cases hhist
    · exact hc.lookup ((τ.other hid).symm.trans hcall)

/-- A turn that sends belongs to a delivery whose lookup was answered. -/
theorem Deliveries.sends (hc : Deliveries uuid c) (τ : (realtime uuid).Turn c l c')
    (hes : ((realtime uuid).advance τ.input τ.program τ.history τ.state).history = τ.history ++ es)
    (hadds : Adds uuid c c' τ.op τ.input τ.history es) {f : Frame Message}
    (hf : f ∈ es.flatMap framesBy) :
    ∃ n k, c.calls l.id = some ⟨.deliver n f.message, τ.history, .suspended k⟩ ∧ τ.history ≠ [] := by
  obtain ⟨n, hop⟩ := hadds.sends hf
  rcases τ.origin with ⟨-, -, -, hp, -⟩ | ⟨-, -, k, hcall, hp⟩
  · obtain ⟨g, hg⟩ := program_deliver uuid n f.message
    rw [hp, hop, hg] at hes
    have hnone : es = [] := List.append_cancel_left (hes.symm.trans (List.append_nil _).symm)
    rw [hnone] at hf
    cases hf
  · refine ⟨n, k, hop ▸ hcall, fun hnil => ?_⟩
    rw [hop, hnil] at hcall
    obtain ⟨g, rfl⟩ := hc.lookup hcall
    rw [hp, hnil] at hes
    cases hes
    cases hf

-- ---------------------------------------------------------------------------
-- Frames
-- ---------------------------------------------------------------------------

/-- No frame with a live message follows one with its tombstone on the same
socket. -/
def NeverUndone (frames : List (Frame Message)) : Prop :=
  frames.Pairwise fun f g => f.socket = g.socket → f.message.id = g.message.id →
    f.message.deletedAt ≠ none → g.message.deletedAt ≠ none

/-- The delivery of a tombstone goes on from its lookup only when no live
version of the message is under way. -/
def AfterLive (c : LiveState) (l : Label Input Task) : Prop :=
  ∀ n m h k, c.calls l.id = some ⟨.deliver n m, h, .suspended k⟩ → h ≠ [] → m.deletedAt ≠ none →
    ¬ UnderWay m.id c

/-- The tombstones sent are the last that goes out of their messages. -/
structure TombstonesLast (uuid : String → Option String) (c : LiveState) : Prop where
  deliveries : Deliveries uuid c
  frames : NeverUndone c.world.sockets.frames
  last : ∀ f ∈ c.world.sockets.frames, f.message.deletedAt ≠ none →
    HasMessage f.message.id c.world ∧ ¬ UnderWay f.message.id c

/-- What a turn keeps: it sends one message at most, and none that is live after
its tombstone. -/
theorem TombstonesLast.step (hc : TombstonesLast uuid c) (hl : AfterLive c l)
    (h : (realtime uuid).step c l = some c') : TombstonesLast uuid c' := by
  obtain ⟨τ⟩ := (realtime uuid).step_turn h
  obtain ⟨es, hes, hadds⟩ := turn_adds hc.deliveries.holds τ
  have hburies : Buries c.world c'.world := (pushing uuid).step_rely hc.deliveries.holds h
  have hsends : ∀ f ∈ es.flatMap framesBy, ∃ n k,
      c.calls l.id = some ⟨.deliver n f.message, τ.history, .suspended k⟩ ∧ τ.history ≠ [] :=
    fun f hf => hc.deliveries.sends τ hes hadds hf
  -- what is sent in this turn is one message
  have hone : ∀ f ∈ es.flatMap framesBy, ∀ g ∈ es.flatMap framesBy, f.message = g.message := by
    intro f hf g hg
    obtain ⟨n, k, hcall, -⟩ := hsends f hf
    obtain ⟨n', k', hcall', -⟩ := hsends g hg
    have hop := (Call.mk.inj (Option.some.inj (hcall.symm.trans hcall'))).1
    exact (Task.deliver.inj hop).2
  have hlast : ∀ f ∈ c'.world.sockets.frames, f.message.deletedAt ≠ none →
      HasMessage f.message.id c.world ∧ ¬ UnderWay f.message.id c := by
    intro f hf hdeleted
    rw [hadds.frames] at hf
    rcases List.mem_append.mp hf with hf | hf
    · exact hc.last f hf hdeleted
    · obtain ⟨n, k, hcall, hanswered⟩ := hsends f hf
      refine ⟨hc.deliveries.holds.inv.published _ (hc.deliveries.published hcall), ?_⟩
      exact hl _ _ _ _ hcall hanswered hdeleted
  refine ⟨hc.deliveries.step h, ?_, fun f hf hdeleted => ?_⟩
  · unfold NeverUndone
    rw [hadds.frames]
    refine List.pairwise_append.mpr ⟨hc.frames, ?_, fun f hf g hg _ hid hdeleted hlive => ?_⟩
    · refine List.Pairwise.imp_of_mem (fun hf hg _ _ _ hdeleted => ?_)
        (List.pairwise_of_forall fun _ _ => trivial)
      rwa [← hone _ hf _ hg]
    · obtain ⟨n, k, hcall, -⟩ := hsends g hg
      refine (hc.last f hf hdeleted).2 ?_
      rw [hid]
      exact .handed hcall rfl hlive
  · obtain ⟨hthere, hover⟩ := hlast f hf hdeleted
    exact ⟨hthere.buries hburies, fun hunder =>
      hover (underWay_of_step hc.deliveries.holds hthere τ hunder)⟩

theorem tombstonesLast_idle (clock : Int) : TombstonesLast uuid (.idle (World.init clock)) :=
  ⟨deliveries_idle clock, List.Pairwise.nil, fun f hf => by cases hf⟩

/-- In every run that sends a tombstone only when nothing live of its message is
under way, no live frame of a message follows its tombstone on any socket. -/
theorem never_undone {clock : Int} {ls : List (Label Input Task)}
    (hls : (realtime uuid).Along AfterLive (.idle (World.init clock)) ls)
    (h : (realtime uuid).runs (.idle (World.init clock)) ls = some c) :
    NeverUndone c.world.sockets.frames :=
  ((realtime uuid).along_inv (I := TombstonesLast uuid) TombstonesLast.step hls h
    (tombstonesLast_idle clock)).frames

/-- Ann's message, as it is sent and as it is deleted. -/
def liveMessage : Message := ⟨"m", "c", "ann", "hello", 1, none⟩

def deletedMessage : Message := ⟨"m", "c", "ann", "", 1, some 2⟩

/-- Ann sends Bob a message while he is connected, and deletes it. -/
def sentAndDeleted : List (Label Input Task) :=
  Label.turns 0 (.service (.createConversation "ann" ["ann", "bob"])) (.calm 100 "c") 6 ++
  List.replicate 5 (.resume 0 (.calm 100 "x")) ++ [.call 1 (.upgraded "bob") (.calm 200 "x")] ++
  Label.turns 2 (.service (.sendMessage ⟨"c", "ann", "hello"⟩)) (.calm 1500 "m") 5 ++
  [.resume 2 (.calm 1500 "x")] ++
  Label.turns 3 (.service (.deleteMessage "c" "m" "ann")) (.calm 2000 "x") 7

/-- The lookup for the tombstone comes back before the one for the message. -/
theorem undone_by_slow_lookup : ∃ (ls : List (Label Input Task)) (c : LiveState),
    (realtime some).runs (.idle (World.init 0)) ls = some c ∧
      c.world.sockets.frames = [⟨0, deletedMessage⟩, ⟨0, liveMessage⟩] ∧
      ¬ NeverUndone c.world.sockets.frames := by
  let ls : List (Label Input Task) := sentAndDeleted ++ [.call 4 (.deliver 0 liveMessage) (.calm 2000 "x")] ++
    Label.turns 5 (.deliver 1 deletedMessage) (.calm 2000 "x") 2 ++
    List.replicate 2 (.resume 4 (.calm 2000 "x"))
  obtain ⟨c, h, hframes⟩ : ∃ c : LiveState, (realtime some).runs (.idle (World.init 0)) ls = some c ∧
      c.world.sockets.frames = [⟨0, deletedMessage⟩, ⟨0, liveMessage⟩] := ⟨_, rfl, rfl⟩
  refine ⟨ls, c, h, hframes, fun hnever => ?_⟩
  rw [hframes] at hnever
  exact List.rel_of_pairwise_cons hnever List.mem_cons_self rfl rfl (by decide) rfl

/-- A tombstone that is handed over when nothing live is under way stays the
last of its message. -/
theorem along_of_over (hc : (pushing uuid).Holds c) (hx : HasMessage x c.world) (hover : ¬ UnderWay x c)
    {ls : List (Label Input Task)}
    (hls : ∀ l ∈ ls, ∀ id n m i, l = .call id (.deliver n m) i → m.deletedAt ≠ none → m.id = x)
    (hcalls : ∀ {id n m h st}, c.calls id = some ⟨.deliver n m, h, st⟩ → m.deletedAt ≠ none → m.id = x) :
    (realtime uuid).Along AfterLive c ls := by
  refine @System.along_of_calls _ _ _ _ _ _ (realtime uuid) _
    (fun c => (pushing uuid).Holds c ∧ HasMessage x c.world ∧ ¬ UnderWay x c)
    (fun _ task => ∀ n m, task = .deliver n m → m.deletedAt ≠ none → m.id = x) ?_ ?_ _
    (fun l hl id task i hcall n m htask => hls l hl id n m i (htask ▸ hcall)) _ ⟨hc, hx, hover⟩ ?_
  · rintro c l c' ⟨hc, hx, hover⟩ h
    obtain ⟨τ⟩ := (realtime uuid).step_turn h
    refine ⟨(pushing uuid).step_holds hc h, hx.buries ((pushing uuid).step_rely hc h), fun hunder => ?_⟩
    exact hover (underWay_of_step hc hx τ hunder)
  · rintro c l ⟨-, -, hover⟩ hkind n m h k hcall - hdeleted
    rwa [hkind hcall n m rfl hdeleted]
  · rintro id ⟨task, h, st⟩ hcall n m rfl
    exact hcalls hcall

/-- A run that hands no tombstone over. -/
theorem along_of_live {ls : List (Label Input Task)}
    (hls : ∀ l ∈ ls, ∀ id n m i, l = .call id (.deliver n m) i → m.deletedAt = none)
    (hcalls : ∀ {id n m h st}, c.calls id = some ⟨.deliver n m, h, st⟩ → m.deletedAt = none) :
    (realtime uuid).Along AfterLive c ls := by
  refine @System.along_of_calls _ _ _ _ _ _ (realtime uuid) _ (fun _ => True)
    (fun _ task => ∀ n m, task = .deliver n m → m.deletedAt = none) (fun h _ => h) ?_ _
    (fun l hl id task i hcall n m htask => hls l hl id n m i (htask ▸ hcall)) _ trivial ?_
  · intro c l _ hkind n m h k hcall _ hdeleted
    exact absurd (hkind hcall n m rfl) hdeleted
  · rintro id ⟨task, h, st⟩ hcall n m rfl
    exact hcalls hcall

/-- The message goes out before its tombstone is handed over. -/
theorem never_undone_in_turn : ∃ (ls : List (Label Input Task)) (c : LiveState),
    (realtime some).runs (.idle (World.init 0)) ls = some c ∧
      c.world.sockets.frames = [⟨0, liveMessage⟩, ⟨0, deletedMessage⟩] ∧
      NeverUndone c.world.sockets.frames := by
  let ls₁ : List (Label Input Task) := sentAndDeleted ++
    Label.turns 4 (.deliver 0 liveMessage) (.calm 2000 "x") 2
  let ls₂ : List (Label Input Task) := Label.turns 5 (.deliver 1 deletedMessage) (.calm 2000 "x") 2
  obtain ⟨c₁, c₂, h₁, h₂, hmessages, hpublished, hhanded, hsettled, hframes⟩ : ∃ c₁ c₂ : LiveState,
      (realtime some).runs (.idle (World.init 0)) ls₁ = some c₁ ∧
      (realtime some).runs (.idle (World.init 0)) (ls₁ ++ ls₂) = some c₂ ∧
      c₁.world.database.messages = [⟨"m", "c", "ann", "", 1500, some 2000⟩] ∧
      c₁.world.published = [liveMessage, deletedMessage] ∧ c₁.world.handed = 1 ∧
      (List.range 5).all (fun id => (c₁.calls id).all fun call => call.status.isSettled) = true ∧
      c₂.world.sockets.frames = [⟨0, liveMessage⟩, ⟨0, deletedMessage⟩] :=
    ⟨_, _, rfl, rfl, rfl, rfl, rfl, rfl, rfl⟩
  -- when the tombstone is handed over, all calls before have settled
  have hcalls : ∀ {id call}, c₁.calls id = some call → call.status.isSettled = true := by
    intro id call hcall
    by_cases hid : id < 5
    · have hall := List.all_eq_true.mp hsettled id (List.mem_range.mpr hid)
      rwa [hcall] at hall
    · have hother : id ∉ ls₁.map Label.id := by
        simp [ls₁, sentAndDeleted, Label.turns, Label.id]
        omega
      rw [(realtime some).runs_calls h₁ hother] at hcall
      cases hcall
  have hover : ¬ UnderWay "m" c₁ := by
    intro hunder
    cases hunder with
    | inserted hcall => cases hcalls hcall
    | handed hcall => cases hcalls hcall
    | @published n m hn hm hid hlive =>
      rw [hhanded] at hn
      rw [hpublished] at hm
      cases n with
      | zero => cases hn
      | succ n =>
        cases n with
        | zero =>
          cases hm
          cases hlive
        | succ n => cases hm
  have halong₁ : (realtime some).Along AfterLive (.idle (World.init 0)) ls₁ := by
    refine along_of_live ?_ fun hcall => by cases hcall
    rintro l hl id n m i rfl
    simp [ls₁, sentAndDeleted, Label.turns] at hl
    exact hl.2.1.2 ▸ rfl
  have hc₁ := (realtime some).along_inv (I := TombstonesLast some) TombstonesLast.step halong₁ h₁
    (tombstonesLast_idle 0)
  have halong₂ : (realtime some).Along AfterLive c₁ ls₂ := by
    refine along_of_over (x := "m") hc₁.deliveries.holds ⟨_, hmessages ▸ List.mem_cons_self, rfl⟩ hover ?_ ?_
    · rintro l hl id n m i rfl -
      simp [ls₂, Label.turns] at hl
      exact hl.2.1.2 ▸ rfl
    · intro id n m h st hcall _
      have hm := hc₁.deliveries.published hcall
      simp [hpublished] at hm
      rcases hm with rfl | rfl <;> rfl
  refine ⟨ls₁ ++ ls₂, c₂, h₂, hframes, ?_⟩
  exact never_undone (((realtime some).along_append h₁).mpr ⟨halong₁, halong₂⟩) h₂

end Postgres

end Jiffy
