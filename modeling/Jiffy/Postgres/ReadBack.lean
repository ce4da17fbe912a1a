-- SUMMARY: Reading a history back page by page on the Postgres stores while other calls go on: what the pages hold, and what they account for.
import Jiffy.Postgres.HistoryPage
import Jiffy.Postgres.Requests
import Jiffy.Postgres.Tombstones

/-!
# Reading back under interference

A client passes on the creation time of the first message of each page, in whole
milliseconds, and the table has microseconds. Between two pages, and between the
two queries of one, other calls send and delete.
-/

namespace Jiffy

open Js Async MessagingService

namespace Postgres

variable {uuid : String → Option String} {i : Input} {w w' : World} {c u : String}
  {limit before : Option Int} {h : List (server.Event Failure)}

-- ---------------------------------------------------------------------------
-- How the messages go on
-- ---------------------------------------------------------------------------

/-- No message is from the future. -/
structure Stamped (w : World) : Prop where
  orderly : Orderly w
  past : ∀ r ∈ w.database.messages, r.createdAt ≤ w.clock

/-- Messages stay, up to their deletion, and new ones come later. -/
structure Appends (w w' : World) : Prop where
  buries : Buries w w'
  clock : w.clock ≤ w'.clock
  later : ∀ r' ∈ w'.database.messages,
    (∃ r ∈ w.database.messages, SameOrigin r r') ∨ w.clock ≤ r'.createdAt

theorem SameOrigin.trans {r₁ r₂ r₃ : MessageRecord} (h : SameOrigin r₁ r₂) (h' : SameOrigin r₂ r₃) :
    SameOrigin r₁ r₃ := by
  unfold SameOrigin at *
  rw [h', h]

theorem SameOrigin.id {r r' : MessageRecord} (h : SameOrigin r r') : r'.id = r.id :=
  (congrArg MessageRecord.id h).trans rfl

theorem SameOrigin.createdAt {r r' : MessageRecord} (h : SameOrigin r r') : r'.createdAt = r.createdAt :=
  (congrArg MessageRecord.createdAt h).trans rfl

theorem Buried.sameOrigin {r r' : MessageRecord} (h : Buried r r') : SameOrigin r r' := by
  rcases h with rfl | ⟨-, t, rfl⟩ <;> rfl

theorem Appends.of_messages (hclock : w.clock ≤ w'.clock)
    (hm : w'.database.messages = w.database.messages) : Appends w w' where
  buries r hr := ⟨r, hm ▸ hr, .inl rfl⟩
  clock := hclock
  later r' hr' := .inl ⟨r', hm ▸ hr', rfl⟩

theorem Appends.refl (w : World) : Appends w w := .of_messages (le_refl _) rfl

theorem Appends.trans {w₁ w₂ w₃ : World} (h : Appends w₁ w₂) (h' : Appends w₂ w₃) : Appends w₁ w₃ where
  buries := h.buries.trans h'.buries
  clock := h.clock.trans h'.clock
  later r₃ hr₃ := by
    rcases h'.later r₃ hr₃ with ⟨r₂, hr₂, hsame⟩ | hlate
    · rcases h.later r₂ hr₂ with ⟨r₁, hr₁, hsame'⟩ | hlate
      · exact .inl ⟨r₁, hr₁, hsame'.trans hsame⟩
      · exact .inr (hlate.trans hsame.createdAt.ge)
    · exact .inr (h.clock.trans hlate)

theorem Stamped.of_messages (hw : Stamped w) (hclock : w.clock ≤ w'.clock)
    (hm : w'.database.messages = w.database.messages) : Stamped w' := by
  refine ⟨⟨hm ▸ hw.orderly.ids, fun r hr => hw.orderly.emptied r (hm ▸ hr)⟩, fun r hr => ?_⟩
  exact (hw.past r (hm ▸ hr)).trans hclock

theorem perform_appends (r : ServerCall) (hw : Stamped w) :
    Stamped (perform uuid i r w).2 ∧ Appends w (perform uuid i r w).2 := by
  cases r with
  | query s =>
    rcases perform_query_world uuid i w s with h | ⟨rows, db, hexec, h⟩
    · rw [h]
      exact ⟨hw, .refl w⟩
    · rw [h]
      have hchange := execute_change hexec
      have hlater : ∀ r' ∈ db.messages,
          (∃ r ∈ w.database.messages, SameOrigin r r') ∨ w.clock = r'.createdAt := fun r' hr' =>
        (hchange.message hr').imp_right fun hnew => hnew.2.1.symm
      refine ⟨⟨hw.orderly.change hchange, fun r' hr' => ?_⟩, fun r hr => hchange.buried hr, le_refl _,
        fun r' hr' => (hlater r' hr').imp_right le_of_eq⟩
      rcases hlater r' hr' with ⟨r, hr, hsame⟩ | hnow
      · exact hsame.createdAt.le.trans (hw.past r hr)
      · exact hnow.ge
  | connect | release | canCreateConversation | newDate | publish | notify | handleUpgrade | register
    | unregister | socketsOf | isOpen | send =>
    exact ⟨hw.of_messages (le_refl _) rfl, .of_messages (le_refl _) rfl⟩

/-- What all calls keep of the messages and their times. -/
def appending (uuid : String → Option String) : Contract (system uuid) where
  Inv := Stamped
  Rely := Appends
  Pre _ _ _ _ := True
  refl := Appends.refl
  trans := Appends.trans
  tick h ha := by
    have hclock := (admissible_spec ha).1
    exact ⟨h.of_messages hclock rfl, .of_messages hclock rfl, admissible_tick ha⟩
  arrive h ha harr := by
    cases harr
    exact ⟨h, .refl _, ha⟩
  perform h _ _ := perform_appends _ h
  program op _ _ _ ha := program_safe op (fun _ _ _ _ _ _ => trivial) ha

-- ---------------------------------------------------------------------------
-- One page
-- ---------------------------------------------------------------------------

/-- The rows that a page of conversation `k` is taken from. -/
def matching (k : String) (before cleared : Option Int) (messages : List MessageRecord) :
    List MessageRecord :=
  messages.filter (admits k (before.map fun t => t * 1000) (cleared.map fun t => t * 1000))

theorem mem_matching {k : String} {cleared : Option Int} {messages : List MessageRecord} {r : MessageRecord} :
    r ∈ matching k before cleared messages ↔ r ∈ messages ∧ r.conversationId = k ∧
      (∀ b, before = some b → toMillis r.createdAt < b) ∧ ∀ t, cleared = some t → t * 1000 < r.createdAt := by
  have hmillis : ∀ b, r.createdAt < b * 1000 ↔ toMillis r.createdAt < b := fun b =>
    (Int.ediv_lt_iff_lt_mul (by decide)).symm
  unfold matching admits
  rw [List.mem_filter]
  cases before <;> cases cleared <;> simp [hmillis]

/-- A page as the client got it, with what its call did. -/
structure Page where
  history : List (server.Event Failure)
  messages : List Message

/-- The page is from the table as `t` has it, by the `clearedAt` that its call had
read before. -/
def Page.From (page : Page) (k u : String) (limit before : Option Int) (t : World) : Prop :=
  ∃ conversation records, ReadIn page.history conversation ∧
    NewestPage (pageSize limit) (matching k before (clearedAtOf conversation u) t.database.messages) records ∧
    page.messages = records.map fun r => rowToMessage r.row

/-- A listing query that was answered. -/
theorem execute_page_ok {now : Int} {db db' : Database} {cleared : Option Int} {rows : List MessageRow}
    (hexec : execute uuid i now db (.selectHistory (PostgresMessageStore.historyQuery c
      (pageOptions limit before cleared))) = .ok (rows, db')) :
    ∃ k records, uuid c = some k ∧
      NewestPage (pageSize limit) (matching k before cleared db.messages) records ∧
      rows = records.map MessageRecord.row ∧ db' = db := by
  have hreadable : (uuid c).isSome = true ∧ (∀ t, before = some t → minTimestamp ≤ t ∧ t < maxTimestamp) ∧
      ∀ t, cleared = some t → minTimestamp ≤ t ∧ t < maxTimestamp := by
    by_contra hnot
    obtain ⟨e, he⟩ := execute_page_refused uuid i now db c limit before cleared hnot
    rw [he] at hexec
    cases hexec
  obtain ⟨k, hk, hpage⟩ :=
    execute_page uuid i now db c limit before cleared hreadable.1 hreadable.2.1 hreadable.2.2
  rw [hpage] at hexec
  cases hexec
  exact ⟨k, _, hk, newestPage_history i.order db.messages k _ _ _, rfl, rfl⟩

theorem withCleared_pageOptions (limit before cleared : Option Int) :
    withCleared (pageOptions limit before none) cleared = pageOptions limit before cleared := by
  cases cleared <;> rfl

/-- What a listing establishes while the table goes on from `w₀`. -/
theorem safe_listMessages_page (w₀ : World) :
    ((Op.program (.listMessages c u (pageOptions limit before none))).implement implementation).Safe
      (adapter uuid) ⟨fun t => Stamped t ∧ Appends w₀ t, Appends, fun _ _ _ => True⟩
      (fun _ x h s => ∀ messages, x = .ok (.messages messages) → ∃ k t, uuid c = some k ∧ Stamped t ∧
        Appends w₀ t ∧ Appends t s ∧ Page.From ⟨h, messages⟩ k u limit before t) i [] w := by
  simp only [Op.program, listMessages, Proc.bind_eq_bind, Proc.bind_assoc]
  refine check_safe (fun _ => trivial) (fun x messages hx => by cases hx)
    fun {j t read conversation j' t'} _ _ hhead _ _ _ => ?_
  rw [withCleared_pageOptions]
  refine fetch_safe (s := .selectHistory (PostgresMessageStore.historyQuery c
    (pageOptions limit before (clearedAtOf conversation u)))) (g := List.map rowToMessage) rfl
    (fun _ => trivial) fun {j t j' t'} hI _ hR _ _ => ?_
  rcases perform_query_cases uuid j t (.selectHistory (PostgresMessageStore.historyQuery c
    (pageOptions limit before (clearedAtOf conversation u)))) with ⟨e, heq⟩ | ⟨rows, db, hexec, heq⟩
  · rw [heq]
    exact fun messages hx => by cases hx
  rw [heq] at hR ⊢
  rintro messages ⟨⟩
  obtain ⟨k, records, hk, hpage, rfl, rfl⟩ := execute_page_ok hexec
  refine ⟨k, t, hk, hI.1, hI.2, hR, conversation, records, ?_, hpage, List.map_map ..⟩
  exact ⟨c, read, List.mem_append_left _ (List.mem_append_right _ List.mem_cons_self), hhead⟩

-- ---------------------------------------------------------------------------
-- The client's loop
-- ---------------------------------------------------------------------------

/-- The next page is for what is strictly older than the first message of this one. -/
def cursor (pages : List Page) : Option Int :=
  (pages.getLast?.bind fun page => page.messages.head?).map fun m => m.createdAt

/-- A call asks for the page that comes after `pages`, and gets it. Any other
calls go on meanwhile. -/
def Fetches (uuid : String → Option String) (c u : String) (limit : Option Int)
    (c₁ : Config server Failure Reply World Op) (pages : List Page) (page : Page)
    (c₂ : Config server Failure Reply World Op) : Prop :=
  ∃ id ls, c₁.calls id = none ∧ (system uuid).runs c₁ ls = some c₂ ∧
    c₂.calls id = some ⟨.listMessages c u (pageOptions limit (cursor pages) none), page.history,
      .settled (.ok (.messages page.messages))⟩

/-- The client asks for a page once it has the one before, until it gets an
empty one. -/
inductive ReadBack (uuid : String → Option String) (c u : String) (limit : Option Int)
    (c₀ : Config server Failure Reply World Op) : List Page → Config server Failure Reply World Op → Prop where
  | begin : ReadBack uuid c u limit c₀ [] c₀
  | page {pages : List Page} {page : Page} {c₁ c₂ : Config server Failure Reply World Op}
    (hread : ReadBack uuid c u limit c₀ pages c₁) (hgo : ∀ page ∈ pages, page.messages ≠ [])
    (hfetch : Fetches uuid c u limit c₁ pages page c₂) : ReadBack uuid c u limit c₀ (pages ++ [page]) c₂

/-- Where a page comes from that was fetched. -/
theorem Fetches.comesFrom {c₁ c₂ : Config server Failure Reply World Op} {pages : List Page} {page : Page}
    (hfetch : Fetches uuid c u limit c₁ pages page c₂) (hc : (appending uuid).Holds c₁) :
    ∃ k t, uuid c = some k ∧ Stamped t ∧ Appends c₁.world t ∧ Appends t c₂.world ∧
      page.From k u limit (cursor pages) t := by
  obtain ⟨id, ls, hnew, hruns, hcall⟩ := hfetch
  let R := (appending uuid).regime (Appends c₁.world) fun hs _ ht => hs.trans ht
  have hforce : R.InForce c₁ := ⟨hc, .refl _, fun _ => trivial⟩
  have hsafe : ∀ {i s}, (appending uuid).Inv s → R.Stable s → (system uuid).admissible i s →
      ((system uuid).program (.listMessages c u (pageOptions limit (cursor pages) none))).Safe
        (system uuid).toAdapter (R.conditions (.listMessages c u (pageOptions limit (cursor pages) none))) _
        i [] s :=
    fun _ _ _ => safe_listMessages_page c₁.world
  obtain ⟨i, s, hR, -, -, hQ⟩ := R.follow hsafe hforce (fun _ _ _ _ _ _ => trivial) hnew hruns hcall
  obtain ⟨k, t, hk, ht, h₁, h₂, hpage⟩ := hQ page.messages rfl
  exact ⟨k, t, hk, ht, h₁, h₂.trans hR, hpage⟩

theorem Fetches.appends {c₁ c₂ : Config server Failure Reply World Op} {pages : List Page} {page : Page}
    (hfetch : Fetches uuid c u limit c₁ pages page c₂) (hc : (appending uuid).Holds c₁) :
    (appending uuid).Holds c₂ ∧ Appends c₁.world c₂.world := by
  obtain ⟨id, ls, -, hruns, -⟩ := hfetch
  exact (appending uuid).runs_holds hc hruns

/-- What became of a message of the table: it is on the page, or it is as old, to
the millisecond, as the page's first message, or `u` had cleared it away. -/
inductive Accounts (u : String) (page : Page) (r : MessageRecord) : Prop where
  | shown (m : Message) (hm : m ∈ page.messages) (hid : m.id = r.id)
  | edge (m : Message) (hm : page.messages.head? = some m) (hsame : m.createdAt = toMillis r.createdAt)
  | cleared (conversation : Conversation) (t : Int) (hread : ReadIn page.history conversation)
    (ht : clearedAtOf conversation u = some t) (hold : r.createdAt ≤ t * 1000)

@[simp] theorem cursor_concat (pages : List Page) (page : Page) :
    cursor (pages ++ [page]) = page.messages.head?.map fun m => m.createdAt := by
  simp [cursor]

/-- A message that the bounds admit is on the page, or the page is full of others
that are not older, or `u` had cleared the message away. -/
theorem Page.From.shown_or_full {k : String} {page : Page} {t : World} (hpage : page.From k u limit before t)
    {r : MessageRecord} (hr : r ∈ t.database.messages) (hk : r.conversationId = k)
    (hbefore : ∀ b, before = some b → toMillis r.createdAt < b) :
    rowToMessage r.row ∈ page.messages ∨
      page.messages.length = pageSize limit ∧ (∀ m ∈ page.messages, toMillis r.createdAt ≤ m.createdAt) ∨
      ∃ conversation t, ReadIn page.history conversation ∧ clearedAtOf conversation u = some t ∧
        r.createdAt ≤ t * 1000 := by
  obtain ⟨conversation, records, hread, hnewest, hmessages⟩ := hpage
  rw [hmessages]
  by_cases hcleared : ∃ t, clearedAtOf conversation u = some t ∧ r.createdAt ≤ t * 1000
  · obtain ⟨t, ht, hold⟩ := hcleared
    exact .inr (.inr ⟨conversation, t, hread, ht, hold⟩)
  have hmatch : r ∈ matching k before (clearedAtOf conversation u) t.database.messages := by
    refine mem_matching.mpr ⟨hr, hk, hbefore, fun t ht => ?_⟩
    exact Int.not_le.mp fun hold => hcleared ⟨t, ht, hold⟩
  obtain ⟨rest, hperm, hold⟩ := hnewest.newest
  rcases List.mem_append.mp (hperm.symm.subset hmatch) with hrecord | hrest
  · exact .inl (List.mem_map_of_mem hrecord)
  -- Something is left out, so the page is full.
  refine .inr (.inl ⟨?_, fun m hm => ?_⟩)
  · have hlength := hnewest.length
    have hmore := hperm.length_eq
    have hpos := List.length_pos_of_mem hrest
    rw [List.length_append] at hmore
    rw [List.length_map]
    omega
  · obtain ⟨first, hfirst, rfl⟩ := List.mem_map.mp hm
    exact Int.ediv_le_ediv (by decide) (hold r hrest first hfirst)

/-- What the cursor admits is accounted for by the page, or the next cursor
admits it. -/
theorem accounts_or_below {k : String} {page : Page} {t : World} (hpage : page.From k u limit before t)
    {r : MessageRecord} (hr : r ∈ t.database.messages) (hk : r.conversationId = k)
    (hbefore : ∀ b, before = some b → toMillis r.createdAt < b) :
    Accounts u page r ∨ ∃ m, page.messages.head? = some m ∧ toMillis r.createdAt < m.createdAt := by
  rcases hpage.shown_or_full hr hk hbefore with hshown | ⟨hlength, hnewer⟩ | ⟨conversation, t, hread, ht, hold⟩
  · exact .inl (.shown _ hshown rfl)
  · have hsize : 0 < pageSize limit := by
      unfold pageSize
      omega
    have hsome : page.messages ≠ [] := List.ne_nil_of_length_pos (hlength ▸ hsize)
    obtain ⟨first, hfirst⟩ := Option.ne_none_iff_exists'.mp (mt List.head?_eq_none_iff.mp hsome)
    rcases (hnewer first (List.mem_of_mem_head? hfirst)).lt_or_eq with hlt | heq
    · exact .inr ⟨first, hfirst, hlt⟩
    · exact .inl (.edge first hfirst heq.symm)
  · exact .inl (.cleared conversation t hread ht hold)

/-- Every message of a page is in the table, admitted by the cursor, and not older
than the page's first. -/
theorem Page.From.messages {k : String} {page : Page} {t : World} (hpage : page.From k u limit before t)
    (ht : Stamped t) :
    (∀ m ∈ page.messages, ∃ r ∈ t.database.messages, m = rowToMessage r.row ∧ r.conversationId = k ∧
      ∀ b, before = some b → m.createdAt < b) ∧
    (page.messages.map fun m => m.id).Nodup ∧
    (page.messages.Pairwise fun m m' => m.createdAt ≤ m'.createdAt) ∧
    page.messages.length ≤ pageSize limit := by
  obtain ⟨conversation, records, -, hnewest, hmessages⟩ := hpage
  rw [hmessages]
  obtain ⟨rest, hperm, -⟩ := hnewest.newest
  refine ⟨fun m hm => ?_, ?_, ?_, ?_⟩
  · obtain ⟨r, hr, rfl⟩ := List.mem_map.mp hm
    obtain ⟨hr, hk, hbefore, -⟩ := mem_matching.mp (hperm.subset (List.mem_append_left rest hr))
    exact ⟨r, hr, rfl, hk, hbefore⟩
  · rw [List.map_map]
    have hnodup : ((records ++ rest).map fun r => r.id).Nodup :=
      ((hperm.map _).nodup_iff).mpr (ht.orderly.ids.sublist (List.filter_sublist.map _))
    exact hnodup.sublist ((List.sublist_append_left records rest).map _)
  · rw [List.pairwise_map]
    exact hnewest.sorted.imp fun hle => Int.ediv_le_ediv (by decide) hle
  · rw [List.length_map, hnewest.length]
    exact Nat.min_le_left _ _

-- ---------------------------------------------------------------------------
-- Page after page
-- ---------------------------------------------------------------------------

/-- The row is of the message, up to its body and its deletion. -/
structure RowOfMessage (m : Message) (r : MessageRecord) : Prop where
  id : r.id = m.id
  conversationId : r.conversationId = m.conversationId
  senderId : r.senderId = m.senderId
  createdAt : toMillis r.createdAt = m.createdAt

theorem RowOfMessage.buried {m : Message} {r r' : MessageRecord} (h : RowOfMessage m r) (hr : Buried r r') :
    RowOfMessage m r' := by
  rcases hr with rfl | ⟨-, t, rfl⟩
  · exact h
  · exact ⟨h.id, h.conversationId, h.senderId, h.createdAt⟩

theorem Accounts.sameOrigin {page : Page} {r r' : MessageRecord} (h : Accounts u page r')
    (hsame : SameOrigin r r') : Accounts u page r := by
  cases h with
  | shown m hm hid => exact .shown m hm (hid.trans hsame.id)
  | edge m hm hedge => exact .edge m hm (hedge.trans (congrArg toMillis hsame.createdAt))
  | cleared conversation t hread ht hold =>
    exact .cleared conversation t hread ht (hsame.createdAt.ge.trans hold)

theorem cursor_some {pages : List Page} (hpages : pages ≠ []) (hgo : ∀ page ∈ pages, page.messages ≠ []) :
    ∃ b, cursor pages = some b := by
  obtain ⟨init, page, rfl⟩ := List.eq_nil_or_concat' pages |>.resolve_left hpages
  obtain ⟨m, hm⟩ := Option.ne_none_iff_exists'.mp (mt List.head?_eq_none_iff.mp
    (hgo page (List.mem_append_right _ List.mem_cons_self)))
  exact ⟨m.createdAt, by rw [cursor_concat, hm]; rfl⟩

/-- How far a client has come. -/
structure Progress (uuid : String → Option String) (c u : String) (limit : Option Int)
    (c₀ : Config server Failure Reply World Op) (pages : List Page) (c₁ : Config server Failure Reply World Op) :
    Prop where
  holds : (appending uuid).Holds c₁
  appends : Appends c₀.world c₁.world
  stored : ∀ page ∈ pages, ∀ m ∈ page.messages, uuid c = some m.conversationId ∧
    ∃ r ∈ c₁.world.database.messages, RowOfMessage m r
  once : ((pages.flatMap Page.messages).map fun m => m.id).Nodup
  sized : ∀ page ∈ pages, page.messages.length ≤ pageSize limit
  above : ∀ b, cursor pages = some b → ∀ page ∈ pages, ∀ m ∈ page.messages, b ≤ m.createdAt
  older : (pages.map Page.messages).Pairwise fun newer older =>
    ∀ m ∈ newer, ∀ m' ∈ older, m'.createdAt < m.createdAt
  counted : ∀ r ∈ c₀.world.database.messages, uuid c = some r.conversationId →
    (∃ page ∈ pages, Accounts u page r) ∨
      (∀ page ∈ pages, page.messages ≠ []) ∧ ∀ b, cursor pages = some b → toMillis r.createdAt < b

theorem Progress.begin {c₀ : Config server Failure Reply World Op} (hc : (appending uuid).Holds c₀) :
    Progress uuid c u limit c₀ [] c₀ where
  holds := hc
  appends := .refl _
  stored := by simp
  once := List.nodup_nil
  sized := by simp
  above := by simp
  older := .nil
  counted r hr hk := .inr ⟨by simp, by simp [cursor]⟩

section Page

variable {c₀ c₁ c₂ : Config server Failure Reply World Op} {pages : List Page} {next : Page} {k : String}
  {t : World}

/-- What is on the new page is older than what is on the pages before it. -/
theorem Progress.below (hp : Progress uuid c u limit c₀ pages c₁) (hgo : ∀ page ∈ pages, page.messages ≠ [])
    (hpage : next.From k u limit (cursor pages) t) (ht : Stamped t) :
    ∀ page ∈ pages, ∀ m ∈ page.messages, ∀ m' ∈ next.messages, m'.createdAt < m.createdAt := by
  intro page hmem m hm m' hm'
  obtain ⟨b, hb⟩ := cursor_some (List.ne_nil_of_mem hmem) hgo
  obtain ⟨r, -, -, -, hlt⟩ := (hpage.messages ht).1 m' hm'
  exact (hlt b hb).trans_le (hp.above b hb page hmem m hm)

/-- A message that came before does not come again: one row is behind both, with
one creation time. -/
theorem Progress.fresh (hp : Progress uuid c u limit c₀ pages c₁) (hgo : ∀ page ∈ pages, page.messages ≠ [])
    (hpage : next.From k u limit (cursor pages) t) (ht : Stamped t) (hrely : Appends c₁.world t) :
    ∀ page ∈ pages, ∀ m ∈ page.messages, ∀ m' ∈ next.messages, m.id ≠ m'.id := by
  intro page hmem m hm m' hm' heq
  obtain ⟨-, r, hr, hrow⟩ := hp.stored page hmem m hm
  obtain ⟨r', hr', hburied⟩ := hrely.buries r hr
  obtain ⟨r₂, hr₂, rfl, -⟩ := (hpage.messages ht).1 m' hm'
  have hrow' := hrow.buried hburied
  have hsame : r' = r₂ := ht.orderly.eq_of_id hr' hr₂ (hrow'.id.trans heq)
  have hlt := hp.below hgo hpage ht page hmem m hm _ hm'
  rw [← hrow'.createdAt, hsame] at hlt
  exact lt_irrefl _ hlt

/-- No page is older than the new cursor. -/
theorem Progress.above_page (hp : Progress uuid c u limit c₀ pages c₁)
    (hgo : ∀ page ∈ pages, page.messages ≠ []) (hpage : next.From k u limit (cursor pages) t)
    (ht : Stamped t) {b : Int} (hb : cursor (pages ++ [next]) = some b) :
    ∀ page ∈ pages ++ [next], ∀ m ∈ page.messages, b ≤ m.createdAt := by
  intro page hmem m hm
  rw [cursor_concat] at hb
  obtain ⟨first, hfirst, rfl⟩ := Option.map_eq_some_iff.mp hb
  rcases List.mem_append.mp hmem with hmem | hmem
  · exact (hp.below hgo hpage ht page hmem m hm first (List.mem_of_mem_head? hfirst)).le
  · cases List.mem_singleton.mp hmem
    obtain ⟨-, -, hsorted, -⟩ := hpage.messages ht
    obtain ⟨rest, hmessages⟩ := List.head?_eq_some_iff.mp hfirst
    rw [hmessages] at hm hsorted
    rcases List.mem_cons.mp hm with rfl | hm
    · exact le_refl _
    · exact List.rel_of_pairwise_cons hsorted hm

/-- What the pages have not accounted for, the new one does or its cursor admits. -/
theorem Progress.counted_page (hp : Progress uuid c u limit c₀ pages c₁)
    (hgo : ∀ page ∈ pages, page.messages ≠ []) (hk : uuid c = some k)
    (hpage : next.From k u limit (cursor pages) t) (hrely : Appends c₁.world t) {r : MessageRecord}
    (hr : r ∈ c₀.world.database.messages) (hconv : uuid c = some r.conversationId) :
    (∃ page ∈ pages ++ [next], Accounts u page r) ∨ (∀ page ∈ pages ++ [next], page.messages ≠ []) ∧
      ∀ b, cursor (pages ++ [next]) = some b → toMillis r.createdAt < b := by
  rcases hp.counted r hr hconv with ⟨page, hmem, haccounts⟩ | ⟨-, hcursor⟩
  · exact .inl ⟨page, List.mem_append_left _ hmem, haccounts⟩
  obtain ⟨r', hr', hburied⟩ := (hp.appends.trans hrely).buries r hr
  have hsame := hburied.sameOrigin
  have hk' : r'.conversationId = k := hsame.conversationId.trans (Option.some.inj (hconv.symm.trans hk))
  rw [← hsame.createdAt] at hcursor ⊢
  rcases accounts_or_below hpage hr' hk' hcursor with haccounts | ⟨m, hm, hlt⟩
  · exact .inl ⟨_, List.mem_append_right _ List.mem_cons_self, haccounts.sameOrigin hsame⟩
  · refine .inr ⟨fun page hmem => ?_, fun b hb => ?_⟩
    · rcases List.mem_append.mp hmem with hmem | hmem
      · exact hgo page hmem
      · cases List.mem_singleton.mp hmem
        exact List.ne_nil_of_mem (List.mem_of_mem_head? hm)
    · rw [cursor_concat, hm] at hb
      cases hb
      exact hlt

theorem Progress.page (hp : Progress uuid c u limit c₀ pages c₁) (hgo : ∀ page ∈ pages, page.messages ≠ [])
    (hfetch : Fetches uuid c u limit c₁ pages next c₂) :
    Progress uuid c u limit c₀ (pages ++ [next]) c₂ := by
  obtain ⟨hholds, hrely⟩ := hfetch.appends hp.holds
  obtain ⟨k, t, hk, ht, hbefore, hafter, hpage⟩ := hfetch.comesFrom hp.holds
  obtain ⟨hrows, hids, -, hsize⟩ := hpage.messages ht
  constructor
  · exact hholds
  · exact hp.appends.trans hrely
  · intro page hmem m hm
    rcases List.mem_append.mp hmem with hmem | hmem
    · obtain ⟨hconv, r, hr, hrow⟩ := hp.stored page hmem m hm
      obtain ⟨r', hr', hburied⟩ := hrely.buries r hr
      exact ⟨hconv, r', hr', hrow.buried hburied⟩
    · cases List.mem_singleton.mp hmem
      obtain ⟨r, hr, rfl, hconv, -⟩ := hrows m hm
      obtain ⟨r', hr', hburied⟩ := hafter.buries r hr
      exact ⟨hk.trans (congrArg some hconv.symm), r', hr', RowOfMessage.buried ⟨rfl, rfl, rfl, rfl⟩ hburied⟩
  · rw [List.flatMap_append, List.flatMap_singleton, List.map_append]
    refine List.nodup_append.mpr ⟨hp.once, hids, fun id₁ h₁ id₂ h₂ => ?_⟩
    obtain ⟨m, hm, rfl⟩ := List.mem_map.mp h₁
    obtain ⟨m', hm', rfl⟩ := List.mem_map.mp h₂
    obtain ⟨page, hmem, hm⟩ := List.mem_flatMap.mp hm
    exact hp.fresh hgo hpage ht hbefore page hmem m hm m' hm'
  · intro page hmem
    rcases List.mem_append.mp hmem with hmem | hmem
    · exact hp.sized page hmem
    · cases List.mem_singleton.mp hmem
      exact hsize
  · exact fun b hb => hp.above_page hgo hpage ht hb
  · rw [List.map_append, List.map_singleton, List.pairwise_append]
    refine ⟨hp.older, List.pairwise_singleton _ _, fun newer hnewer older holder => ?_⟩
    obtain ⟨page, hmem, rfl⟩ := List.mem_map.mp hnewer
    rw [List.mem_singleton.mp holder]
    exact hp.below hgo hpage ht page hmem
  · exact fun r hr hconv => hp.counted_page hgo hk hpage hbefore hr hconv

end Page

theorem ReadBack.progress {c₀ c₁ : Config server Failure Reply World Op} {pages : List Page}
    (hread : ReadBack uuid c u limit c₀ pages c₁) (hc : (appending uuid).Holds c₀) :
    Progress uuid c u limit c₀ pages c₁ := by
  induction hread with
  | begin => exact .begin hc
  | page _ hgo hfetch ih => exact ih.page hgo hfetch

theorem cursor_mem {pages : List Page} {b : Int} (hb : cursor pages = some b) :
    ∃ page ∈ pages, ∃ m ∈ page.messages, m.createdAt = b := by
  obtain ⟨m, hm, rfl⟩ := Option.map_eq_some_iff.mp hb
  obtain ⟨page, hpage, hm⟩ := Option.bind_eq_some_iff.mp hm
  exact ⟨page, List.mem_of_getLast? hpage, m, List.mem_of_mem_head? hm, rfl⟩

/-- If the table of `c'` had all that the pages so far show, it had what the next
one shows: a message that was sent since is not older than the cursor. -/
theorem Fetches.early {c' c₁ c₂ : Config server Failure Reply World Op} {pages : List Page} {next : Page}
    {ls : List (Label Input Op)} (hfetch : Fetches uuid c u limit c₁ pages next c₂)
    (hc' : (appending uuid).Holds c') (hruns : (system uuid).runs c' ls = some c₁) (hpages : pages ≠ [])
    (hgo : ∀ page ∈ pages, page.messages ≠ [])
    (hmessages : ∀ page ∈ pages, ∀ m ∈ page.messages, ∃ r ∈ c'.world.database.messages, RowOfMessage m r) :
    ∀ m ∈ next.messages, ∃ r ∈ c'.world.database.messages, RowOfMessage m r := by
  intro m hm
  obtain ⟨hc₁, hrely⟩ := (appending uuid).runs_holds hc' hruns
  obtain ⟨k, t, -, ht, hbefore, -, hpage⟩ := hfetch.comesFrom hc₁
  obtain ⟨r, hr, rfl, -, hlt⟩ := (hpage.messages ht).1 m hm
  rcases (hrely.trans hbefore).later r hr with ⟨r₁, hr₁, hsame⟩ | hlate
  · refine ⟨r₁, hr₁, hsame.id.symm, hsame.conversationId.symm, ?_, congrArg toMillis hsame.createdAt.symm⟩
    exact (congrArg MessageRecord.senderId hsame).symm
  · obtain ⟨b, hb⟩ := cursor_some hpages hgo
    obtain ⟨page, hmem, m, hm, rfl⟩ := cursor_mem hb
    obtain ⟨r₀, hr₀, hrow⟩ := hmessages page hmem m hm
    have hle : toMillis r₀.createdAt ≤ toMillis r.createdAt :=
      Int.ediv_le_ediv (by decide) ((hc'.inv.past r₀ hr₀).trans hlate)
    rw [hrow.createdAt] at hle
    exact absurd (hlt _ hb) (Int.not_lt.mpr hle)

/-- All that the pages show was in the table when the first of them had come. -/
theorem ReadBack.first {c₀ c₂ : Config server Failure Reply World Op} {pages : List Page}
    (hread : ReadBack uuid c u limit c₀ pages c₂) (hc : (appending uuid).Holds c₀) {first : Page}
    {rest : List Page} (hpages : pages = first :: rest) :
    ∃ c₁ ls, ReadBack uuid c u limit c₀ [first] c₁ ∧ (system uuid).runs c₁ ls = some c₂ ∧
      ∀ page ∈ pages, ∀ m ∈ page.messages, ∃ r ∈ c₁.world.database.messages, RowOfMessage m r := by
  induction hread generalizing rest with
  | begin => cases hpages
  | @page pages next c₁ c₂ hread hgo hfetch ih =>
    cases pages with
    | nil =>
      obtain ⟨rfl, rfl⟩ := List.cons.inj hpages
      have hstored := ((hread.progress hc).page hgo hfetch).stored
      exact ⟨c₂, [], .page hread hgo hfetch, rfl, fun page hmem m hm => (hstored page hmem m hm).2⟩
    | cons first' rest' =>
      obtain ⟨rfl, -⟩ := List.cons.inj hpages
      obtain ⟨c', ls', hfirst, hruns', hmessages⟩ := ih rfl
      obtain ⟨id, ls, -, hruns, -⟩ := id hfetch
      refine ⟨c', ls' ++ ls, hfirst, ?_, fun page hmem => ?_⟩
      · rw [System.runs_append, hruns']
        exact hruns
      · rcases List.mem_append.mp hmem with hmem | hmem
        · exact hmessages page hmem
        · rw [List.mem_singleton.mp hmem]
          exact hfetch.early (hfirst.progress hc).holds hruns' (List.cons_ne_nil _ _) hgo hmessages

end Postgres

end Jiffy
