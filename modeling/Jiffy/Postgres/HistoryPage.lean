-- SUMMARY: The page of history that the Postgres store reads, against the one the in-memory store lists for the same messages.
import Jiffy.InMemory.Stores
import Jiffy.Postgres.Calls

/-!
# Pages of history

Both message stores on the same messages, no two of one instant. The query that
the Postgres store builds takes the newest rows first and sorts them back; the
in-memory store sorts everything and slices from the end.
-/

namespace Jiffy

open Js Async

namespace Postgres

-- ---------------------------------------------------------------------------
-- One order
-- ---------------------------------------------------------------------------

/-- What the WHERE clause of the query admits. -/
def admits (k : String) (before after : Option Int) (m : MessageRecord) : Bool :=
  m.conversationId = k ∧ before.all (fun t => m.createdAt < t) ∧ after.all fun t => t < m.createdAt

/-- Newest first and back again is a slice of the sorted rows. -/
theorem history_eq {order : RowOrder} {messages : List MessageRecord} {k : String}
    {before after : Option Int} {limit : Nat}
    (hkeys : (messages.map fun m => m.createdAt).Nodup) :
    history order messages k before after limit =
      (sortBy (fun m => m.createdAt) (messages.filter (admits k before after))).rtake limit := by
  have hmatching : ((messages.filter (admits k before after)).map fun m => m.createdAt).Nodup :=
    hkeys.sublist (List.filter_sublist.map _)
  generalize hfilter : messages.filter (admits k before after) = matching at hmatching ⊢
  generalize hsorted : sortBy (fun m : MessageRecord => m.createdAt) matching = sorted
  have hperm : sorted.Perm matching := hsorted ▸ sortBy_perm _ _
  have hascending : sorted.Pairwise fun a b => a.createdAt ≤ b.createdAt :=
    hsorted ▸ sortBy_pairwise _ _
  have hnewest : sortBy (fun m => -m.createdAt) (order.messages matching) = sorted.reverse := by
    refine (eq_sortBy ?_ ?_ ?_).symm
    · exact (List.reverse_perm _).trans (hperm.trans (order.messages_perm _).symm)
    · rw [((order.messages_perm matching).map _).nodup_iff]
      have hneg := hmatching.map (f := fun t : Int => -t) neg_injective
      rwa [List.map_map] at hneg
    · rw [List.pairwise_reverse]
      exact hascending.imp fun h => neg_le_neg h
  have hrecent : (sorted.reverse.take limit).Perm (sorted.rtake limit) := by
    rw [List.rtake_eq_reverse_take_reverse]
    exact (List.reverse_perm _).symm
  have hslice : (sorted.rtake limit).Sublist sorted := List.drop_sublist _ _
  simp only [history]
  change sortBy (fun m => m.createdAt) (order.messages ((sortBy (fun m => -m.createdAt)
    (order.messages (messages.filter (admits k before after)))).take limit)) = _
  rw [hfilter, hnewest]
  refine (eq_sortBy ?_ ?_ (hascending.sublist hslice)).symm
  · exact hrecent.symm.trans (order.messages_perm _).symm
  · rw [(((order.messages_perm _).trans hrecent).map _).nodup_iff]
    exact ((hperm.map _).nodup_iff.mpr hmatching).sublist (hslice.map _)

-- ---------------------------------------------------------------------------
-- The same messages
-- ---------------------------------------------------------------------------

/-- The row of a message. -/
def recordOf (m : Message) : MessageRecord where
  id := m.id
  conversationId := m.conversationId
  senderId := m.senderId
  body := m.body
  createdAt := m.createdAt * 1000
  deletedAt := m.deletedAt.map fun t => t * 1000

theorem toMillis_mul (t : Int) : toMillis (t * 1000) = t := Int.mul_ediv_cancel t (by decide)

/-- The row comes back as the message. -/
theorem rowToMessage_recordOf (m : Message) : rowToMessage (recordOf m).row = m := by
  cases m with
  | mk id c s b t d => cases d <;> simp [rowToMessage, recordOf, MessageRecord.row, toMillis_mul]

/-- An instant that a TIMESTAMPTZ holds. -/
def Storable (d : Date) : Prop := ∃ t, d = Date.of t ∧ minTimestamp ≤ t ∧ t < maxTimestamp

theorem timestampParam_storable {d : Date} (h : Storable d) :
    ∃ t, d = Date.of t ∧ timestampParam d = .ok (t * 1000) := by
  obtain ⟨t, rfl, hmin, hmax⟩ := h
  exact ⟨t, rfl, by simp only [timestampParam, Date.of, hmin, hmax, and_self, if_true]⟩

/-- A bound as the query passes it on. -/
theorem bound_storable {bound : Option Date} (h : ∀ d, bound = some d → Storable d) :
    ∃ t : Option Int, bound = t.map Date.of ∧
      bound.mapM timestampParam = .ok (t.map fun t => t * 1000) := by
  cases bound with
  | none => exact ⟨none, rfl, rfl⟩
  | some d =>
    obtain ⟨t, rfl, hparam⟩ := timestampParam_storable (h d rfl)
    refine ⟨some t, rfl, ?_⟩
    simp only [Option.mapM_some, hparam]
    rfl

/-- What the options of the in-memory store admit. -/
def admitsMessage (c : String) (before after : Option Int) (m : Message) : Bool :=
  m.conversationId = c ∧ before.all (fun t => m.createdAt < t) ∧ after.all fun t => t < m.createdAt

theorem admits_recordOf (c : String) (before after : Option Int) (m : Message) :
    admits c (before.map fun t => t * 1000) (after.map fun t => t * 1000) (recordOf m) =
      admitsMessage c before after m := by
  cases before <;> cases after <;> simp [admits, admitsMessage, recordOf]

theorem listByConversation_unlimited {store : InMemoryMessageStore} {c : String}
    {before after : Option Int} {options : ListMessagesOptions} (hlimit : options.limit = none)
    (hbefore : options.before = before.map Date.of) (hafter : options.after = after.map Date.of)
    (hkeys : (store.messages.map fun m => m.createdAt).Nodup) :
    store.listByConversation c options =
      sortBy (fun m => m.createdAt) (store.messages.filter (admitsMessage c before after)) := by
  have hfilter : store.listByConversation c options =
      (sortBy (fun m => m.createdAt) (store.messages.filter fun m => m.conversationId = c)).filter
        (admitsMessage c before after) := by
    have hown : ∀ m ∈ sortBy (fun m => m.createdAt)
        (store.messages.filter fun m => m.conversationId = c), m.conversationId = c := by
      intro m hm
      simpa using (List.mem_filter.mp (mem_sortBy.mp hm)).2
    simp only [InMemoryMessageStore.listByConversation, hlimit, hbefore, hafter]
    generalize sortBy (fun m => m.createdAt) (store.messages.filter fun m => m.conversationId = c) =
      sorted at hown ⊢
    cases before with
    | none =>
      cases after with
      | none =>
        refine (List.filter_eq_self.mpr fun m hm => ?_).symm
        simp [admitsMessage, hown m hm]
      | some a =>
        refine List.filter_congr fun m hm => ?_
        simp [admitsMessage, hown m hm, Date.before_of]
    | some b =>
      cases after with
      | none =>
        refine List.filter_congr fun m hm => ?_
        simp [admitsMessage, hown m hm, Date.before_of]
      | some a =>
        simp only [Option.map_some, List.filter_filter]
        refine List.filter_congr fun m hm => ?_
        simp [admitsMessage, hown m hm, Date.before_of, Bool.and_comm]
  rw [hfilter]
  refine eq_sortBy ?_ (hkeys.sublist (List.filter_sublist.map _))
    ((sortBy_pairwise _ _).sublist List.filter_sublist)
  refine ((sortBy_perm _ _).filter _).trans ?_
  rw [List.filter_filter]
  refine (List.Perm.of_eq (List.filter_congr fun m _ => ?_))
  simp only [admitsMessage]
  grind

/-- The rows of the same messages in order. -/
theorem sortBy_recordOf {messages : List Message} {records : List MessageRecord}
    (hperm : records.Perm (messages.map recordOf))
    (hkeys : (messages.map fun m => m.createdAt).Nodup) :
    sortBy (fun m => m.createdAt) records =
      (sortBy (fun m => m.createdAt) messages).map recordOf := by
  refine (eq_sortBy ?_ ?_ ?_).symm
  · exact ((sortBy_perm _ _).map _).trans hperm.symm
  · rw [(hperm.map _).nodup_iff, List.map_map]
    have hscaled := hkeys.map (f := fun t : Int => t * 1000) (mul_left_injective₀ (by decide))
    rwa [List.map_map] at hscaled
  · rw [List.pairwise_map]
    exact (sortBy_pairwise _ messages).imp fun h => by simp only [recordOf]; omega

-- ---------------------------------------------------------------------------
-- Limits
-- ---------------------------------------------------------------------------

/-- How many rows the query asks for. -/
def pageSize (limit : Option Int) : Nat := (min (max (limit.getD 50) 1) 200).toNat

theorem bigintParam_pageSize (limit : Option Int) :
    bigintParam ((((limit.map fun z : Int => Number.finite z).getD PostgresMessageStore.defaultLimit).max
      (.finite 1)).min PostgresMessageStore.maxLimit) = .ok (pageSize limit) := by
  have hfinite : ∀ z : Int, bigintParam (((Number.finite z).max (.finite 1)).min (.finite 200)) =
      .ok (min (max z 1) 200).toNat := by
    intro z
    have hmax : (Number.finite z).max (.finite 1) = .finite ((max z 1 : Int) : ℚ) := by
      simp only [Number.max, Number.le, reduceCtorEq, or_self, if_false, decide_eq_true_eq]
      split
      · next h => rw [max_eq_right (by exact_mod_cast h)]; rfl
      · next h => rw [max_eq_left (le_of_not_ge (by exact_mod_cast h))]
    have hmin : (Number.finite ((max z 1 : Int) : ℚ)).min (.finite 200) =
        .finite ((min (max z 1) 200 : Int) : ℚ) := by
      simp only [Number.min, Number.le, reduceCtorEq, or_self, if_false, decide_eq_true_eq]
      split
      · next h => rw [min_eq_left (by exact_mod_cast h)]
      · next h => rw [min_eq_right (le_of_not_ge (by exact_mod_cast h))]; rfl
    rw [hmax, hmin]
    simp only [bigintParam, Rat.den_intCast, Rat.num_intCast, true_and]
    exact if_pos (by omega)
  cases limit with
  | none => exact hfinite 50
  | some z => exact hfinite z

variable {uuid : String → Option String} {i : Input} {w : World} {store : InMemoryMessageStore}
  {c : String} {options : ListMessagesOptions}

/-- The page for any whole limit: the end of what the in-memory store lists
without one. -/
theorem listByConversation_page {limit : Option Int} (hfault : ∀ s, i.fault s = none)
    (hsame : w.database.messages.Perm (store.messages.map recordOf))
    (hkeys : (store.messages.map fun m => m.createdAt).Nodup) (hc : uuid c = some c)
    (hbefore : ∀ d, options.before = some d → Storable d)
    (hafter : ∀ d, options.after = some d → Storable d)
    (hlimit : options.limit = limit.map fun z : Int => Number.finite z) :
    (adapter uuid).run i (PostgresMessageStore.listByConversation c options) w =
      (.ok ((store.listByConversation c { options with limit := none }).rtake (pageSize limit)), w) := by
  obtain ⟨before, hb, hbparam⟩ := bound_storable hbefore
  obtain ⟨after, ha, haparam⟩ := bound_storable hafter
  have hrecords : (w.database.messages.map fun m => m.createdAt).Nodup := by
    rw [(hsame.map _).nodup_iff, List.map_map]
    have hscaled := hkeys.map (f := fun t : Int => t * 1000) (mul_left_injective₀ (by decide))
    rwa [List.map_map] at hscaled
  have hmatching : (w.database.messages.filter (admits c (before.map fun t => t * 1000)
      (after.map fun t => t * 1000))).Perm
        ((store.messages.filter (admitsMessage c before after)).map recordOf) := by
    refine (hsame.filter _).trans (List.Perm.of_eq ?_)
    rw [List.filter_map]
    congr 1
    exact List.filter_congr fun m _ => admits_recordOf c before after m
  have hpage := sortBy_recordOf hmatching (hkeys.sublist (List.filter_sublist.map _))
  have hexec : execute uuid i w.clock w.database
      (.selectHistory (PostgresMessageStore.historyQuery c options)) =
        .ok ((history i.order w.database.messages c (before.map fun t => t * 1000)
          (after.map fun t => t * 1000) (pageSize limit)).map MessageRecord.row, w.database) := by
    simp only [execute, selectHistory_historyQuery, uuidParam, hc, hbparam, haparam, hlimit,
      bigintParam_pageSize]
    rfl
  rw [history_eq hrecords, hpage] at hexec
  have hlist : store.listByConversation c { options with limit := none } =
      sortBy (fun m => m.createdAt) (store.messages.filter (admitsMessage c before after)) :=
    listByConversation_unlimited rfl hb ha hkeys
  unfold PostgresMessageStore.listByConversation
  rw [Proc.bind_eq_bind, Adapter.run_bind, query_resolves (hfault _) hexec, hlist]
  simp only [List.rtake, List.length_map, ← List.map_drop, List.map_map]
  have hback : (rowToMessage ∘ MessageRecord.row ∘ recordOf) = id := by
    funext m
    exact rowToMessage_recordOf m
  simp only [Adapter.run, Proc.pure_eq_ret, hback, List.map_id]

/-- The most messages that one query hands over. -/
def pageCap (options : ListMessagesOptions) : Nat := if options.limit = none then 50 else 200

/-- On the same messages the Postgres store lists what the in-memory store
lists, up to its cap on one page. -/
theorem listByConversation_agrees (hfault : ∀ s, i.fault s = none)
    (hsame : w.database.messages.Perm (store.messages.map recordOf))
    (hkeys : (store.messages.map fun m => m.createdAt).Nodup) (hc : uuid c = some c)
    (hbefore : ∀ d, options.before = some d → Storable d)
    (hafter : ∀ d, options.after = some d → Storable d)
    (hlimit : options.limit = none ∨ ∃ n : Nat, 0 < n ∧ options.limit = some (.finite n)) :
    ∃ page, (adapter uuid).run i (PostgresMessageStore.listByConversation c options) w =
        (.ok page, w) ∧
      page = (store.listByConversation c options).rtake (pageCap options) ∧
      (page = store.listByConversation c options ↔
        (store.listByConversation c options).length ≤ pageCap options) := by
  have hcut : ∀ xs : List Message, xs.rtake (pageCap options) = xs ↔ xs.length ≤ pageCap options := by
    intro xs
    constructor
    · intro h
      have hlength := congrArg List.length h
      simp only [List.rtake, List.length_drop] at hlength
      omega
    · intro h
      rw [List.rtake, Nat.sub_eq_zero_of_le h, List.drop_zero]
  suffices hpage : (adapter uuid).run i (PostgresMessageStore.listByConversation c options) w =
      (.ok ((store.listByConversation c options).rtake (pageCap options)), w) from
    ⟨_, hpage, rfl, hcut _⟩
  rcases hlimit with hnone | ⟨n, hn, hsome⟩
  · rw [@listByConversation_page _ _ _ _ _ _ none hfault hsame hkeys hc hbefore hafter hnone, pageCap,
      if_pos hnone, show { options with limit := none } = options by rw [← hnone]]
    rfl
  · have hwhole : store.listByConversation c options =
        (store.listByConversation c { options with limit := none }).rtake n := by
      rw [← InMemoryMessageStore.listByConversation_limit hn, ← hsome]
    rw [@listByConversation_page _ _ _ _ _ _ (some (n : Int)) hfault hsame hkeys hc hbefore hafter
      (by rw [hsome]; rfl), pageCap, if_neg (by rw [hsome]; simp), hwhole]
    have hsize : pageSize (some (n : Int)) = min 200 n := by
      simp only [pageSize, Option.getD_some]
      omega
    rw [hsize, rtake_rtake]

/-- Messages `0` to `n - 1` of conversation `c`, a millisecond apart. -/
def numbered (n : Nat) : InMemoryMessageStore :=
  ⟨(List.range n).map fun k : Nat => ⟨s!"m{k}", "c", "ann", "hello", k, none⟩⟩

/-- The same messages in the tables. -/
def numberedRows (n : Nat) : World :=
  { World.init 0 with database := ⟨[], [], (numbered n).messages.map recordOf, [], 0⟩ }

/-- A page of two out of three. -/
theorem listByConversation_agrees_three :
    ∃ page, (adapter some).run (.calm 0 "x")
        (PostgresMessageStore.listByConversation "c" { limit := some (.finite (2 : Nat)) })
        (numberedRows 3) = (.ok page, numberedRows 3) ∧
      page = (numbered 3).listByConversation "c" { limit := some (.finite (2 : Nat)) } := by
  obtain ⟨page, hrun, -, hiff⟩ := @listByConversation_agrees some (.calm 0 "x") (numberedRows 3)
    (numbered 3) "c" { limit := some (.finite (2 : Nat)) } (fun _ => rfl) (.refl _) (by decide) rfl
    (fun _ h => by cases h) (fun _ h => by cases h) (.inr ⟨2, by decide, rfl⟩)
  refine ⟨page, hrun, hiff.mpr ?_⟩
  have hlimit := @InMemoryMessageStore.listByConversation_limit (numbered 3) "c" {} 2 (by decide)
  rw [hlimit, List.rtake, List.length_drop, pageCap, if_neg (by simp)]
  omega

theorem length_numbered (n : Nat) : ((numbered n).listByConversation "c" {}).length = n := by
  have hsorted : (numbered n).listByConversation "c" {} = sortBy (fun m => m.createdAt)
      ((numbered n).messages.filter fun m => m.conversationId = "c") := rfl
  rw [hsorted, (sortBy_perm _ _).length_eq, List.filter_eq_self.mpr, numbered, List.length_map,
    List.length_range]
  intro m hm
  obtain ⟨k, -, rfl⟩ := List.mem_map.mp hm
  rfl

theorem createdAt_numbered (n : Nat) : ((numbered n).messages.map fun m => m.createdAt).Nodup := by
  simp only [numbered, List.map_map]
  exact List.nodup_range.map fun a b h => Int.ofNat.inj (by exact h)

/-- Fifty-one messages without a limit; a limit of zero, which `slice(-0)` takes
for none; an instant before the first one of a TIMESTAMPTZ; an id that is no
UUID. -/
theorem listByConversation_disagrees :
    (∃ page, (adapter some).run (.calm 0 "x") (PostgresMessageStore.listByConversation "c" {})
        (numberedRows 51) = (.ok page, numberedRows 51) ∧
      page.length = 50 ∧ ((numbered 51).listByConversation "c" {}).length = 51) ∧
    (∃ page, (adapter some).run (.calm 0 "x")
        (PostgresMessageStore.listByConversation "c" { limit := some (.finite 0) })
        (numberedRows 2) = (.ok page, numberedRows 2) ∧
      page.length = 1 ∧
      ((numbered 2).listByConversation "c" { limit := some (.finite 0) }).length = 2) ∧
    (∃ e, (adapter some).run (.calm 0 "x")
        (PostgresMessageStore.listByConversation "c" { before := some (Date.of (-210866803200001)) })
        (numberedRows 2) = (.error e, numberedRows 2) ∧
      (numbered 2).listByConversation "c" { before := some (Date.of (-210866803200001)) } = []) ∧
    ∃ e, (adapter fun _ => none).run (.calm 0 "x")
        (PostgresMessageStore.listByConversation "missing" {}) (numberedRows 2) =
          (.error e, numberedRows 2) ∧
      (numbered 2).listByConversation "missing" {} = [] := by
  refine ⟨?_, ⟨_, rfl, rfl, rfl⟩, ⟨_, rfl, rfl⟩, ⟨_, rfl, rfl⟩⟩
  have hpage := @listByConversation_page some (.calm 0 "x") (numberedRows 51) (numbered 51) "c" {}
    none (fun _ => rfl) (.refl _) (createdAt_numbered 51) rfl (fun _ h => by cases h)
    (fun _ h => by cases h) rfl
  refine ⟨_, hpage, ?_, length_numbered 51⟩
  rw [List.rtake, List.length_drop, length_numbered 51]
  rfl

-- ---------------------------------------------------------------------------
-- The newest page
-- ---------------------------------------------------------------------------

/-- The newest `n` of some rows, oldest first. Ties go either way. -/
structure NewestPage (n : Nat) (rows page : List MessageRecord) : Prop where
  newest : ∃ rest, (page ++ rest).Perm rows ∧ ∀ m ∈ rest, ∀ m' ∈ page, m.createdAt ≤ m'.createdAt
  length : page.length = min n rows.length
  sorted : page.Pairwise fun a b => a.createdAt ≤ b.createdAt

/-- The double sort gives a newest page, whatever order ties are in. -/
theorem newestPage_history (order : RowOrder) (messages : List MessageRecord) (k : String)
    (before after : Option Int) (limit : Nat) :
    NewestPage limit (messages.filter (admits k before after))
      (history order messages k before after limit) := by
  generalize hmatching : messages.filter (admits k before after) = matching
  generalize hsorted : sortBy (fun m : MessageRecord => -m.createdAt) (order.messages matching) = sorted
  have hperm : sorted.Perm matching := hsorted ▸ (sortBy_perm _ _).trans (order.messages_perm _)
  have hdescending : sorted.Pairwise fun a b => -a.createdAt ≤ -b.createdAt :=
    hsorted ▸ sortBy_pairwise _ _
  have hpage : history order messages k before after limit =
      sortBy (fun m => m.createdAt) (order.messages (sorted.take limit)) := by
    rw [← hsorted, ← hmatching]
    rfl
  rw [hpage]
  have hrecent := (sortBy_perm (fun m : MessageRecord => m.createdAt) _).trans
    (order.messages_perm (sorted.take limit))
  refine ⟨⟨sorted.drop limit, ?_, fun m hm m' hm' => ?_⟩, ?_, sortBy_pairwise _ _⟩
  · refine (hrecent.append_right _).trans ?_
    rw [List.take_append_drop]
    exact hperm
  · rw [← List.take_append_drop limit sorted, List.pairwise_append] at hdescending
    exact neg_le_neg_iff.mp (hdescending.2.2 m' (hrecent.mem_iff.mp hm') m hm)
  · rw [hrecent.length_eq, List.length_take, hperm.length_eq]

/-- The query for a page, for any whole limit. -/
def pageOptions (limit before after : Option Int) : ListMessagesOptions :=
  ⟨limit.map fun z : Int => Number.finite z, before.map Date.of, after.map Date.of⟩

/-- Postgres can answer the query: it does not fail, the id is a UUID, and the instants
are in the range of a TIMESTAMPTZ. -/
structure Readable (uuid : String → Option String) (i : Input) (c : String)
    (limit before after : Option Int) : Prop where
  fault : i.fault (.selectHistory (PostgresMessageStore.historyQuery c (pageOptions limit before after))) =
    none
  id : (uuid c).isSome = true
  before : ∀ t, before = some t → minTimestamp ≤ t ∧ t < maxTimestamp
  after : ∀ t, after = some t → minTimestamp ≤ t ∧ t < maxTimestamp

/-- The instants as the query passes them on. -/
theorem timestampParams (bound : Option Int) :
    (bound.map Date.of).mapM timestampParam =
      if ∀ t, bound = some t → minTimestamp ≤ t ∧ t < maxTimestamp then
        .ok (bound.map fun t => t * 1000)
      else
        .error "timestamp out of range" := by
  cases bound with
  | none => exact (if_pos fun t h => by cases h).symm
  | some t =>
    simp only [Option.map_some, Option.mapM_some, timestampParam, Date.of, Option.some.injEq,
      forall_eq']
    split <;> rfl

/-- The rows that a query is for, and the page of them that it gives. -/
theorem execute_page (uuid : String → Option String) (i : Input) (now : Int) (db : Database) (c : String)
    (limit before after : Option Int) (hid : (uuid c).isSome = true)
    (hbefore : ∀ t, before = some t → minTimestamp ≤ t ∧ t < maxTimestamp)
    (hafter : ∀ t, after = some t → minTimestamp ≤ t ∧ t < maxTimestamp) :
    ∃ id, uuid c = some id ∧ execute uuid i now db
      (.selectHistory (PostgresMessageStore.historyQuery c (pageOptions limit before after))) =
        .ok ((history i.order db.messages id (before.map fun t => t * 1000)
          (after.map fun t => t * 1000) (pageSize limit)).map MessageRecord.row, db) := by
  obtain ⟨id, hc⟩ := Option.isSome_iff_exists.mp hid
  refine ⟨id, hc, ?_⟩
  simp only [execute, selectHistory_historyQuery, uuidParam, hc, pageOptions, timestampParams,
    if_pos hbefore, if_pos hafter, bigintParam_pageSize]
  rfl

/-- A query with a parameter that Postgres cannot read is refused. -/
theorem execute_page_refused (uuid : String → Option String) (i : Input) (now : Int) (db : Database)
    (c : String) (limit before after : Option Int)
    (h : ¬ ((uuid c).isSome = true ∧ (∀ t, before = some t → minTimestamp ≤ t ∧ t < maxTimestamp) ∧
      ∀ t, after = some t → minTimestamp ≤ t ∧ t < maxTimestamp)) :
    ∃ e, execute uuid i now db
      (.selectHistory (PostgresMessageStore.historyQuery c (pageOptions limit before after))) =
        .error e := by
  simp only [execute, selectHistory_historyQuery, uuidParam, pageOptions]
  cases hc : uuid c with
  | none => exact ⟨_, rfl⟩
  | some id =>
    simp only [timestampParams]
    split
    · next hbefore =>
      split
      · next hafter => exact absurd ⟨by rw [hc]; rfl, hbefore, hafter⟩ h
      · exact ⟨_, rfl⟩
    · exact ⟨_, rfl⟩

/-- For every content of the table, with ties in any order: a query that is
answered gives the newest page of the messages that its bounds admit, and any
other is refused. No page has more than 200. -/
theorem listByConversation_newest (uuid : String → Option String) (i : Input) (w : World) (c : String)
    (limit before after : Option Int) :
    ∃ result, (adapter uuid).run i
        (PostgresMessageStore.listByConversation c (pageOptions limit before after)) w = (result, w) ∧
      (Readable uuid i c limit before after → ∃ id page, uuid c = some id ∧
        NewestPage (pageSize limit) (w.database.messages.filter (admits id
          (before.map fun t => t * 1000) (after.map fun t => t * 1000))) page ∧
        result = .ok (page.map fun m => rowToMessage m.row)) ∧
      (¬ Readable uuid i c limit before after → ∃ e, result = .error e) ∧
      ∀ messages, result = .ok messages → messages.length ≤ 200 := by
  unfold PostgresMessageStore.listByConversation
  rw [Proc.bind_eq_bind, Adapter.run_bind]
  by_cases hreadable : Readable uuid i c limit before after
  · obtain ⟨id, hc, hexec⟩ := execute_page uuid i w.clock w.database c limit before after
      hreadable.id hreadable.before hreadable.after
    have hpage := newestPage_history i.order w.database.messages id (before.map fun t => t * 1000)
      (after.map fun t => t * 1000) (pageSize limit)
    rw [query_resolves hreadable.fault hexec]
    simp only [Proc.pure_eq_ret, Adapter.run_ret, List.map_map]
    refine ⟨_, rfl, fun _ => ⟨id, _, hc, hpage, rfl⟩, fun h => absurd hreadable h, fun messages h => ?_⟩
    cases h
    rw [List.length_map, hpage.length, pageSize]
    omega
  · obtain ⟨e, he⟩ : ∃ e, (adapter uuid).run i (query (.selectHistory
        (PostgresMessageStore.historyQuery c (pageOptions limit before after)))) w = (.error e, w) := by
      rw [run_query]
      simp only [perform]
      cases hfault : i.fault (.selectHistory
          (PostgresMessageStore.historyQuery c (pageOptions limit before after))) with
      | some e => exact ⟨_, rfl⟩
      | none =>
        obtain ⟨e, he⟩ := execute_page_refused uuid i w.clock w.database c limit before after
          fun h => hreadable ⟨hfault, h.1, h.2.1, h.2.2⟩
        simp only [he]
        exact ⟨_, rfl⟩
    rw [he]
    exact ⟨_, rfl, fun h => absurd h hreadable, fun _ => ⟨e, rfl⟩, fun messages h => by cases h⟩

/-- Nothing is older than an instant before the first one of a TIMESTAMPTZ, and
the query for it is refused. -/
theorem listByConversation_before_first :
    (∃ e, (adapter some).run (.calm 0 "x") (PostgresMessageStore.listByConversation "c"
        (pageOptions none (some (-210866803200001)) none)) (numberedRows 2) =
          (.error e, numberedRows 2)) ∧
      (numberedRows 2).database.messages.filter
        (admits "c" (some (-210866803200001 * 1000)) none) = [] :=
  ⟨⟨_, rfl⟩, rfl⟩

end Postgres

end Jiffy
