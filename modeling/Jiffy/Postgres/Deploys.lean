-- SUMMARY: Any history of deploys: where it leaves the schema, what it keeps, and which statements of the stores then find their columns.
import Jiffy.Postgres.Schema

/-!
# Deploys

`scripts/apply-schema.mjs` runs on every deploy, from the first file on. A
deploy may break off at any query, and the service and others work on the
database between two deploys.
-/

namespace Jiffy

namespace Postgres

open Migration

section Deploys

variable {α : Type} {space : Namespace α} {rest : SearchPath α}

-- ---------------------------------------------------------------------------
-- One deploy
-- ---------------------------------------------------------------------------

/-- Whatever order the directory lists its names in. -/
theorem filesOf_directory {names : List String} (h : names.Perm directory) : filesOf names = files := by
  have hlater : names.filter isLater = ["2026-08-25-deletes.sql"] := by
    refine List.perm_singleton.mp ?_
    have hfilter := h.filter isLater
    have hdirectory : directory.filter isLater = ["2026-08-25-deletes.sql"] := by decide
    rwa [hdirectory] at hfilter
  unfold filesOf
  rw [hlater, List.mergeSort_singleton]
  rfl

theorem reachable_shape {n : ℕ} (hn : n = 1 ∨ n = 2) (h : LooksLike space (shape n)) :
    reachable (space :: rest) = ["conversation_participants", "conversations", "messages"] := by
  have hdefined : ∀ name ∈ ["conversation_participants", "conversations", "messages"],
      name ∈ serviceNames ∧ ∃ d, shape n name = some d := by
    rcases hn with rfl | rfl
    all_goals
      simp only [List.forall_mem_cons, List.not_mem_nil, false_imp_iff, implies_true, and_true]
      exact ⟨⟨by decide, _, rfl⟩, ⟨by decide, _, rfl⟩, by decide, _, rfl⟩
  refine List.filter_eq_self.mpr fun name hname => ?_
  obtain ⟨hservice, d, hd⟩ := hdefined name hname
  obtain ⟨rows, hrelation⟩ := h.exists hservice hd
  rw [resolve_head hrelation]
  rfl

theorem columnsFound_cons (space : Namespace α) (rest : SearchPath α) :
    columnsFound (space :: rest) = columnsFound [space] ++ columnsFound rest := by
  simp only [columnsFound, List.flatMap_cons, List.flatMap_nil, List.append_nil]

theorem columnsFound_shape {n : ℕ} (h : LooksLike space (shape n)) :
    columnsFound [space] = addedColumns.filter fun column =>
      (shape n column.1).any fun d => d.hasColumn column.2 := by
  have hspace : ∀ column ∈ addedColumns,
      ((space column.1).any fun relation => relation.definition.hasColumn column.2) =
        (shape n column.1).any fun d => d.hasColumn column.2 := by
    intro column hcolumn
    have hname : ∀ column ∈ addedColumns, column.1 ∈ serviceNames := by decide
    rw [← h column.1 (hname column hcolumn), Option.any_map]
  simp only [columnsFound, List.flatMap_cons, List.flatMap_nil, List.append_nil]
  exact List.filter_congr hspace

/-- The script's last look at a database that every file went through on. -/
theorem verifySchema_iff (h : AtLevel rest 2 path) (tables columns : Fate String) :
    (verifySchema tables columns path).exitCode = 0 ↔
      tables = .fine ∧ columns = .fine ∧ columnsFound rest = [] := by
  obtain ⟨-, space, rfl, hlooks⟩ := h
  have hreachable := @reachable_shape α space rest 2 (.inr rfl) hlooks
  have hcolumns : columnsFound (space :: rest) = addedColumns ++ columnsFound rest := by
    rw [columnsFound_cons, columnsFound_shape hlooks]
    rfl
  have hlength : (columnsFound (space :: rest)).length = 2 ↔ columnsFound rest = [] := by
    rw [hcolumns, List.length_append, ← List.length_eq_zero_iff]
    exact ⟨fun h => by simpa [addedColumns] using h, fun h => by rw [h]; rfl⟩
  unfold verifySchema
  rw [hreachable]
  cases tables with
  | lost e => simp [lostAnswer]
  | unacknowledged e => simp [lostAnswer]
  | fine =>
    cases columns with
    | lost e => simp [lostAnswer]
    | unacknowledged e => simp [lostAnswer]
    | fine =>
      simp only [lostAnswer, true_and]
      rw [← hlength]
      split
      · next hfound => exact iff_of_true rfl hfound
      · next hfound => exact iff_of_false Nat.one_ne_zero hfound

/-- One deploy of a database at level `n` of its own schema. -/
structure Deployed (url : Option String) (fates : ℕ → Fate String) (rest : SearchPath α) (n : ℕ)
    (path : SearchPath α) (result : Outcome × SearchPath α) (m : ℕ) : Prop where
  up : n ≤ m
  level : AtLevel rest m result.2
  kept : KeepsRows path result.2
  /-- Without a new file nothing happens. -/
  same : m = n → result.2 = path
  complete : result.1.exitCode = 0 → m = 2
  succeeds : result.1.exitCode = 0 ↔
    (url ≠ none ∧ url ≠ some "") ∧ (∀ i < 4, fates i = .fine) ∧ columnsFound rest = []

theorem applySchema_deployed {n : ℕ} {path : SearchPath α} (h : AtLevel rest n path) (url : Option String)
    (schemaDir : String) {names : List String} (hnames : names.Perm directory) (fates : ℕ → Fate String) :
    ∃ m, Deployed url fates rest n path (applySchema url schemaDir names fates path) m := by
  obtain ⟨m, hc⟩ := (ladder rest).climbed (List.nil_append files).symm (Nat.zero_le n) h.bounded h
  have hkept : KeepsRows path (upgrade (fun file => execAll (readFile file)) files fates path).state :=
    upgrade_keeps KeepsRows.refl KeepsRows.trans (fun _ _ _ => execAll_keeps) files fates path
  unfold applySchema
  rw [filesOf_directory hnames]
  split
  · next hurl =>
    refine ⟨n, le_rfl, h, .refl path, fun _ => rfl, (by cases ·), ?_⟩
    exact iff_of_false Nat.one_ne_zero fun hall => hurl.elim hall.1.1 hall.1.2
  · next hurl =>
    simp only
    split
    · next file e hfailed =>
      refine ⟨m, hc.up, hc.level, hkept, hc.same, (by cases ·), ?_⟩
      refine iff_of_false Nat.one_ne_zero fun hall => ?_
      have hnone := hc.fails.mpr fun i hi => hall.2.1 i (by have : i < 2 := hi; omega)
      rw [hfailed] at hnone
      cases hnone
    · next hnone =>
      obtain rfl : m = 2 := (hc.done hnone).1
      refine ⟨2, hc.up, hc.level, hkept, hc.same, fun _ => rfl, ?_⟩
      refine (verifySchema_iff hc.level _ _).trans ⟨fun hall => ⟨not_or.mp hurl, fun i hi => ?_, hall.2.2⟩,
        fun hall => ⟨hall.2.1 2 (by decide), hall.2.1 3 (by decide), hall.2.2⟩⟩
      rcases i with _ | _ | _ | _ | i
      · exact hc.fails.mp hnone 0 (by decide)
      · exact hc.fails.mp hnone 1 (by decide)
      · exact hall.1
      · exact hall.2.1
      · omega

/-- Anything but a deploy may happen to a database meanwhile: only the
relations of the service stay as they are defined. -/
def SameDefinitions (path path' : SearchPath α) : Prop :=
  ∃ space rest space' rest', path = space :: rest ∧ path' = space' :: rest' ∧
    ∀ name ∈ serviceNames, (space' name).map Relation.definition = (space name).map Relation.definition

/-- Deploys, and what happens between them. -/
inductive History (schemaDir : String) (start : SearchPath α) : List Outcome → SearchPath α → Prop where
  | begin : History schemaDir start [] start
  | deploy {outcomes : List Outcome} {path : SearchPath α} (h : History schemaDir start outcomes path)
    (url : Option String) {names : List String} (hnames : names.Perm directory) (fates : ℕ → Fate String) :
    History schemaDir start (outcomes ++ [(applySchema url schemaDir names fates path).1])
      (applySchema url schemaDir names fates path).2
  | change {outcomes : List Outcome} {path path' : SearchPath α} (h : History schemaDir start outcomes path)
    (hsame : SameDefinitions path path') : History schemaDir start outcomes path'

theorem AtLevel.change {n : ℕ} {path path' : SearchPath α} (h : AtLevel rest n path)
    (hsame : SameDefinitions path path') : ∃ rest', AtLevel rest' n path' := by
  obtain ⟨space, rest, space', rest', rfl, rfl, hdefined⟩ := hsame
  obtain ⟨hbounded, _, ⟨⟩, hlooks⟩ := h
  exact ⟨rest', hbounded, space', rfl, fun name hname => (hdefined name hname).trans (hlooks name hname)⟩

theorem History.atLevel {schemaDir : String} {start path : SearchPath α} {outcomes : List Outcome}
    (h : History schemaDir start outcomes path) (hstart : AtLevel rest 0 start) :
    ∃ rest n, AtLevel rest n path ∧ ((∃ o ∈ outcomes, o.exitCode = 0) → n = 2) := by
  induction h with
  | begin => exact ⟨rest, 0, hstart, fun ⟨o, ho, _⟩ => absurd ho List.not_mem_nil⟩
  | deploy _ url hnames fates ih =>
    obtain ⟨rest, n, hlevel, hdone⟩ := ih
    obtain ⟨m, hd⟩ := applySchema_deployed hlevel url schemaDir hnames fates
    refine ⟨rest, m, hd.level, ?_⟩
    rintro ⟨o, ho, hzero⟩
    rcases List.mem_append.mp ho with hearlier | hlast
    · exact le_antisymm hd.level.bounded (hdone ⟨o, hearlier, hzero⟩ ▸ hd.up)
    · rw [List.mem_singleton.mp hlast] at hzero
      exact hd.complete hzero
  | change _ hsame ih =>
    obtain ⟨rest, n, hlevel, hdone⟩ := ih
    obtain ⟨rest', hlevel'⟩ := hlevel.change hsame
    exact ⟨rest', n, hlevel', hdone⟩

/-- Wherever deploys break off and whatever happens in between, the schema of
the service stands at a number of files, which only grows: a deploy whose
queries are all answered takes it to the last one, and one that finds it there
does nothing. No deploy takes away a relation, a row or a value. -/
theorem deploys_converge {schemaDir : String} {start path : SearchPath α} {outcomes : List Outcome}
    (hstart : AtLevel rest 0 start) (h : History schemaDir start outcomes path) :
    ∃ rest n, AtLevel rest n path ∧ ((∃ o ∈ outcomes, o.exitCode = 0) → n = 2) ∧
      ∀ url names fates, names.Perm directory →
        ∃ m, Deployed url fates rest n path (applySchema url schemaDir names fates path) m := by
  obtain ⟨rest, n, hlevel, hdone⟩ := h.atLevel hstart
  exact ⟨rest, n, hlevel, hdone, fun url names fates hnames =>
    applySchema_deployed hlevel url schemaDir hnames fates⟩

/-- An empty database. -/
def emptyPath : SearchPath String := [fun _ => none]

theorem emptyPath_atLevel : AtLevel [] 0 emptyPath := ⟨Nat.zero_le _, _, rfl, fun _ _ => rfl⟩

/-- The connection breaks while the second file is applied. -/
def broken (i : ℕ) : Fate String := if i = 1 then .lost "Connection terminated unexpectedly" else .fine

/-- A deploy that breaks off, and another one. -/
theorem deploys_converge_resumed : ∃ outcomes path rest n m, outcomes.length = 1 ∧
    History "schema" emptyPath outcomes path ∧ AtLevel rest n path ∧
      Deployed (some "postgres://db") (fun _ => .fine) rest n path
        (applySchema (some "postgres://db") "schema" directory (fun _ => .fine) path) m := by
  have h := (@History.begin String "schema" emptyPath).deploy (some "postgres://db") (.refl directory) broken
  obtain ⟨rest, n, hlevel, -, hnext⟩ := deploys_converge emptyPath_atLevel h
  obtain ⟨m, hm⟩ := hnext (some "postgres://db") directory (fun _ => .fine) (.refl directory)
  exact ⟨_, _, rest, n, m, rfl, h, hlevel, hm⟩

-- ---------------------------------------------------------------------------
-- What the stores need
-- ---------------------------------------------------------------------------

/-- `COLUMNS` -/
def messageColumns : List (String × String) :=
  [("messages", "id"), ("messages", "conversation_id"), ("messages", "sender_id"), ("messages", "body"),
    ("messages", "created_at"), ("messages", "deleted_at")]

/-- The columns in `SELECT_WITH_PARTICIPANTS`. -/
def joinedColumns : List (String × String) :=
  [("conversations", "id"), ("conversations", "created_at"), ("conversation_participants", "conversation_id"),
    ("conversation_participants", "user_id"), ("conversation_participants", "last_read_at"),
    ("conversation_participants", "cleared_at")]

/-- The columns that a statement of the stores names, each with its table. -/
def columnsOf : Statement → List (String × String)
  | .begin _ | .commit _ | .rollback _ => []
  | .insertConversation _ => [("conversations", "id"), ("conversations", "created_at")]
  | .insertParticipants _ _ _ =>
    [("conversation_participants", "conversation_id"), ("conversation_participants", "user_id")]
  | .selectConversation _ | .selectConversationsOf _ => joinedColumns
  | .updateLastReadAt _ _ _ =>
    [("conversation_participants", "last_read_at"), ("conversation_participants", "conversation_id"),
      ("conversation_participants", "user_id")]
  | .updateClearedAt _ _ _ =>
    [("conversation_participants", "cleared_at"), ("conversation_participants", "conversation_id"),
      ("conversation_participants", "user_id")]
  | .insertMessage _ _ _ | .selectMessage _ | .updateDeleted _ _ | .selectHistory _ => messageColumns

/-- The database finds every column that a statement names. -/
def FindsColumns (path : SearchPath α) (statement : Statement) : Prop :=
  ∀ column ∈ columnsOf statement,
    (resolve path column.1).any (fun relation => relation.definition.hasColumn column.2) = true

/-- The names that the statements use. -/
def usedColumns : List (String × String) := joinedColumns ++ messageColumns

theorem columnsOf_sub (statement : Statement) : columnsOf statement ⊆ usedColumns := by
  cases statement
  all_goals
    simp only [columnsOf]
    decide

/-- Once the tables are there, a statement finds its columns unless it names
one that a dated file has yet to add. -/
theorem findsColumns_iff {n : ℕ} {path : SearchPath α} (h : AtLevel rest n path) (hn : 1 ≤ n)
    (statement : Statement) :
    FindsColumns path statement ↔ n = 2 ∨ ∀ column ∈ columnsOf statement, column ∉ addedColumns := by
  obtain ⟨hbounded, space, rfl, hlooks⟩ := h
  have hlevel : n = 1 ∨ n = 2 := by have : n ≤ 2 := hbounded; omega
  have hfound : ∀ column ∈ usedColumns,
      (resolve (space :: rest) column.1).any (fun relation => relation.definition.hasColumn column.2) =
        (shape n column.1).any (fun d => d.hasColumn column.2) := by
    intro column hcolumn
    have hname : ∀ column ∈ usedColumns, column.1 ∈ serviceNames := by decide
    have hdefined : ∀ column ∈ usedColumns, (shape n column.1).isSome := by
      rcases hlevel with rfl | rfl
      · decide
      · decide
    obtain ⟨d, hd⟩ := Option.isSome_iff_exists.mp (hdefined column hcolumn)
    obtain ⟨rows, hrelation⟩ := hlooks.exists (hname column hcolumn) hd
    rw [resolve_head hrelation, hd]
    rfl
  have hshape : ∀ column ∈ usedColumns,
      (shape n column.1).any (fun d => d.hasColumn column.2) = true ↔ n = 2 ∨ column ∉ addedColumns := by
    rcases hlevel with rfl | rfl
    · decide
    · decide
  constructor
  · intro hall
    refine or_iff_not_imp_left.mpr fun hn2 column hcolumn => ?_
    have hused := columnsOf_sub statement hcolumn
    exact ((hshape column hused).mp ((hfound column hused).symm.trans (hall column hcolumn))).resolve_left hn2
  · intro hcase column hcolumn
    have hused := columnsOf_sub statement hcolumn
    refine (hfound column hused).trans ((hshape column hused).mpr ?_)
    exact hcase.imp_right fun hall => hall column hcolumn

theorem columnsFound_level {n : ℕ} {path : SearchPath α} (h : AtLevel rest n (space :: path)) (hn : 1 ≤ n) :
    (columnsFound [space]).length = 2 ↔ n = 2 := by
  obtain ⟨hbounded, _, ⟨⟩, hlooks⟩ := h
  have hlevel : n = 1 ∨ n = 2 := by have : n ≤ 2 := hbounded; omega
  rw [columnsFound_shape hlooks]
  rcases hlevel with rfl | rfl
  · decide
  · decide

theorem reachable_empty (h : LooksLike space (shape 0)) : reachable [space] = [] := by
  refine List.filter_eq_nil_iff.mpr fun name hname => ?_
  have hservice : ∀ name ∈ ["conversation_participants", "conversations", "messages"], name ∈ serviceNames := by
    decide
  have hnone : space name = none := Option.map_eq_none_iff.mp (h name (hservice name hname))
  simp only [resolve, List.findSome?_cons, List.findSome?_nil, hnone]
  exact Bool.false_ne_true

/-- Once a deploy has exited with 0, the stores find every column they name,
for good. And the columns the script looks for are the ones that matter: where
the tables are there, both are if and only if nothing the stores send fails. -/
theorem statements_resolve {schemaDir : String} {start path : SearchPath α} {outcomes : List Outcome}
    (hstart : AtLevel rest 0 start) (h : History schemaDir start outcomes path) :
    ((∃ o ∈ outcomes, o.exitCode = 0) → ∀ statement, FindsColumns path statement) ∧
      ∀ space rest, path = space :: rest → (reachable [space]).length = 3 →
        ((columnsFound [space]).length = 2 ↔ ∀ statement, FindsColumns path statement) := by
  obtain ⟨rest, n, hlevel, hdone⟩ := h.atLevel hstart
  constructor
  · intro hzero statement
    have hn := hdone hzero
    exact (findsColumns_iff hlevel (by omega) statement).mpr (.inl hn)
  · rintro space rest' rfl htables
    have hn : 1 ≤ n := by
      refine Nat.one_le_iff_ne_zero.mpr fun hzero => ?_
      obtain ⟨-, _, ⟨⟩, hlooks⟩ := hlevel
      rw [reachable_empty (hzero ▸ hlooks)] at htables
      cases htables
    rw [columnsFound_level hlevel hn]
    constructor
    · exact fun hn2 statement => (findsColumns_iff hlevel hn statement).mpr (.inl hn2)
    · intro hall
      refine ((findsColumns_iff hlevel hn (.selectMessage "")).mp (hall _)).resolve_right fun hnew => ?_
      exact hnew ("messages", "deleted_at") (by decide) (by decide)

/-- An empty database and one deploy. -/
theorem statements_resolve_deployed : ∃ outcome path, History "schema" emptyPath [outcome] path ∧
    outcome.exitCode = 0 ∧ ∀ statement, FindsColumns path statement := by
  have h := (@History.begin String "schema" emptyPath).deploy (some "postgres://db") (.refl directory) fun _ => .fine
  obtain ⟨m, hd⟩ := applySchema_deployed emptyPath_atLevel (some "postgres://db") "schema" (.refl directory)
    fun _ => .fine
  have hzero := hd.succeeds.mpr ⟨⟨by decide, by decide⟩, fun _ _ => rfl, rfl⟩
  exact ⟨_, _, h, hzero, (statements_resolve emptyPath_atLevel h).1 ⟨_, List.mem_singleton.mpr rfl, hzero⟩⟩

end Deploys

end Postgres

end Jiffy
