-- SUMMARY: The schema of the tables, and the script that applies it: what each file makes of a database, whatever rows it holds.
import Jiffy.Adapters.Postgres
import Jiffy.Lib.Migration
import Mathlib.Data.Set.Function

/-!
# Schema

`schema.sql`, the dated files beside it and `scripts/apply-schema.mjs`, which
applies them all on every deploy. A name is looked up along the `search_path`
of the connection, and what is created goes into the first schema on it.
-/

namespace Jiffy

namespace Postgres

open Migration

-- ---------------------------------------------------------------------------
-- Relations
-- ---------------------------------------------------------------------------

inductive ColumnType where
  | uuid
  | text
  | timestamptz
deriving DecidableEq, Repr

inductive ColumnDefault where
  | genRandomUuid
  | now
deriving DecidableEq, Repr

/-- `REFERENCES table (column) ON DELETE CASCADE`. -/
structure Reference where
  table : String
  column : String
deriving DecidableEq, Repr

structure Column where
  name : String
  type : ColumnType
  notNull : Bool := false
  default : Option ColumnDefault := none
  references : Option Reference := none
deriving DecidableEq, Repr

/-- What a relation is, whatever rows it holds. -/
inductive Definition where
  | table (columns : List Column) (primaryKey : List String)
  | index (table : String) (columns : List String)
deriving DecidableEq, Repr

/-- A relation with its rows: a value or NULL for each column, in order. -/
structure Relation (α : Type) where
  definition : Definition
  rows : List (List (Option α))

/-- The relations of one schema. -/
abbrev Namespace (α : Type) : Type := String → Option (Relation α)

/-- The schemas on the `search_path`, in order. -/
abbrev SearchPath (α : Type) : Type := List (Namespace α)

-- ---------------------------------------------------------------------------
-- Statements of the files
-- ---------------------------------------------------------------------------

inductive Ddl where
  | createTable (name : String) (columns : List Column) (primaryKey : List String)
  | createIndex (name table : String) (columns : List String)
  | addColumn (table name : String) (type : ColumnType)
deriving DecidableEq, Repr

def Definition.hasColumn (column : String) : Definition → Bool
  | .table columns _ => columns.any fun c => c.name = column
  | .index _ _ => false

/-- A column that a foreign key may refer to. -/
def Definition.isKey (column : String) (type : ColumnType) : Definition → Bool
  | .table columns primaryKey =>
    primaryKey = [column] && columns.any fun c => c.name = column && c.type = type
  | .index _ _ => false

section Exec

variable {α : Type}

def resolve (path : SearchPath α) (name : String) : Option (Relation α) :=
  path.findSome? fun space => space name

def missing (name : String) : String := "relation \"" ++ name ++ "\" does not exist"

/-- What `f` makes of the first schema that has the relation. -/
def onRelation (name : String) (f : Namespace α → Relation α → Except String (Namespace α)) :
    SearchPath α → Except String (SearchPath α)
  | [] => .error (missing name)
  | space :: rest => match space name with
    | some relation => (f space relation).map fun changed => changed :: rest
    | none => (onRelation name f rest).map fun changed => space :: changed

/-- Whether a column may be created with the reference it has. -/
def referable (path : SearchPath α) (column : Column) : Bool :=
  match column.references with
  | none => true
  | some reference =>
    (resolve path reference.table).any fun relation => relation.definition.isKey reference.column column.type

/-- A primary key is never NULL. -/
def keyed (primaryKey : List String) (column : Column) : Column :=
  if column.name ∈ primaryKey then { column with notNull := true } else column

/-- `CREATE TABLE IF NOT EXISTS name (..)` -/
def createTable (name : String) (columns : List Column) (primaryKey : List String) :
    SearchPath α → Except String (SearchPath α)
  | [] => .error "no schema has been selected to create in"
  | space :: rest =>
    if (space name).isSome then .ok (space :: rest)
    else if columns.all fun column => referable (space :: rest) column then
      let created := ⟨.table (columns.map (keyed primaryKey)) primaryKey, []⟩
      .ok (Function.update space name (some created) :: rest)
    else .error "foreign key constraint cannot be implemented"

/-- `CREATE INDEX IF NOT EXISTS name ON table (..)` -/
def createIndex (name table : String) (columns : List String) (space : Namespace α) (relation : Relation α) :
    Except String (Namespace α) :=
  if columns.all fun column => relation.definition.hasColumn column then
    if (space name).isSome then .ok space
    else .ok (Function.update space name (some ⟨.index table columns, []⟩))
  else .error "column does not exist"

/-- `ALTER TABLE table ADD COLUMN IF NOT EXISTS name type` -/
def addColumn (table name : String) (type : ColumnType) (space : Namespace α) (relation : Relation α) :
    Except String (Namespace α) :=
  match relation.definition with
  | .index _ _ => .error ("\"" ++ table ++ "\" is not a table")
  | .table columns primaryKey =>
    if columns.any fun column => column.name = name then .ok space
    else
      let definition := .table (columns ++ [{ name, type }]) primaryKey
      let rows := relation.rows.map fun row => row ++ [none]
      .ok (Function.update space table (some { definition, rows }))

def Ddl.exec : Ddl → SearchPath α → Except String (SearchPath α)
  | .createTable name columns primaryKey => Postgres.createTable name columns primaryKey
  | .createIndex name table columns => onRelation table (Postgres.createIndex name table columns)
  | .addColumn table name type => onRelation table (Postgres.addColumn table name type)

/-- The statements of one file: `pool.query` of all of them is one implicit
transaction. -/
def execAll : List Ddl → SearchPath α → Except String (SearchPath α)
  | [], path => .ok path
  | statement :: rest, path => (statement.exec path).bind (execAll rest)

end Exec

-- ---------------------------------------------------------------------------
-- The files
-- ---------------------------------------------------------------------------

/-- The column of a table that belongs to a conversation. -/
def conversationId : Column where
  name := "conversation_id"
  type := .uuid
  notNull := true
  references := some ⟨"conversations", "id"⟩

/-- `schema.sql` -/
def schemaSql : List Ddl :=
  [.createTable "conversations"
    [{ name := "id", type := .uuid, default := some .genRandomUuid },
      { name := "created_at", type := .timestamptz, notNull := true, default := some .now }] ["id"],
    .createTable "conversation_participants"
      [conversationId, { name := "user_id", type := .text, notNull := true },
        { name := "last_read_at", type := .timestamptz }] ["conversation_id", "user_id"],
    .createIndex "conversation_participants_user_id_idx" "conversation_participants" ["user_id"],
    .createTable "messages"
      [{ name := "id", type := .uuid, default := some .genRandomUuid }, conversationId,
        { name := "sender_id", type := .text, notNull := true },
        { name := "body", type := .text, notNull := true },
        { name := "created_at", type := .timestamptz, notNull := true, default := some .now }] ["id"],
    .createIndex "messages_conversation_id_created_at_idx" "messages" ["conversation_id", "created_at"]]

/-- `2026-08-25-deletes.sql` -/
def deletesSql : List Ddl :=
  [.addColumn "messages" "deleted_at" .timestamptz,
    .addColumn "conversation_participants" "cleared_at" .timestamptz]

/-- The names in `src/adapters/postgres`. -/
def directory : List String :=
  ["2026-08-25-deletes.sql", "conversation-store.test.ts", "conversation-store.ts", "index.ts",
    "message-store.test.ts", "message-store.ts", "rows.test.ts", "rows.ts", "schema.sql"]

/-- `readFileSync` of a file of the directory. -/
def readFile : String → List Ddl
  | "schema.sql" => schemaSql
  | "2026-08-25-deletes.sql" => deletesSql
  | _ => []

-- ---------------------------------------------------------------------------
-- The script
-- ---------------------------------------------------------------------------

def isLater (name : String) : Bool := ".sql".toList.isSuffixOf name.toList && name ≠ "schema.sql"

/-- The files in the order they are applied in, whatever order the directory
lists them in. -/
def filesOf (names : List String) : List String :=
  "schema.sql" :: (names.filter isLater).mergeSort fun a b => decide (a ≤ b)

/-- A line on either output. -/
inductive Line where
  | log (text : String)
  | error (text : String)
deriving DecidableEq, Repr

structure Outcome where
  console : List Line
  exitCode : ℕ
deriving DecidableEq, Repr

section Script

variable {α : Type}

def reachable (path : SearchPath α) : List String :=
  ["conversation_participants", "conversations", "messages"].filter fun name => (resolve path name).isSome

/-- The columns that the dated files add. -/
def addedColumns : List (String × String) :=
  [("messages", "deleted_at"), ("conversation_participants", "cleared_at")]

/-- The rows of `information_schema.columns` for them, in every schema on the
path. -/
def columnsFound (path : SearchPath α) : List (String × String) :=
  path.flatMap fun space => addedColumns.filter fun column =>
    (space column.1).any fun relation => relation.definition.hasColumn column.2

/-- Why the client of a query that cannot fail hears of a failure. -/
def lostAnswer : Fate String → Option String
  | .fine => none
  | .lost e | .unacknowledged e => some e

/-- What is looked at once every file has been applied. -/
def verifySchema (tables columns : Fate String) (path : SearchPath α) : Outcome :=
  match lostAnswer tables with
  | some e => ⟨[.error s!"applying the schema failed: {e}"], 1⟩
  | none =>
    let names := reachable path
    let reached := .log ("schema applied, tables reachable: " ++ ", ".intercalate names) ::
      if names.length = 3 then []
      else [.error s!"expected three tables on the connection search_path, found {names.length}"]
    match lostAnswer columns with
    | some e => ⟨reached ++ [.error s!"applying the schema failed: {e}"], 1⟩
    | none =>
      let found := (columnsFound path).length
      if found = 2 then ⟨reached, if names.length = 3 then 0 else 1⟩
      else
        let expected := "expected messages.deleted_at and conversation_participants.cleared_at"
        ⟨reached ++ [.error s!"{expected}, found {found} of 2"], 1⟩

/-- `node scripts/apply-schema.mjs` -/
def applySchema (url : Option String) (schemaDir : String) (names : List String) (fates : ℕ → Fate String)
    (path : SearchPath α) : Outcome × SearchPath α :=
  if url = none ∨ url = some "" then
    (⟨[.error "Missing required environment variable: DATABASE_URL"], 1⟩, path)
  else
    let files := filesOf names
    let progress := upgrade (fun file => execAll (readFile file)) files fates path
    let applied := progress.applied.map fun file => .log s!"applied {file}"
    match progress.failed with
    | some (file, e) =>
      (⟨applied ++ [.error s!"applying {schemaDir}/{file} failed: {e}"], 1⟩, progress.state)
    | none =>
      let verified := verifySchema (fates files.length) (fates (files.length + 1)) progress.state
      (⟨applied ++ verified.console, verified.exitCode⟩, progress.state)

end Script

-- ---------------------------------------------------------------------------
-- Definitions without rows
-- ---------------------------------------------------------------------------

abbrev Definitions : Type := String → Option Definition

def defineTable (name : String) (columns : List Column) (primaryKey : List String) (defs : Definitions) :
    Option Definitions :=
  if (defs name).isSome then some defs
  else if columns.all fun column => column.references.all fun reference =>
      (defs reference.table).any fun d => d.isKey reference.column column.type then
    some (Function.update defs name (some (.table (columns.map (keyed primaryKey)) primaryKey)))
  else none

def defineIndex (name table : String) (columns : List String) (defs : Definitions) : Option Definitions :=
  (defs table).bind fun d =>
    if columns.all fun column => d.hasColumn column then
      if (defs name).isSome then some defs
      else some (Function.update defs name (some (.index table columns)))
    else none

def defineColumn (table name : String) (type : ColumnType) (defs : Definitions) : Option Definitions :=
  (defs table).bind fun
    | .index _ _ => none
    | .table columns primaryKey =>
      if columns.any fun column => column.name = name then some defs
      else some (Function.update defs table (some (.table (columns ++ [{ name, type }]) primaryKey)))

/-- What a statement makes of the definitions in the schema it works in. -/
def Ddl.define : Ddl → Definitions → Option Definitions
  | .createTable name columns primaryKey => defineTable name columns primaryKey
  | .createIndex name table columns => defineIndex name table columns
  | .addColumn table name type => defineColumn table name type

def defineAll (file : List Ddl) (defs : Definitions) : Option Definitions :=
  file.foldlM (fun defs statement => statement.define defs) defs

/-- The names a statement looks at. -/
def Ddl.names : Ddl → List String
  | .createTable name columns _ =>
    name :: columns.filterMap fun column => column.references.map fun reference => reference.table
  | .createIndex name table _ => [name, table]
  | .addColumn table _ _ => [table]

def files : List String := ["schema.sql", "2026-08-25-deletes.sql"]

/-- The relations of the service. -/
def serviceNames : List String :=
  ["conversations", "conversation_participants", "conversation_participants_user_id_idx", "messages",
    "messages_conversation_id_created_at_idx"]

/-- What the first `n` files make of an empty schema. -/
def shape : ℕ → Definitions
  | 0 => fun _ => none
  | n + 1 => ((files[n]?).bind fun file => defineAll (readFile file) (shape n)).getD (shape n)

section Levels

variable {α : Type} {space : Namespace α} {rest : SearchPath α} {defs defs' : Definitions}

/-- In this schema the relations of the service are defined so. -/
def LooksLike (space : Namespace α) (defs : Definitions) : Prop :=
  ∀ name ∈ serviceNames, (space name).map Relation.definition = defs name

theorem LooksLike.isSome (h : LooksLike space defs) {name : String} (hname : name ∈ serviceNames) :
    (space name).isSome = (defs name).isSome := by
  rw [← h name hname, Option.isSome_map]

theorem LooksLike.exists (h : LooksLike space defs) {name : String} (hname : name ∈ serviceNames)
    {d : Definition} (hd : defs name = some d) : ∃ rows, space name = some ⟨d, rows⟩ := by
  obtain ⟨⟨_, rows⟩, hspace, rfl⟩ := Option.map_eq_some_iff.mp ((h name hname).trans hd)
  exact ⟨rows, hspace⟩

theorem LooksLike.update (h : LooksLike space defs) (name : String) (relation : Relation α) :
    LooksLike (Function.update space name (some relation))
      (Function.update defs name (some relation.definition)) := by
  intro other hother
  rcases eq_or_ne other name with rfl | hne
  · rw [Function.update_self, Function.update_self]
    rfl
  · rw [Function.update_of_ne hne, Function.update_of_ne hne]
    exact h other hother

theorem onRelation_head {name : String} {relation : Relation α} (h : space name = some relation)
    (f : Namespace α → Relation α → Except String (Namespace α)) :
    onRelation name f (space :: rest) = (f space relation).map fun changed => changed :: rest := by
  unfold onRelation
  rw [h]

/-- The first schema is what its definitions were made, and the same if these are. -/
def Matches (space : Namespace α) (rest : SearchPath α) (defs defs' : Definitions)
    (result : Except String (SearchPath α)) : Prop :=
  ∃ space', result = .ok (space' :: rest) ∧ LooksLike space' defs' ∧ (defs' = defs → space' = space)

theorem Matches.same (h : LooksLike space defs) : Matches space rest defs defs (.ok (space :: rest)) :=
  ⟨space, rfl, h, fun _ => rfl⟩

theorem Matches.update (h : LooksLike space defs) {name : String} {relation : Relation α}
    (hne : defs name ≠ some relation.definition) :
    Matches space rest defs (Function.update defs name (some relation.definition))
      (.ok (Function.update space name (some relation) :: rest)) := by
  refine ⟨_, rfl, h.update name relation, fun heq => absurd (congrFun heq name) ?_⟩
  rw [Function.update_self]
  exact hne.symm

theorem resolve_head {name : String} {relation : Relation α} (h : space name = some relation) :
    resolve (space :: rest) name = some relation := by
  unfold resolve
  rw [List.findSome?_cons, h]

theorem createTable_of_define (h : LooksLike space defs) {name : String} {columns : List Column}
    {primaryKey : List String} (hname : name ∈ serviceNames)
    (hrefs : ∀ column ∈ columns, ∀ reference ∈ column.references, reference.table ∈ serviceNames)
    (hdefine : defineTable name columns primaryKey defs = some defs') :
    Matches space rest defs defs' (createTable name columns primaryKey (space :: rest)) := by
  have hsome := h.isSome hname
  unfold defineTable at hdefine
  rw [createTable]
  split at hdefine
  · next hold =>
    cases hdefine
    rw [if_pos (hsome.trans hold)]
    exact .same h
  · next hnew =>
    split at hdefine
    · next hkeys =>
      cases hdefine
      have hrefer : (columns.all fun column => referable (space :: rest) column) = true := by
        rw [List.all_eq_true] at hkeys ⊢
        intro column hcolumn
        have hkey := hkeys column hcolumn
        unfold referable
        split
        · rfl
        · next reference href =>
          rw [href] at hkey
          obtain ⟨d, hd, hiskey⟩ := (Option.any_eq_true _ _).mp hkey
          obtain ⟨rows, hrelation⟩ := h.exists (hrefs column hcolumn reference href) hd
          rw [resolve_head hrelation]
          exact hiskey
      rw [if_neg (hsome ▸ hnew), if_pos hrefer]
      refine .update h fun hold => hnew ?_
      rw [hold]
      rfl
    · cases hdefine

theorem createIndex_of_define (h : LooksLike space defs) {name table : String} {columns : List String}
    (hname : name ∈ serviceNames) (htable : table ∈ serviceNames)
    (hdefine : defineIndex name table columns defs = some defs') :
    Matches space rest defs defs' (onRelation table (createIndex name table columns) (space :: rest)) := by
  have hsome := h.isSome hname
  obtain ⟨d, hd, hdefine⟩ := Option.bind_eq_some_iff.mp hdefine
  obtain ⟨rows, hrelation⟩ := h.exists htable hd
  rw [onRelation_head hrelation]
  unfold createIndex
  split at hdefine
  · next hcolumns =>
    rw [if_pos hcolumns]
    split at hdefine
    · next hold =>
      cases hdefine
      rw [if_pos (hsome.trans hold)]
      exact .same h
    · next hnew =>
      cases hdefine
      rw [if_neg (hsome ▸ hnew)]
      refine .update h fun hold => hnew ?_
      rw [hold]
      rfl
  · cases hdefine

theorem addColumn_of_define (h : LooksLike space defs) {table name : String} {type : ColumnType}
    (htable : table ∈ serviceNames) (hdefine : defineColumn table name type defs = some defs') :
    Matches space rest defs defs' (onRelation table (addColumn table name type) (space :: rest)) := by
  obtain ⟨d, hd, hdefine⟩ := Option.bind_eq_some_iff.mp hdefine
  obtain ⟨rows, hrelation⟩ := h.exists htable hd
  rw [onRelation_head hrelation]
  cases d with
  | index _ _ => cases hdefine
  | table columns primaryKey =>
    unfold addColumn
    simp only at hdefine ⊢
    split at hdefine
    · next hold =>
      cases hdefine
      rw [if_pos hold]
      exact .same h
    · next hnew =>
      cases hdefine
      rw [if_neg hnew]
      refine .update h fun hsame => ?_
      have hlength := congrArg List.length (Definition.table.inj (Option.some.inj (hd.symm.trans hsame))).1
      simp at hlength

/-- Statements do to the first schema what they do to its definitions. -/
theorem exec_of_define (h : LooksLike space defs) {statement : Ddl} (hnames : statement.names ⊆ serviceNames)
    (hdefine : statement.define defs = some defs') :
    Matches space rest defs defs' (statement.exec (space :: rest)) := by
  cases statement with
  | createTable name columns primaryKey =>
    refine createTable_of_define h (hnames List.mem_cons_self) (fun column hcolumn reference href => ?_) hdefine
    refine hnames (List.mem_cons_of_mem _ (List.mem_filterMap.mpr ⟨column, hcolumn, ?_⟩))
    exact Option.map_eq_some_iff.mpr ⟨reference, href, rfl⟩
  | createIndex name table columns =>
    exact createIndex_of_define h (hnames List.mem_cons_self)
      (hnames (List.mem_cons_of_mem _ List.mem_cons_self)) hdefine
  | addColumn table name type => exact addColumn_of_define h (hnames List.mem_cons_self) hdefine

theorem execAll_of_defineAll {file : List Ddl} (h : LooksLike space defs)
    (hnames : ∀ statement ∈ file, statement.names ⊆ serviceNames) (hdefine : defineAll file defs = some defs') :
    ∃ space', execAll file (space :: rest) = .ok (space' :: rest) ∧ LooksLike space' defs' := by
  induction file generalizing space defs with
  | nil =>
    cases hdefine
    exact ⟨space, rfl, h⟩
  | cons statement file ih =>
    obtain ⟨next, hfirst, hfile⟩ := Option.bind_eq_some_iff.mp hdefine
    obtain ⟨hstatement, hnames⟩ := List.forall_mem_cons.mp hnames
    obtain ⟨changed, hexec, hlooks, -⟩ := @exec_of_define _ _ rest _ _ h _ hstatement hfirst
    obtain ⟨last, hrest, hlast⟩ := ih hlooks hnames hfile
    refine ⟨last, ?_, hlast⟩
    rw [execAll, hexec]
    exact hrest

/-- A file whose statements find everything in place does nothing. -/
theorem execAll_again {file : List Ddl} (h : LooksLike space defs)
    (hnames : ∀ statement ∈ file, statement.names ⊆ serviceNames)
    (hdone : ∀ statement ∈ file, statement.define defs = some defs) :
    execAll file (space :: rest) = .ok (space :: rest) := by
  induction file with
  | nil => rfl
  | cons statement file ih =>
    obtain ⟨hstatement, hnames⟩ := List.forall_mem_cons.mp hnames
    obtain ⟨hfirst, hfile⟩ := List.forall_mem_cons.mp hdone
    obtain ⟨changed, hexec, -, hsame⟩ := @exec_of_define _ _ rest _ _ h _ hstatement hfirst
    rw [execAll, hexec, hsame rfl]
    exact ih hnames hfile

/-- The schema in which the connection creates is as `n` files leave it. -/
structure AtLevel (rest : SearchPath α) (n : ℕ) (path : SearchPath α) : Prop where
  bounded : n ≤ files.length
  looks : ∃ space, path = space :: rest ∧ LooksLike space (shape n)

theorem names_sub : ∀ statement ∈ schemaSql ++ deletesSql, statement.names ⊆ serviceNames := by decide

theorem schemaSql_done {n : ℕ} (hn : n = 1 ∨ n = 2) :
    ∀ statement ∈ schemaSql, statement.define (shape n) = some (shape n) := by
  simp only [schemaSql, List.forall_mem_cons]
  rcases hn with rfl | rfl
  · exact ⟨rfl, rfl, rfl, rfl, rfl, fun _ h => absurd h List.not_mem_nil⟩
  · exact ⟨rfl, rfl, rfl, rfl, rfl, fun _ h => absurd h List.not_mem_nil⟩

theorem deletesSql_done : ∀ statement ∈ deletesSql, statement.define (shape 2) = some (shape 2) := by
  simp only [deletesSql, List.forall_mem_cons]
  exact ⟨rfl, rfl, fun _ h => absurd h List.not_mem_nil⟩

/-- The two files, one after the other, whatever rows the tables hold. -/
theorem ladder (rest : SearchPath α) : Ladder (fun file => execAll (readFile file)) files (AtLevel rest) where
  again := by
    rintro n s file i ⟨hn, space, rfl, hlooks⟩ hfile hi
    have hn : n ≤ 2 := hn
    rcases i with _ | _ | i
    · cases hfile
      have hlevel : n = 1 ∨ n = 2 := by omega
      exact execAll_again hlooks (fun d hd => names_sub d (List.mem_append_left _ hd)) (schemaSql_done hlevel)
    · cases hfile
      obtain rfl : n = 2 := by omega
      exact execAll_again hlooks (fun d hd => names_sub d (List.mem_append_right _ hd)) deletesSql_done
    · cases hfile
  next := by
    rintro n s file ⟨hn, space, rfl, hlooks⟩ hfile
    rcases n with _ | _ | n
    · cases hfile
      have hdefine : defineAll schemaSql (shape 0) = some (shape 1) := rfl
      obtain ⟨space', hexec, hlooks'⟩ := @execAll_of_defineAll _ _ rest _ _ _ hlooks
        (fun d hd => names_sub d (List.mem_append_left _ hd)) hdefine
      exact ⟨_, hexec, by decide, space', rfl, hlooks'⟩
    · cases hfile
      have hdefine : defineAll deletesSql (shape 1) = some (shape 2) := rfl
      obtain ⟨space', hexec, hlooks'⟩ := @execAll_of_defineAll _ _ rest _ _ _ hlooks
        (fun d hd => names_sub d (List.mem_append_right _ hd)) hdefine
      exact ⟨_, hexec, by decide, space', rfl, hlooks'⟩
    · cases hfile

-- ---------------------------------------------------------------------------
-- Rows
-- ---------------------------------------------------------------------------

/-- A relation is still there with every row, NULL in the columns that are new. -/
inductive Kept : Relation α → Relation α → Prop where
  | same (relation : Relation α) : Kept relation relation
  | widened (columns added : List Column) (primaryKey : List String) (rows : List (List (Option α))) :
    Kept ⟨.table columns primaryKey, rows⟩
      ⟨.table (columns ++ added) primaryKey, rows.map fun row => row ++ List.replicate added.length none⟩

theorem Kept.trans {r s t : Relation α} (hrs : Kept r s) (hst : Kept s t) : Kept r t := by
  cases hrs with
  | same => exact hst
  | widened columns added primaryKey rows =>
    cases hst with
    | same => exact .widened columns added primaryKey rows
    | widened _ more =>
      have hboth := Kept.widened columns (added ++ more) primaryKey rows
      simpa only [List.append_assoc, List.map_map, Function.comp_def, List.length_append,
        List.replicate_append_replicate] using hboth

/-- Every relation of a schema is kept. -/
def KeepsSpace (space changed : Namespace α) : Prop :=
  ∀ name relation, space name = some relation → ∃ kept, changed name = some kept ∧ Kept relation kept

/-- So is every relation on the path. -/
abbrev KeepsRows : SearchPath α → SearchPath α → Prop := List.Forall₂ KeepsSpace

theorem KeepsSpace.refl (space : Namespace α) : KeepsSpace space space :=
  fun _ relation h => ⟨relation, h, .same relation⟩

theorem KeepsSpace.trans {r s t : Namespace α} (hrs : KeepsSpace r s) (hst : KeepsSpace s t) :
    KeepsSpace r t := by
  intro name relation h
  obtain ⟨kept, hkept, hfirst⟩ := hrs name relation h
  obtain ⟨last, hlast, hsecond⟩ := hst name kept hkept
  exact ⟨last, hlast, hfirst.trans hsecond⟩

theorem KeepsSpace.update {space : Namespace α} {name : String} {changed : Relation α}
    (h : ∀ relation, space name = some relation → Kept relation changed) :
    KeepsSpace space (Function.update space name (some changed)) := by
  intro other relation hrelation
  rcases eq_or_ne other name with rfl | hne
  · rw [Function.update_self]
    exact ⟨changed, rfl, h relation hrelation⟩
  · rw [Function.update_of_ne hne]
    exact ⟨relation, hrelation, .same relation⟩

/-- A new name takes nothing away. -/
theorem KeepsSpace.create {space : Namespace α} {name : String} (h : ¬ (space name).isSome = true)
    (created : Relation α) : KeepsSpace space (Function.update space name (some created)) := by
  refine .update fun relation hrelation => absurd ?_ h
  rw [hrelation]
  rfl

theorem KeepsRows.refl (path : SearchPath α) : KeepsRows path path :=
  List.forall₂_same.mpr fun space _ => .refl space

theorem KeepsRows.trans {r s t : SearchPath α} (hrs : KeepsRows r s) (hst : KeepsRows s t) : KeepsRows r t := by
  induction hrs generalizing t with
  | nil => exact hst
  | cons hspace _ ih =>
    cases hst with
    | cons hnext hrest => exact .cons (hspace.trans hnext) (ih hrest)

theorem onRelation_keeps {name : String} {f : Namespace α → Relation α → Except String (Namespace α)}
    (hf : ∀ space relation changed, space name = some relation → f space relation = .ok changed →
      KeepsSpace space changed) {path path' : SearchPath α} (h : onRelation name f path = .ok path') :
    KeepsRows path path' := by
  induction path generalizing path' with
  | nil => cases h
  | cons space rest ih =>
    unfold onRelation at h
    split at h
    · next relation hrelation =>
      cases hchanged : f space relation with
      | error e =>
        rw [hchanged] at h
        cases h
      | ok changed =>
        rw [hchanged] at h
        cases h
        exact .cons (hf space relation changed hrelation hchanged) (KeepsRows.refl rest)
    · cases hrest : onRelation name f rest with
      | error e =>
        rw [hrest] at h
        cases h
      | ok changed =>
        rw [hrest] at h
        cases h
        exact .cons (.refl space) (ih hrest)

/-- No statement of the files removes a relation, a column or a row, or
touches a value. -/
theorem exec_keeps {statement : Ddl} {path path' : SearchPath α} (h : statement.exec path = .ok path') :
    KeepsRows path path' := by
  cases statement with
  | createTable name columns primaryKey =>
    cases path with
    | nil => cases h
    | cons space rest =>
      replace h : createTable name columns primaryKey (space :: rest) = .ok path' := h
      rw [createTable] at h
      split at h
      · cases h
        exact .refl _
      · next hnew =>
        split at h
        · cases h
          exact .cons (.create hnew _) (KeepsRows.refl rest)
        · cases h
  | createIndex name table columns =>
    refine onRelation_keeps (fun space relation changed _ hchanged => ?_) h
    unfold createIndex at hchanged
    split at hchanged
    · split at hchanged
      · cases hchanged
        exact .refl space
      · next hnew =>
        cases hchanged
        exact .create hnew _
    · cases hchanged
  | addColumn table name type =>
    refine onRelation_keeps (fun space relation changed hrelation hchanged => ?_) h
    obtain ⟨definition, rows⟩ := relation
    cases definition with
    | index _ _ => cases hchanged
    | table columns primaryKey =>
      unfold addColumn at hchanged
      simp only at hchanged
      split at hchanged
      · cases hchanged
        exact .refl space
      · cases hchanged
        refine .update fun relation hold => ?_
        cases hrelation.symm.trans hold
        exact .widened columns [{ name, type }] primaryKey rows

theorem execAll_keeps {file : List Ddl} {path path' : SearchPath α} (h : execAll file path = .ok path') :
    KeepsRows path path' := by
  induction file generalizing path with
  | nil =>
    cases h
    exact .refl _
  | cons statement file ih =>
    rw [execAll] at h
    cases hfirst : statement.exec path with
    | error e =>
      rw [hfirst] at h
      cases h
    | ok next =>
      rw [hfirst] at h
      exact (exec_keeps hfirst).trans (ih h)

end Levels

end Postgres

end Jiffy
