import CodeScope.Library.Connection
import CodeScope.Library.Script
import CodeScope.Library.Text
import CodeScope.Merge.TableSpecs

/-! # The merge as a script

`merge_module_dbs` writes one script for all module databases from the schema of the first one and
has the SQLite shell run it on a fresh main database; the shell goes on after a failing statement
and exits with zero exactly when none failed. A second script makes the result one project.

A statement fails when it is made to, or when a table, a column or a database it names is not
there. Failures that depend on stored values or on the file are of the first kind. -/

namespace CodeScope.Merge

open Text Connection

/-! ## Databases -/

/-- A column name that the merge can paste into a statement as it is. -/
def Plain (name : Str) : Prop := name ≠ [] ∧ ∀ c ∈ [' ', ',', '|', '\n'], c ∉ name

instance (name : Str) : Decidable (Plain name) :=
  decidable_of_iff (name ≠ [] ∧ [' ', ',', '|', '\n'].all (· ∉ name) = true) (by
    rw [Plain, List.all_eq_true]
    simp only [decide_eq_true_eq])

/-- A table of a database: its columns, which rows a uniqueness constraint keeps apart, and the
    rows. -/
structure Sheet (ν : Type) where
  columns : List Str
  plain : ∀ c ∈ columns, Plain c
  clashes : List ν → List ν → Bool
  rows : List (List ν)

/-- The tables that a database has. -/
abbrev Tables (ν : Type) := Table → Option (Sheet ν)

/-- What SQLite does with values: an id as a number, the addition of an offset, the rowid it
    assigns, and what `UPDATE … SET project_id = 1 WHERE project_id <> 1` leaves. -/
structure Values (ν : Type) where
  asId : ν → ℕ
  shift : ν → ℕ → ν
  fresh : List (List ν) → ν
  unified : ν → ν

/-- A row of `projects`. -/
structure ProjectRow where
  id : ℕ
  rootPath : Str
  name : Str
deriving DecidableEq

structure MainDb (ν : Type) where
  tables : Tables ν
  projects : Option (List ProjectRow)

/-- No row at all. -/
def MainDb.Blank {ν : Type} (db : MainDb ν) : Prop :=
  (∀ t sheet, db.tables t = some sheet → sheet.rows = []) ∧ db.projects.getD [] = []

def freshMain (ν : Type) : MainDb ν := ⟨fun _ => none, none⟩

/-- The name of a column of `tableSpecs`. -/
def Column.name : Column → Str
  | .id => str "id"
  | .projectId => str "project_id"
  | .sourceId => str "source_id"
  | .targetId => str "target_id"
  | .entityId => str "entity_id"
  | .parentId => str "parent_id"
  | .sourceScopeId => str "source_scope_id"
  | .callerId => str "caller_id"
  | .scopeId => str "scope_id"
  | .srcId => str "src_id"
  | .tgtId => str "tgt_id"

def offsetTables : List Table :=
  [.entity, .relation, .typeInfo, .typeRef, .scope, .import, .reference, .files, .document]

/-! ## Statements -/

inductive Pragma where
  | busyTimeout
  | journalMode
  | synchronous
  | foreignKeys
deriving DecidableEq, Repr

/-- The statements of the merge script; `i` numbers the module databases. -/
inductive Stmt where
  | pragma (p : Pragma)
  | begin (i : ℕ)
  | createTable (t : Table)
  | attach (i : ℕ)
  | createOffsets (i : ℕ)
  | insertAll (i : ℕ) (t : Table)
  | insertColumns (i : ℕ) (t : Table) (cols : List Str)
  | insertRemapped (i : ℕ) (t : Table) (cols : List Str)
  | dropOffsets (i : ℕ)
  | commit (i : ℕ)
  | detach (i : ℕ)
  | count (tables : List Table)
deriving DecidableEq, Repr

/-- The shell's connection, the attached modules, and the temporary table `_offsets`. -/
structure Session (ν : Type) where
  conn : Conn (MainDb ν)
  attached : List ℕ
  offsets : Option (Table → ℕ)

def startSession (ν : Type) : Session ν := ⟨Conn.idle (freshMain ν), [], none⟩

section Exec

variable {ν : Type} (val : Values ν)

/-- The value of a row in the column of that name. -/
def cell (columns : List Str) (row : List ν) (c : Str) : Option ν := (columns.zip row).lookup c

/-- `INSERT OR IGNORE` of one row. -/
def insertOrIgnore (clashes : List ν → List ν → Bool) (rows : List (List ν)) (row : List ν) :
    List (List ν) :=
  if rows.any (clashes row) then rows else rows ++ [row]

/-- `INSERT OR IGNORE … SELECT`: `pairs` says which source column goes to which column of the table,
    `move` what is done to its value; a column that gets nothing gets a rowid. -/
def insertSelect (pairs : List (Str × Str)) (move : Str → ν → ν) (source target : Sheet ν) :
    Sheet ν :=
  { target with
    rows := source.rows.foldl (fun rows row =>
      insertOrIgnore target.clashes rows (target.columns.map fun c =>
        match pairs.find? (·.2 = c) with
        | some (from_, _) => ((cell source.columns row from_).map (move from_)).getD (val.fresh rows)
        | none => val.fresh rows)) target.rows }

def Session.view (s : Session ν) : MainDb ν := s.conn.view

/-- A table of the main database is replaced. -/
def Session.putTable (s : Session ν) (t : Table) (sheet : Sheet ν) : Session ν :=
  { s with conn := s.conn.write fun db =>
      { db with tables := Function.update db.tables t (some sheet) } }

/-- `MAX(id)` of a table of the main database. -/
def maxIdOf (sheet : Sheet ν) : ℕ :=
  (sheet.rows.map fun row => ((cell sheet.columns row Column.id.name).map val.asId).getD 0).foldr
    max 0

/-- The table whose offset is added to a column. -/
def offsetSource (t : Table) (c : Str) : Option Table :=
  ((tableSpecs.filter (·.name = t)).flatMap (·.remapCols)).find? (·.1.name = c) |>.map
    fun p => p.2.getD t

variable (ms : List (Tables ν))

/-- The source and the target of an INSERT, when both are there. -/
def endpoints (s : Session ν) (i : ℕ) (t : Table) : Option (Sheet ν × Sheet ν) := do
  guard (i ∈ s.attached)
  let m ← ms[i]?
  let source ← m t
  let target ← s.view.tables t
  return (source, target)

/-- One statement; nothing when it fails. -/
def exec : Stmt → Session ν → Option (Session ν)
  | .pragma _, s => some s
  | .begin _, s => if s.conn.txn.isSome then none else some { s with conn := (s.conn.begin false).2 }
  | .createTable t, s => do
      let m ← ms.head?
      let sheet ← m t
      guard (s.view.tables t).isNone
      return s.putTable t { sheet with rows := [] }
  | .attach i, s =>
      if i < ms.length ∧ i ∉ s.attached then some { s with attached := i :: s.attached } else none
  | .createOffsets _, s =>
      if s.offsets.isNone ∧ ∀ t ∈ offsetTables,
          (s.view.tables t).any fun sheet => Column.id.name ∈ sheet.columns then
        some { s with offsets := some fun t => ((s.view.tables t).map (maxIdOf val)).getD 0 }
      else none
  | .insertAll i t, s => do
      let (source, target) ← endpoints ms s i t
      guard (source.columns.length = target.columns.length)
      return s.putTable t
        (insertSelect val (source.columns.zip target.columns) (fun _ v => v) source target)
  | .insertColumns i t cols, s => do
      let (source, target) ← endpoints ms s i t
      guard (∀ c ∈ cols, c ∈ source.columns ∧ c ∈ target.columns)
      return s.putTable t (insertSelect val (cols.zip cols) (fun _ v => v) source target)
  | .insertRemapped i t cols, s => do
      let (source, target) ← endpoints ms s i t
      guard (cols.length = target.columns.length ∧ (∀ c ∈ cols, c ∈ source.columns) ∧
        ((∃ c ∈ cols, (offsetSource t c).isSome) → s.offsets.isSome))
      let off (c : Str) : ℕ := ((offsetSource t c).bind fun src => s.offsets.map (· src)).getD 0
      return s.putTable t
        (insertSelect val (cols.zip target.columns) (fun c v =>
          if (offsetSource t c).isSome then val.shift v (off c) else v) source target)
  | .dropOffsets _, s => if s.offsets.isSome then some { s with offsets := none } else none
  | .commit _, s => if s.conn.txn.isSome then some { s with conn := (s.conn.commit false).2 } else none
  | .detach i, s =>
      if i ∈ s.attached ∧ s.conn.txn.isNone then some { s with attached := s.attached.erase i }
      else none
  | .count tables, s => if ∀ t ∈ tables, (s.view.tables t).isSome then some s else none

end Exec

/-! ## Building the script -/

section Build

variable {ν : Type}

/-- The specs of the tables that the first module has. -/
def existing (m0 : Tables ν) : List TableSpec := tableSpecs.filter fun spec => (m0 spec.name).isSome

/-- The columns but `rowid`, as `fetch_all_columns_excluding_rowid` lists them. -/
def dataColumns (sheet : Sheet ν) : List Str := sheet.columns.filter (· ≠ str "rowid")

/-- The entry of `all_cols`; a table without other columns has none. -/
def allCols (m0 : Tables ν) (t : Table) : Option (List Str) := do
  let sheet ← m0 t
  guard (dataColumns sheet ≠ [])
  return dataColumns sheet

/-- `build_insert_sql`; it panics without a column list for a table whose rowid is skipped. -/
def buildInsertSql (m0 : Tables ν) (i : ℕ) (spec : TableSpec) : Option Stmt :=
  if spec.skipRowid then (allCols m0 spec.name).map (.insertColumns i spec.name)
  else some (.insertAll i spec.name)

/-- The INSERT of one table from module `i`. -/
def copyStatement (m0 : Tables ν) (i : ℕ) (spec : TableSpec) : Option Stmt :=
  if i = 0 ∨ spec.remapCols = [] then buildInsertSql m0 i spec
  else (allCols m0 spec.name).map (.insertRemapped i spec.name)

/-- The transaction of one module. -/
def moduleScript (m0 : Tables ν) (i : ℕ) : Option (List Stmt) := do
  let copies ← (existing m0).mapM (copyStatement m0 i)
  let schema := if i = 0 then (existing m0).map fun spec => .createTable spec.name else []
  let body := if i = 0 then copies else .createOffsets i :: copies ++ [.dropOffsets i]
  return .begin i :: schema ++ .attach i :: body ++ [.commit i, .detach i]

def pragmas : List Stmt :=
  [.pragma .busyTimeout, .pragma .journalMode, .pragma .synchronous, .pragma .foreignKeys]

/-- The whole script for `n` modules. -/
def mergeScript (m0 : Tables ν) (n : ℕ) : Option (List Stmt) := do
  let blocks ← (List.range n).mapM (moduleScript m0)
  return pragmas ++ blocks.flatten ++ [.count ((existing m0).map TableSpec.name)]

/-! ## The check before the script -/

/-- `cols.join(", ")` -/
def joinExpected (cols : List Str) : Str := [',', ' '].intercalate cols

/-- `group_concat(name, ',')` -/
def groupConcat (cols : List Str) : Str := [','].intercalate cols

/-- The closure `normalise`. -/
def normalise (s : Str) : Str := s.filter (· ≠ ' ')

/-- A module's table has the columns of the first module's. -/
def sameColumns (m : Tables ν) (t : Table) (expected : List Str) : Bool :=
  normalise (groupConcat (((m t).map dataColumns).getD [])) = normalise (joinExpected expected)

/-- `check_module_schema_consistency`, when its queries work. -/
def checkModuleSchemaConsistency (m0 : Tables ν) (others : List (Tables ν)) : Bool :=
  others.all fun m => (existing m0).all fun spec =>
    (allCols m0 spec.name).all (sameColumns m spec.name)

end Build

/-! ## One project -/

inductive UnifyStmt where
  | begin
  | createProjects
  | deleteProjects
  | insertProject
  | update (t : Table)
  | commit
deriving DecidableEq, Repr

section Unify

variable {ν : Type} (val : Values ν) (projectPath : Str)

/-- `trim_end_matches('/').rsplit('/').next()` -/
def projectName : Str := afterLast '/' (projectPath.reverse.dropWhile (· = '/')).reverse

/-- The project of every row becomes 1. -/
def unifySheet (sheet : Sheet ν) : Sheet ν :=
  { sheet with rows := sheet.rows.map fun row =>
      (sheet.columns.zip row).map fun cv =>
        if cv.1 = Column.projectId.name then val.unified cv.2 else cv.2 }

def unifyExec : UnifyStmt → Conn (MainDb ν) → Option (Conn (MainDb ν))
  | .begin, c => if c.txn.isSome then none else some (c.begin false).2
  | .createProjects, c =>
      some (c.write fun db => { db with projects := some (db.projects.getD []) })
  | .deleteProjects, c => do
      guard c.view.projects.isSome
      return c.write fun db => { db with projects := some [] }
  | .insertProject, c => do
      let projects ← c.view.projects
      return c.write fun db =>
        { db with projects := some (projects ++ [⟨1, projectPath, projectName projectPath⟩]) }
  | .update t, c => do
      let sheet ← c.view.tables t
      guard (Column.projectId.name ∈ sheet.columns)
      return c.write fun db =>
        { db with tables := Function.update db.tables t (some (unifySheet val sheet)) }
  | .commit, c => if c.txn.isSome then some (c.commit false).2 else none

/-- The tables in the order of their names. -/
def tablesByName : List Table :=
  [.adjacency, .adjacencyRev, .document, .entity, .fileScanState, .files, .import, .parseFailures,
    .reference, .relation, .scope, .semanticRecords, .typeInfo, .typeRef]

/-- The tables of the main database with a project. -/
def projectTables (db : MainDb ν) : List Table :=
  tablesByName.filter fun t =>
    (db.tables t).any fun sheet => Column.projectId.name ∈ sheet.columns

def unifyScript (tables : List Table) : List UnifyStmt :=
  .begin :: .createProjects :: .deleteProjects :: .insertProject :: tables.map .update ++ [.commit]

/-- `unify_project`; whether the shell stops at a failure is left open. -/
def unifyProject (stops : Bool) (fails : UnifyStmt → Bool) (listFails : Bool) (db : MainDb ν) :
    Bool × MainDb ν :=
  if listFails then (false, db)
  else
    let tables := projectTables db
    if tables = [] then (false, db)
    else
      let script := unifyScript tables
      let (done, c) := Script.run (unifyExec val projectPath) fails stops script (Conn.idle db)
      (decide (done = script), c.durable)

end Unify

/-! ## The merge -/

/-- Processes of the merge besides the two scripts. -/
inductive Process where
  | checkpoint (i : ℕ)
  | readSchema
  | fetchColumns
  | checkSchema
  | spawn
  | listTables
deriving DecidableEq, Repr

inductive MergeError where
  | noModules
  | checkpoint
  | readSchema
  | fetchColumns
  | schemaCheck
  | spawn
  | sqliteExit
  | unify
deriving DecidableEq, Repr

structure MergeResult where
  merged : Bool
  tablesMerged : ℕ
  error : Option MergeError
deriving DecidableEq, Repr

/-- What goes wrong during a merge. -/
structure MergeFaults where
  process : Process → Bool
  script : Stmt → Bool
  unify : UnifyStmt → Bool
  unifyStops : Bool

section Merge

variable {ν : Type} (val : Values ν) (projectPath : Str) (faults : MergeFaults)

def failed (e : MergeError) : MergeResult := ⟨false, 0, some e⟩

/-- The error that keeps the script from being written. -/
def preflight (m0 : Tables ν) (others : List (Tables ν)) : Option MergeError :=
  if (List.range (others.length + 1)).any fun i => faults.process (.checkpoint i) then
    some .checkpoint
  else if faults.process .readSchema then some .readSchema
  else if faults.process .fetchColumns then some .fetchColumns
  else if others ≠ [] ∧ (existing m0).any (fun spec => (allCols m0 spec.name).isSome) ∧
      (faults.process .checkSchema ∨ ¬ checkModuleSchemaConsistency m0 others) then
    some .schemaCheck
  else none

/-- `merge_module_dbs` on a fresh main database: its result and the main database; nothing when
    building the script panics. -/
def mergeModules (ms : List (Tables ν)) : Option (MergeResult × MainDb ν) :=
  match ms with
  | [] => some (failed .noModules, freshMain ν)
  | m0 :: others =>
      match preflight faults m0 others with
      | some e => some (failed e, freshMain ν)
      | none => do
          let script ← mergeScript m0 ms.length
          if faults.process .spawn then
            return (failed .spawn, freshMain ν)
          else
            let (done, s) := Script.run (exec val ms) faults.script false script (startSession ν)
            if done ≠ script then
              return (failed .sqliteExit, s.conn.durable)
            else
              let tables := (existing m0).length
              match unifyProject val projectPath faults.unifyStops faults.unify
                  (faults.process .listTables) s.conn.durable with
              | (false, db) => return (⟨false, tables, some .unify⟩, db)
              | (true, db) => return (⟨true, tables, none⟩, db)

end Merge

end CodeScope.Merge
