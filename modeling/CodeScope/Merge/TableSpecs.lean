import Mathlib.Logic.Function.Basic
import CodeScope.Library.KeyedTable

/-! # The tables of the merge

The tables a worker database is merged from, with the columns the merge rewrites (`tableSpecs`) and
the constraints the schema declares on them. A row keeps its INTEGER columns by name, its path
(`path` or `file_path`, the text column that keys mention) and everything else as a payload that
the merge copies unread. The rowid of `semantic_records` is assigned on insertion and is not a
column here. -/

namespace CodeScope.Merge

inductive Table where
  | entity
  | relation
  | typeInfo
  | typeRef
  | scope
  | «import»
  | reference
  | files
  | fileScanState
  | adjacency
  | adjacencyRev
  | semanticRecords
  | document
  | parseFailures
deriving DecidableEq, Repr

/-- The INTEGER columns that keys and references are made of. -/
inductive Column where
  | id
  | projectId
  | sourceId
  | targetId
  | entityId
  | parentId
  | sourceScopeId
  | callerId
  | scopeId
  | srcId
  | tgtId
deriving DecidableEq, Repr

/-- A row, with the columns the merge does not read as payload `γ`. -/
structure Row (γ : Type) where
  int : Column → Nat
  path : String
  rest : γ

/-- A database: the rows of each table, in rowid order. -/
abbrev Db (γ : Type) := Table → List (Row γ)

/-- Spec for one table to merge: the columns to remap, each with the table whose offset is added
    (`none` is "self"), and whether the rowid is left to SQLite. -/
structure TableSpec where
  name : Table
  remapCols : List (Column × Option Table)
  skipRowid : Bool

def tableSpecs : List TableSpec := [
  ⟨.entity, [(.id, none)], false⟩,
  ⟨.relation, [(.id, none), (.sourceId, some .entity), (.targetId, some .entity)], false⟩,
  ⟨.typeInfo, [(.id, none)], false⟩,
  ⟨.typeRef, [(.id, none), (.entityId, some .entity)], false⟩,
  ⟨.scope, [(.id, none), (.parentId, none)], false⟩,
  ⟨.import, [(.id, none), (.sourceScopeId, some .scope)], false⟩,
  ⟨.reference, [(.id, none), (.callerId, some .entity), (.scopeId, some .scope)], false⟩,
  ⟨.files, [(.id, none)], false⟩,
  ⟨.fileScanState, [], false⟩,
  ⟨.adjacency, [(.srcId, some .entity)], false⟩,
  ⟨.adjacencyRev, [(.tgtId, some .entity)], false⟩,
  ⟨.semanticRecords, [], true⟩,
  ⟨.document, [(.id, none)], false⟩,
  ⟨.parseFailures, [], false⟩]

/-- A uniqueness constraint: an INTEGER column, or the pair of project and path. -/
inductive Key where
  | column (c : Column)
  | projectPath
deriving DecidableEq, Repr

/-- The value of a constraint on a row. -/
def Key.value {γ : Type} (r : Row γ) : Key → Nat × Option String
  | .column c => (r.int c, none)
  | .projectPath => (r.int .projectId, some r.path)

/-- The PRIMARY KEY and UNIQUE constraints in the CREATE TABLE statements. -/
def schemaKeys : Table → List Key
  | .files => [.column .id, .projectPath]
  | .fileScanState | .parseFailures => [.projectPath]
  | .adjacency => [.column .srcId]
  | .adjacencyRev => [.column .tgtId]
  | .semanticRecords => []
  | .entity | .relation | .typeInfo | .typeRef | .scope | .import | .reference | .document =>
      [.column .id]

/-- The constraints of a table as functions of its rows. -/
def keysOf {γ : Type} (t : Table) : List (Row γ → Nat × Option String) :=
  (schemaKeys t).map fun k r => k.value r

/-- The references of a table: the remapped columns other than its own id, with the table they
    point into. -/
def TableSpec.references (spec : TableSpec) : List (Column × Table) :=
  (spec.remapCols.filter (·.1 ≠ .id)).map fun (c, src) => (c, src.getD spec.name)

/-- The references of table `t`. -/
def referencesOf (t : Table) : List (Column × Table) :=
  (tableSpecs.filter (·.name = t)).flatMap TableSpec.references

/-! ## Worker databases -/

/-- A worker database that satisfies the schema: every row carries the worker's project id, ids and
    other primary keys are positive, no constraint repeats a value, and a reference is 0 or the id
    of a row of the same database. -/
structure ModuleDb (γ : Type) where
  rows : Db γ
  project : Nat
  rows_project : ∀ t, ∀ r ∈ rows t, r.int .projectId = project
  keys_positive : ∀ t c, .column c ∈ schemaKeys t → ∀ r ∈ rows t, 0 < r.int c
  keys_unique : ∀ t, KeyedTable.Unique (keysOf t) (rows t)
  references_closed : ∀ t, ∀ ref ∈ referencesOf t, ∀ r ∈ rows t, r.int ref.1 ≠ 0 →
    ∃ target ∈ rows ref.2, target.int .id = r.int ref.1

end CodeScope.Merge
