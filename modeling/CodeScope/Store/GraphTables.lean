import CodeScope.Store.GraphRebuild
import Mathlib.Data.Finset.Union
import Mathlib.Order.BoundedOrder.Basic

/-! # The graph tables

What the statements of `buildGraph` do to the tables: `entity`, `reference`, `relation`, `scope` and
`import`. Apart from the entities, whose ids are shared by all projects, only the rows of one
project are kept here; every statement is limited to them. `route`, `type_info` and `type_ref` are
left out, no other statement reads them. -/

namespace CodeScope.Store

open Text (Str str)

/-! ## Tables -/

/-- A row of `semantic_records` with its `rowid`. -/
structure StoredRecord where
  rowid : ℕ
  row : RecordRow
deriving DecidableEq

/-- `semantic_records` -/
structure RecordTable where
  rows : List StoredRecord
  rowids : (rows.map StoredRecord.rowid).Nodup

def RecordTable.records (R : RecordTable) : List RecordRow := R.rows.map (·.row)

/-- A row of `reference`; its row id is read by no statement. -/
structure ReferenceRow where
  callerId : Int
  name : Str
  arity : Int
  callKind : ℕ
  resolveStrategy : Str
  startRow : ℕ
  startCol : ℕ
  qualifiedTarget : Str
  receiverText : Str
  receiverType : Str
  importAlias : Str
  callSiteFile : Str
deriving DecidableEq

/-- A row of `scope` with kind 1: a module, at the top. -/
structure ModuleScope where
  id : ℕ
  name : Str
deriving DecidableEq

/-- A row of `scope` with kind 2; its row id is read by no statement. -/
structure FunctionScope where
  parentId : ℕ
  name : Str
  startRow : ℕ
  endRow : ℕ
deriving DecidableEq

/-- A row of `import`. -/
structure ImportRow where
  id : ℕ
  sourceScopeId : ℕ
  path : PathRec
deriving DecidableEq

/-- The tables with the last ids that AUTOINCREMENT has given. A relation is a call, from an entity
    to an entity. -/
structure GraphTables where
  entities : EntityTable
  references : List ReferenceRow
  relations : Finset (Int × Int)
  modules : List ModuleScope
  functions : List FunctionScope
  imports : List ImportRow
  scopeSeq : ℕ
  importSeq : ℕ

attribute [ext] GraphTables

/-! ## The resolver -/

def ReferenceRow.anonymous (ref : ReferenceRow) : ReferenceRow := { ref with callerId := 0 }

section Resolve

variable {α : Type} [LinearOrder α] [OrderBot α]

/-- A target has a score, and a higher one than every other entity. -/
def IsBest (score : EntityRow → α) (entities : List EntityRow) (target : EntityRow) : Prop :=
  ⊥ < score target.anonymous ∧
    ∀ other ∈ entities, other.id ≠ target.id → score other.anonymous < score target.anonymous

instance (score : EntityRow → α) (entities : List EntityRow) (target : EntityRow) :
    Decidable (IsBest score entities target) := inferInstanceAs (Decidable (_ ∧ _))

/-- The resolver, by the scores it gives: for each reference an edge from the caller to the best
    target, and none on a tie. A score does not depend on row ids. -/
def resolve (score : EntityRow → ReferenceRow → EntityRow → α) (entities : List EntityRow)
    (references : List ReferenceRow) : Finset (Int × Int) :=
  (references.flatMap fun ref =>
    (entities.filter fun caller => caller.id = ref.callerId).flatMap fun caller =>
      (entities.filter (IsBest (score caller.anonymous ref.anonymous) entities)).map
        fun target => (caller.id, target.id)).toFinset

end Resolve

/-! ## Statements -/

section Statements

variable (project : ℕ) (includeTestFiles : Bool) (R : RecordTable)

/-- The entities of the project. -/
def GraphTables.projectEntities (t : GraphTables) : List EntityRow :=
  t.entities.rows.filter fun e => e.project = project

/-- The entities of a file. -/
def GraphTables.fileEntities (t : GraphTables) (filePath : Str) : List EntityRow :=
  (t.projectEntities project).filter fun e => e.filePath = filePath

/-- One DELETE of `deleteGraphDataByFile`. -/
def GraphTables.deleteRows (t : GraphTables) : Str × DeletedTable → GraphTables
  | (f, .relation) =>
    { t with relations := t.relations.filter fun edge =>
        ¬ (edge.1 ∈ (t.fileEntities project f).map (·.id) ∨
          edge.2 ∈ (t.fileEntities project f).map (·.id)) }
  | (f, .reference) =>
    { t with references := t.references.filter fun ref =>
        ref.callerId ∉ (t.fileEntities project f).map (·.id) }
  | (f, .scope) =>
    { t with functions := t.functions.filter fun scope =>
        scope.name ∉ (t.fileEntities project f).map (·.name) }
  | (f, .entity) => { t with entities := t.entities.deleteFile project f }
  | (f, .import) => { t with imports := t.imports.filter fun row => row.path.file ≠ f }
  | (_, .typeRef) => t
  | (_, .typeInfo) => t
  | (_, .route) => t

/-- `INSERT OR IGNORE INTO entity` -/
def GraphTables.insertEntities (t : GraphTables) (ids : NodeIds) : GraphTables :=
  { t with entities := t.entities.insertAll (entityRows includeTestFiles ids) }

/-- A call record. -/
def RecordRow.calls (row : RecordRow) : Bool :=
  row.record.kind = .callExpr && row.record.name ≠ []

def ReferenceRow.ofRecord (callerId : Int) (row : RecordRow) : ReferenceRow where
  callerId := callerId
  name := row.record.name
  arity := row.record.arity
  callKind := row.record.callKind
  resolveStrategy := row.record.resolveStrategy
  startRow := row.record.startRow
  startCol := row.record.startCol
  qualifiedTarget := row.record.qualifiedTarget
  receiverText := row.record.receiverText
  receiverType := row.record.receiverType
  importAlias := row.record.importAlias
  callSiteFile := row.filePath

/-- `JOIN _r2n r2n ON sr.parent_id = r2n.original_id AND sr.file_path = r2n.file_path` -/
def callersOf (ids : NodeIds) (row : RecordRow) : NodeIds :=
  ids.filter fun p => p.1.record.id = row.record.parentId ∧ p.1.filePath = row.filePath

/-- The references of call records. -/
def referenceRows (ids : NodeIds) (calls : List RecordRow) : List ReferenceRow :=
  calls.flatMap fun row => (callersOf ids row).map fun p => .ofRecord p.2 row

/-- `INSERT OR IGNORE INTO reference` -/
def GraphTables.insertReferences (t : GraphTables) (rf : Finset Str) (ids : NodeIds) :
    GraphTables :=
  let calls := (recordsOf project R.records).filter fun row =>
    row.calls && row.filePath ∈ rf && (includeTestFiles || passesTestFilter row.filePath)
  { t with references := t.references ++ referenceRows ids calls }

/-- The imports with the ids that they get. -/
def numberImports (seq : ℕ) (paths : List PathRec) : List (ℕ × PathRec) :=
  paths.zipIdx.map fun p => (seq + 1 + p.2, p.1)

/-- `flushImportBatch`, for one batch after the other. -/
def GraphTables.insertImports (t : GraphTables) (batches : List (List PathRec)) : GraphTables :=
  { t with
    imports := t.imports ++ (numberImports t.importSeq batches.flatten).map fun p => ⟨p.1, 0, p.2⟩
    importSeq := t.importSeq + batches.flatten.length }

/-- The modules of the entities in `_rf` that have no scope yet. -/
def GraphTables.newModules (t : GraphTables) (rf : Finset Str) : List Str :=
  (((t.projectEntities project).filter fun e => e.modulePath ≠ [] ∧ e.filePath ∈ rf).map
    (·.modulePath)).dedup.filter fun m => m ∉ t.modules.map (·.name)

def GraphTables.insertModules (t : GraphTables) (rf : Finset Str) : GraphTables :=
  { t with
    modules := t.modules ++ (t.newModules project rf).zipIdx.map
      fun m => ⟨t.scopeSeq + 1 + m.2, m.1⟩
    scopeSeq := t.scopeSeq + (t.newModules project rf).length }

/-- The function scopes of entities: one in each module scope of the entity's module. -/
def GraphTables.functionRows (t : GraphTables) (entities : List EntityRow) : List FunctionScope :=
  entities.flatMap fun e =>
    (t.modules.filter fun m => m.name = e.modulePath).map
      fun m => ⟨m.id, e.name, e.startRow, e.endRow⟩

def GraphTables.insertFunctions (t : GraphTables) (rf : Finset Str) : GraphTables :=
  let rows := t.functionRows ((t.projectEntities project).filter fun e => e.filePath ∈ rf)
  { t with
    functions := t.functions ++ rows
    scopeSeq := t.scopeSeq + rows.length }

def GraphTables.deleteOrphanModules (t : GraphTables) : GraphTables :=
  { t with modules := t.modules.filter fun m =>
      m.name ∈ ((t.projectEntities project).map (·.modulePath)).filter fun path => path ≠ [] }

def GraphTables.deleteOrphanFunctions (t : GraphTables) : GraphTables :=
  { t with functions := t.functions.filter fun scope => scope.parentId ∈ t.modules.map (·.id) }

/-- The scope of an import: it is found through the record whose `rowid` is the import's id. -/
def GraphTables.scopeOfImport (t : GraphTables) (id : ℕ) : Option ℕ :=
  (R.rows.find? fun s => s.rowid = id ∧ s.row.project = project).bind fun s =>
    ((t.fileEntities project s.row.filePath).findSome? fun e =>
      t.modules.find? fun m => m.name = e.modulePath).map (·.id)

/-- `UPDATE import SET source_scope_id` -/
def GraphTables.updateImportScopes (t : GraphTables) : GraphTables :=
  { t with imports := t.imports.map fun row =>
      { row with sourceScopeId := (t.scopeOfImport project R row.id).getD 0 } }

variable {α : Type} [LinearOrder α] [OrderBot α]
  (score : EntityRow → ReferenceRow → EntityRow → α)

/-- `INSERT OR IGNORE INTO relation`, for the edges of the resolver. -/
def GraphTables.insertRelations (t : GraphTables) : GraphTables :=
  { t with relations := t.relations ∪ resolve score (t.projectEntities project) t.references }

/-! ## A run -/

/-- What the writes of a run do to the tables, in their order. -/
def GraphTables.perform (t : GraphTables) (w : GraphWrites) : GraphTables :=
  let t := w.deletes.foldl (GraphTables.deleteRows project) t
  let t := w.entity.elim t (t.insertEntities includeTestFiles)
  let t := w.reference.elim t fun p => t.insertReferences project includeTestFiles R p.1 p.2
  let t := t.insertImports w.imports
  let t := w.moduleScopes.elim t (t.insertModules project)
  let t := w.functionScopes.elim t (t.insertFunctions project)
  let t := if w.orphanModules then t.deleteOrphanModules project else t
  let t := if w.orphanFunctions then t.deleteOrphanFunctions else t
  let t := if w.importScopes then t.updateImportScopes project R else t
  if w.relations then t.insertRelations project score else t

/-- `buildGraph` when every statement goes through; the temporary tables are gone before. -/
def GraphTables.rebuild (changed : Option (List Str)) (t : GraphTables) : GraphTables :=
  t.perform project includeTestFiles R score
    (buildGraph noGraphFaults project changed includeTestFiles
      ⟨R.records, t.entities, none, none⟩).2

end Statements

end CodeScope.Store
