import CodeScope.Library.Connection
import CodeScope.Merge.MergeDriver
import CodeScope.Store.GraphTables

/-! # Shared artifacts

`exportArtifact` copies the whole database into a compressed file; `importArtifact` attaches such a
copy and selects the rows of one project out of three of its tables, with their row ids, into the
same tables of the store. The row ids are primary keys over all projects, and a row whose id is
taken is skipped. -/

namespace CodeScope.Store

open Text (Str str)
open Connection (Conn)
open Merge (Table Row)

/-! ## The database -/

variable {γ : Type}

/-- A row of `graph_nodes`; `rest` are the columns that the import copies unread. -/
structure GraphNode (γ : Type) where
  id : ℕ
  project : ℕ
  rest : γ
  parentId : ℕ

/-- A row of `graph_edges`. -/
structure GraphEdge (γ : Type) where
  id : ℕ
  project : ℕ
  sourceNodeId : ℕ
  targetNodeId : ℕ
  edgeType : ℕ
  graphType : Str
  rest : γ
  resolveStrategy : Str

/-- The values of the PRIMARY KEY of `graph_edges` and of its UNIQUE constraint. -/
inductive EdgeKey where
  | id (id : ℕ)
  | edge (project sourceNodeId targetNodeId edgeType : ℕ) (graphType : Str)
deriving DecidableEq

def edgeKeys : List (GraphEdge γ → EdgeKey) :=
  [fun e => .id e.id,
    fun e => .edge e.project e.sourceNodeId e.targetNodeId e.edgeType e.graphType]

/-- The tables of a store. The ones the import does not name are kept by the name of the table. -/
@[ext] structure StoreDb (γ : Type) where
  records : RecordTable
  nodes : List (GraphNode γ)
  edges : List (GraphEdge γ)
  others : Merge.Db γ

/-- The tables among the others that the queries read. -/
def queriedTables : List Table := [.entity, .relation, .reference, .scope, .import]

def StoreDb.recordsOf (project : ℕ) (db : StoreDb γ) : List StoredRecord :=
  db.records.rows.filter fun r => r.row.project = project

def StoreDb.nodesOf (project : ℕ) (db : StoreDb γ) : List (GraphNode γ) :=
  db.nodes.filter fun n => n.project = project

def StoreDb.edgesOf (project : ℕ) (db : StoreDb γ) : List (GraphEdge γ) :=
  db.edges.filter fun e => e.project = project

def StoreDb.rowsOf (project : ℕ) (t : Table) (db : StoreDb γ) : List (Row γ) :=
  (db.others t).filter fun r => r.int .projectId = project

/-! ## Export -/

/-- A character that `pathHasMeta` refuses. -/
def isMeta (c : Char) : Bool :=
  c ∈ ['\'', ';', '\u0060', '$', '|', '&', '(', ')', '\\', '\n']

/-- An artifact path that both functions refuse. -/
def badPath (path : Str) : Bool := path = [] || path.any isMeta

/-- `exportArtifact`: `VACUUM INTO` copies the database, and fails inside a transaction. The project
    only appears in the answer. -/
def exportArtifact (outputPath : Str) (c : Conn (StoreDb γ)) : Except Str (StoreDb γ) :=
  if badPath outputPath then .error (str "invalid output_path")
  else match c.txn with
    | none => .ok c.durable
    | some _ => .error (str "VACUUM INTO failed: cannot VACUUM from within a transaction")

/-! ## Import -/

/-- The columns of a record that the import selects; the others get their defaults. -/
def Record.imported (r : Record) : Record :=
  { r with
    resolveStrategy := []
    qualifiedTarget := []
    receiverText := []
    receiverType := []
    importAlias := [] }

def StoredRecord.imported (r : StoredRecord) : StoredRecord :=
  { r with row := { r.row with record := r.row.record.imported } }

def GraphNode.imported (n : GraphNode γ) : GraphNode γ := { n with parentId := 0 }

def GraphEdge.imported (e : GraphEdge γ) : GraphEdge γ := { e with resolveStrategy := [] }

/-- `INSERT OR IGNORE INTO semantic_records … SELECT`; the row id is the only key. -/
def RecordTable.insertAll (t : RecordTable) (selected : List StoredRecord) : RecordTable where
  rows := KeyedTable.insertAll [StoredRecord.rowid] t.rows selected
  rowids := KeyedTable.Unique.insertAll (by simpa [KeyedTable.Unique] using t.rowids) selected
    StoredRecord.rowid List.mem_cons_self

section Import

variable (project : ℕ) (artifact : StoreDb γ)

def importRecords (db : StoreDb γ) : StoreDb γ :=
  { db with records := db.records.insertAll ((artifact.recordsOf project).map (·.imported)) }

def importNodes (db : StoreDb γ) : StoreDb γ :=
  { db with
    nodes := KeyedTable.insertAll [GraphNode.id] db.nodes
      ((artifact.nodesOf project).map (·.imported)) }

def importEdges (db : StoreDb γ) : StoreDb γ :=
  { db with
    edges := KeyedTable.insertAll edgeKeys db.edges
      ((artifact.edgesOf project).map (·.imported)) }

/-- What can fail in an import; `errorText` is what SQLite has to say about it. -/
structure ImportFaults where
  zstd : Bool
  attach : Bool
  begin : Bool
  records : Bool
  nodes : Bool
  edges : Bool
  commit : Bool
  errorText : Str

/-- One of the three statements; a failing one has no effect. -/
def runStatement (fails : Bool) (f : StoreDb γ → StoreDb γ) (c : Conn (StoreDb γ)) :
    Conn (StoreDb γ) := if fails then c else c.write f

/-- The answer is the project id, or the text of the error. -/
def importArtifact (faults : ImportFaults) (artifactPath : Str) (c : Conn (StoreDb γ)) :
    Except Str ℕ × Conn (StoreDb γ) :=
  if badPath artifactPath then (.error (str "invalid artifact_path"), c)
  else if faults.zstd then (.error (str "zstd decompression failed"), c)
  else if faults.attach then (.error (str "attach artifact failed"), c)
  else
    let c := (c.begin faults.begin).2
    let c := runStatement faults.records (importRecords project artifact) c
    let c := runStatement faults.nodes (importNodes project artifact) c
    let c := runStatement faults.edges (importEdges project artifact) c
    if faults.records || faults.nodes || faults.edges then
      (.error (str "artifact import failed: " ++ faults.errorText), c.rollback)
    else (.ok project, (c.commit faults.commit).2)

end Import

/-! ## What an import is for -/

/-- The row with its row ids renamed, its own and those it refers to. -/
def renameIds (rename : Table → ℕ → ℕ) (t : Table) (r : Row γ) : Row γ :=
  { r with int := fun c =>
      match Merge.remapOffset t c with
      | some s => rename s (r.int c)
      | none => r.int c }

/-- The rows of the project that the queries read are in the store as they are in the artifact, up
    to their order and to row ids; the row id 0 stands for no row. -/
structure Restored (project : ℕ) (artifact db : StoreDb γ) : Prop where
  records : ((db.recordsOf project).map (·.row)).Perm ((artifact.recordsOf project).map (·.row))
  others : ∃ rename : Table → ℕ → ℕ, (∀ t, Function.Injective (rename t) ∧ rename t 0 = 0) ∧
    ∀ t ∈ queriedTables, (db.rowsOf project t).Perm
      ((artifact.rowsOf project t).map (renameIds rename t))

/-- The rows of the other projects are those they were. -/
structure OthersKept (project : ℕ) (before after : StoreDb γ) : Prop where
  records : ∀ q ≠ project, after.recordsOf q = before.recordsOf q
  nodes : ∀ q ≠ project, after.nodesOf q = before.nodesOf q
  edges : ∀ q ≠ project, after.edgesOf q = before.edgesOf q
  others : ∀ q ≠ project, ∀ t, after.rowsOf q t = before.rowsOf q t

/-- An import does its work, given the store before and after it: the other projects are left alone,
    and either the project is restored or the answer is an error and nothing has changed. -/
structure Imports (project : ℕ) (artifact before after : StoreDb γ) (answer : Except Str ℕ) :
    Prop where
  kept : OthersKept project before after
  brought : Restored project artifact after ∨ ((∃ e, answer = .error e) ∧ after = before)

/-- No table has a row of the project. -/
structure Lacks (project : ℕ) (db : StoreDb γ) : Prop where
  records : db.recordsOf project = []
  nodes : db.nodesOf project = []
  edges : db.edgesOf project = []
  others : ∀ t, db.rowsOf project t = []

/-! ## One statement -/

section Statements

variable {project : ℕ} {artifact db : StoreDb γ}

@[simp] theorem StoredRecord.imported_project (r : StoredRecord) :
    r.imported.row.project = r.row.project := rfl

@[simp] theorem GraphNode.imported_project (n : GraphNode γ) : n.imported.project = n.project := rfl

@[simp] theorem GraphEdge.imported_project (e : GraphEdge γ) : e.imported.project = e.project := rfl

theorem project_of_mem_recordsOf {r : StoredRecord} (h : r ∈ artifact.recordsOf project) :
    r.row.project = project := by
  simpa using (List.mem_filter.mp h).2

theorem conflicts_rowid_iff {rows : List StoredRecord} {r : StoredRecord} :
    KeyedTable.conflicts [StoredRecord.rowid] rows r = true ↔
      r.rowid ∈ rows.map StoredRecord.rowid := by
  simp [KeyedTable.conflicts]

theorem unique_selectedRecords :
    KeyedTable.Unique [StoredRecord.rowid] ((artifact.recordsOf project).map (·.imported)) := by
  rw [KeyedTable.unique_singleton]
  have hsame : ((artifact.recordsOf project).map (·.imported)).map StoredRecord.rowid =
      (artifact.recordsOf project).map StoredRecord.rowid := by
    rw [List.map_map]
    rfl
  rw [hsame]
  exact artifact.records.rowids.sublist (List.filter_sublist.map _)

/-- The records that an import adds: those whose row id is free, with the columns it selects. -/
theorem recordsOf_importRecords (hlacks : db.recordsOf project = []) :
    (importRecords project artifact db).recordsOf project =
      ((artifact.recordsOf project).filter fun r =>
        r.rowid ∉ db.records.rows.map StoredRecord.rowid).map (·.imported) := by
  have hrows : (importRecords project artifact db).records.rows =
      db.records.rows ++ ((artifact.recordsOf project).map (·.imported)).filter fun r =>
        ! KeyedTable.conflicts [StoredRecord.rowid] db.records.rows r :=
    KeyedTable.insertAll_eq_append_filter _ unique_selectedRecords
  have hadded : (((artifact.recordsOf project).map (·.imported)).filter fun r =>
        ! KeyedTable.conflicts [StoredRecord.rowid] db.records.rows r) =
      ((artifact.recordsOf project).filter fun r =>
        r.rowid ∉ db.records.rows.map StoredRecord.rowid).map (·.imported) := by
    rw [List.filter_map]
    congr 1
    refine List.filter_congr ?_
    intro r _
    have hiff : KeyedTable.conflicts [StoredRecord.rowid] db.records.rows r.imported = true ↔
        r.rowid ∈ db.records.rows.map StoredRecord.rowid := conflicts_rowid_iff
    by_cases htaken : r.rowid ∈ db.records.rows.map StoredRecord.rowid
    · simp [hiff.mpr htaken, htaken]
    · simp [Bool.eq_false_iff.mpr fun h => htaken (hiff.mp h), htaken]
  rw [StoreDb.recordsOf, hrows, List.filter_append, hadded]
  have hold : (db.records.rows.filter fun r => r.row.project = project) = [] := hlacks
  rw [hold, List.nil_append, List.filter_eq_self]
  intro r hr
  obtain ⟨r', hr', rfl⟩ := List.mem_map.mp hr
  have hproject := project_of_mem_recordsOf (List.mem_of_mem_filter hr')
  exact decide_eq_true hproject

/-- **An import brings the records over** exactly when their row ids are free and the columns it
    does not select hold their defaults. -/
theorem importRecords_brings_iff (hlacks : db.recordsOf project = []) :
    (((importRecords project artifact db).recordsOf project).map (·.row)).Perm
        ((artifact.recordsOf project).map (·.row)) ↔
      ∀ r ∈ artifact.recordsOf project, r.rowid ∉ db.records.rows.map StoredRecord.rowid ∧
        r.row.record.imported = r.row.record := by
  rw [recordsOf_importRecords hlacks, List.map_map]
  constructor
  · intro hperm
    -- no row may be missing, so no row id was taken
    have hlength := hperm.length_eq
    rw [List.length_map, List.length_map, List.length_filter_eq_length_iff] at hlength
    have hall := List.filter_eq_self.mpr hlength
    rw [hall] at hperm
    intro r hr
    refine ⟨by simpa using hlength r hr, ?_⟩
    obtain ⟨r', -, hrow⟩ := List.mem_map.mp (hperm.symm.mem_iff.mp (List.mem_map_of_mem hr))
    rw [← hrow]
    rfl
  · intro h
    have hall := List.filter_eq_self.mpr fun r hr => decide_eq_true (h r hr).1
    rw [hall]
    refine List.Perm.of_eq (List.map_congr_left ?_)
    intro r hr
    have hdefault := (h r hr).2
    simp [StoredRecord.imported, hdefault]

theorem importRecords_same_iff :
    (importRecords project artifact db).records = db.records ↔
      ∀ r ∈ artifact.recordsOf project, r.rowid ∈ db.records.rows.map StoredRecord.rowid := by
  have hrows : (importRecords project artifact db).records = db.records ↔
      KeyedTable.insertAll [StoredRecord.rowid] db.records.rows
        ((artifact.recordsOf project).map (·.imported)) = db.records.rows := by
    obtain ⟨⟨rows, rowids⟩, nodes, edges, others⟩ := db
    simp [importRecords, RecordTable.insertAll]
  rw [hrows, KeyedTable.insertAll_eq_self_iff, List.forall_mem_map]
  refine forall_congr' fun r => forall_congr' fun _ => ?_
  exact conflicts_rowid_iff

theorem importNodes_same_iff :
    (importNodes project artifact db).nodes = db.nodes ↔
      ∀ n ∈ artifact.nodesOf project, n.id ∈ db.nodes.map GraphNode.id := by
  rw [importNodes, KeyedTable.insertAll_eq_self_iff, List.forall_mem_map]
  refine forall_congr' fun n => forall_congr' fun _ => ?_
  rw [List.mem_map]
  simp only [KeyedTable.conflicts, List.any_eq_true, List.mem_singleton, exists_eq_left,
    decide_eq_true_eq]
  rfl

theorem importEdges_same_iff :
    (importEdges project artifact db).edges = db.edges ↔
      ∀ e ∈ artifact.edgesOf project, KeyedTable.conflicts edgeKeys db.edges e = true := by
  rw [importEdges, KeyedTable.insertAll_eq_self_iff, List.forall_mem_map]
  rfl

theorem filter_insertAll_of_ne {ρ κ : Type} [DecidableEq κ] {keys : List (ρ → κ)}
    {rows selected : List ρ} {p : ρ → Bool} (h : ∀ r ∈ selected, p r = false) :
    (KeyedTable.insertAll keys rows selected).filter p = rows.filter p := by
  obtain ⟨added, heq, hadded⟩ := KeyedTable.exists_insertAll_eq keys rows selected
  have hnone : added.filter p = [] := by
    rw [List.filter_eq_nil_iff]
    intro r hr
    simp [h r (hadded r hr)]
  rw [heq, List.filter_append, hnone, List.append_nil]

theorem othersKept_refl (db : StoreDb γ) : OthersKept project db db :=
  ⟨fun _ _ => rfl, fun _ _ => rfl, fun _ _ => rfl, fun _ _ _ => rfl⟩

theorem OthersKept.trans {a b c : StoreDb γ} (hab : OthersKept project a b)
    (hbc : OthersKept project b c) : OthersKept project a c where
  records q hq := (hbc.records q hq).trans (hab.records q hq)
  nodes q hq := (hbc.nodes q hq).trans (hab.nodes q hq)
  edges q hq := (hbc.edges q hq).trans (hab.edges q hq)
  others q hq t := (hbc.others q hq t).trans (hab.others q hq t)

theorem othersKept_importRecords : OthersKept project db (importRecords project artifact db) where
  records q hq := by
    refine filter_insertAll_of_ne ?_
    intro r hr
    obtain ⟨r', hr', rfl⟩ := List.mem_map.mp hr
    have hproject := project_of_mem_recordsOf hr'
    simpa [hproject] using hq.symm
  nodes _ _ := rfl
  edges _ _ := rfl
  others _ _ _ := rfl

theorem othersKept_importNodes : OthersKept project db (importNodes project artifact db) where
  records _ _ := rfl
  nodes q hq := by
    refine filter_insertAll_of_ne ?_
    intro n hn
    obtain ⟨n', hn', rfl⟩ := List.mem_map.mp hn
    have hproject : n'.project = project := by simpa using (List.mem_filter.mp hn').2
    simpa [hproject] using hq.symm
  edges _ _ := rfl
  others _ _ _ := rfl

theorem othersKept_importEdges : OthersKept project db (importEdges project artifact db) where
  records _ _ := rfl
  nodes _ _ := rfl
  edges q hq := by
    refine filter_insertAll_of_ne ?_
    intro e he
    obtain ⟨e', he', rfl⟩ := List.mem_map.mp he
    have hproject : e'.project = project := by simpa using (List.mem_filter.mp he').2
    simpa [hproject] using hq.symm
  others _ _ _ := rfl

end Statements

/-! ## A whole import -/

/-- A statement that may fail, as a write. -/
def attempt (fails : Bool) (f : StoreDb γ → StoreDb γ) : StoreDb γ → StoreDb γ :=
  if fails then id else f

/-- The store with the rows of the statements that succeed. -/
def attempted (project : ℕ) (artifact : StoreDb γ) (faults : ImportFaults) (db : StoreDb γ) :
    StoreDb γ :=
  attempt faults.edges (importEdges project artifact)
    (attempt faults.nodes (importNodes project artifact)
      (attempt faults.records (importRecords project artifact) db))

/-- The import gets to its statements. -/
def ImportFaults.starts (faults : ImportFaults) (artifactPath : Str) : Bool :=
  ! (badPath artifactPath || faults.zstd || faults.attach)

/-- A statement fails. -/
def ImportFaults.statement (faults : ImportFaults) : Bool :=
  faults.records || faults.nodes || faults.edges

/-- What is durable after an import that gets to its statements. -/
def importedDb (project : ℕ) (artifact : StoreDb γ) (faults : ImportFaults) (db : StoreDb γ) :
    StoreDb γ :=
  if faults.begin then attempted project artifact faults db
  else if faults.statement || faults.commit then db
  else attempted project artifact faults db

section Import

variable {project : ℕ} {artifact db : StoreDb γ} {faults : ImportFaults} {artifactPath : Str}

theorem runStatement_eq (fails : Bool) (f : StoreDb γ → StoreDb γ) (c : Conn (StoreDb γ)) :
    runStatement fails f c = c.write (attempt fails f) := by
  cases fails with
  | true => exact (c.write_id).symm
  | false => rfl

theorem runStatements_eq (c : Conn (StoreDb γ)) :
    runStatement faults.edges (importEdges project artifact)
        (runStatement faults.nodes (importNodes project artifact)
          (runStatement faults.records (importRecords project artifact) c)) =
      c.write (attempted project artifact faults) := by
  rw [runStatement_eq, runStatement_eq, runStatement_eq, Conn.write_write, Conn.write_write]
  rfl

theorem importArtifact_durable (hstarts : faults.starts artifactPath = true) :
    (importArtifact project artifact faults artifactPath (.idle db)).2.durable =
      importedDb project artifact faults db := by
  simp only [ImportFaults.starts, Bool.not_eq_true', Bool.or_eq_false_iff] at hstarts
  obtain ⟨⟨hpath, hzstd⟩, hattach⟩ := hstarts
  simp only [importArtifact, hpath, hzstd, hattach, runStatements_eq]
  rw [importedDb, ImportFaults.statement]
  cases faults.begin <;> cases faults.commit <;>
    cases faults.records || faults.nodes || faults.edges <;>
    simp [Conn.write, Conn.idle, Conn.begin, Conn.commit, Conn.rollback]

theorem importArtifact_error_iff (hstarts : faults.starts artifactPath = true) :
    (∃ e, (importArtifact project artifact faults artifactPath (.idle db)).1 = .error e) ↔
      faults.statement = true := by
  simp only [ImportFaults.starts, Bool.not_eq_true', Bool.or_eq_false_iff] at hstarts
  obtain ⟨⟨hpath, hzstd⟩, hattach⟩ := hstarts
  simp only [importArtifact, hpath, hzstd, hattach, ImportFaults.statement]
  cases faults.records || faults.nodes || faults.edges <;> simp

/-- An import that does not get to its statements is an error and changes nothing. -/
theorem importArtifact_of_not_starts (project : ℕ) (artifact db : StoreDb γ)
    (hstarts : faults.starts artifactPath = false) :
    (∃ e, (importArtifact project artifact faults artifactPath (.idle db)).1 = .error e) ∧
      (importArtifact project artifact faults artifactPath (.idle db)).2.durable = db := by
  simp only [ImportFaults.starts, Bool.not_eq_false', Bool.or_eq_true] at hstarts
  rw [importArtifact]
  split
  · exact ⟨⟨_, rfl⟩, rfl⟩
  · next hpath =>
      split
      · exact ⟨⟨_, rfl⟩, rfl⟩
      · next hzstd =>
          split
          · exact ⟨⟨_, rfl⟩, rfl⟩
          · next hattach =>
              rcases hstarts with (hbad | hbad) | hbad
              · exact absurd hbad hpath
              · exact absurd hbad hzstd
              · exact absurd hbad hattach

theorem othersKept_attempted : OthersKept project db (attempted project artifact faults db) := by
  have hrecords : OthersKept project db
      (attempt faults.records (importRecords project artifact) db) := by
    cases faults.records with
    | true => exact othersKept_refl db
    | false => exact othersKept_importRecords
  have hnodes : ∀ db' : StoreDb γ, OthersKept project db'
      (attempt faults.nodes (importNodes project artifact) db') := by
    intro db'
    cases faults.nodes with
    | true => exact othersKept_refl db'
    | false => exact othersKept_importNodes
  have hedges : ∀ db' : StoreDb γ, OthersKept project db'
      (attempt faults.edges (importEdges project artifact) db') := by
    intro db'
    cases faults.edges with
    | true => exact othersKept_refl db'
    | false => exact othersKept_importEdges
  exact (hrecords.trans (hnodes _)).trans (hedges _)

theorem othersKept_importedDb : OthersKept project db (importedDb project artifact faults db) := by
  rw [importedDb]
  split
  · exact othersKept_attempted
  · split
    · exact othersKept_refl db
    · exact othersKept_attempted

end Import

/-! ## When an import does its work -/

/-- The artifact has no row of the project that the queries read. -/
structure NothingToBring (project : ℕ) (artifact : StoreDb γ) : Prop where
  records : artifact.recordsOf project = []
  others : ∀ t ∈ queriedTables, artifact.rowsOf project t = []

/-- What the three statements can carry: records whose row ids are free in the store and whose
    unselected columns hold their defaults, and no row in the tables that are not copied. -/
structure Portable (project : ℕ) (artifact db : StoreDb γ) : Prop where
  records : ∀ r ∈ artifact.recordsOf project,
    r.rowid ∉ db.records.rows.map StoredRecord.rowid ∧ r.row.record.imported = r.row.record
  others : ∀ t ∈ queriedTables, artifact.rowsOf project t = []

/-- Every statement that succeeds finds only keys that are taken. -/
structure NothingAdded (project : ℕ) (artifact db : StoreDb γ) (faults : ImportFaults) : Prop where
  records : faults.records = false → ∀ r ∈ artifact.recordsOf project,
    r.rowid ∈ db.records.rows.map StoredRecord.rowid
  nodes : faults.nodes = false → ∀ n ∈ artifact.nodesOf project, n.id ∈ db.nodes.map GraphNode.id
  edges : faults.edges = false → ∀ e ∈ artifact.edgesOf project,
    KeyedTable.conflicts edgeKeys db.edges e = true

/-- The imports that do their work: an answered one brings what it can carry, or has nothing to bring
    when its unread COMMIT fails; one that stops at a statement behind a failed BEGIN has added
    nothing, or everything. -/
structure Importable (project : ℕ) (artifact db : StoreDb γ) (faults : ImportFaults)
    (artifactPath : Str) : Prop where
  answered : faults.starts artifactPath = true → faults.statement = false →
    if faults.begin = false ∧ faults.commit = true then NothingToBring project artifact
    else Portable project artifact db
  torn : faults.starts artifactPath = true → faults.begin = true → faults.statement = true →
    (if faults.records then NothingToBring project artifact else Portable project artifact db) ∨
      NothingAdded project artifact db faults

section Fields

variable (project : ℕ) (artifact db : StoreDb γ) (faults : ImportFaults)

theorem attempted_records : (attempted project artifact faults db).records =
    if faults.records then db.records else (importRecords project artifact db).records := by
  unfold attempted
  cases faults.records <;> cases faults.nodes <;> cases faults.edges <;> rfl

theorem attempted_nodes : (attempted project artifact faults db).nodes =
    if faults.nodes then db.nodes else (importNodes project artifact db).nodes := by
  unfold attempted
  cases faults.records <;> cases faults.nodes <;> cases faults.edges <;> rfl

theorem attempted_edges : (attempted project artifact faults db).edges =
    if faults.edges then db.edges else (importEdges project artifact db).edges := by
  unfold attempted
  cases faults.records <;> cases faults.nodes <;> cases faults.edges <;> rfl

theorem attempted_others : (attempted project artifact faults db).others = db.others := by
  unfold attempted
  cases faults.records <;> cases faults.nodes <;> cases faults.edges <;> rfl

end Fields

section Main

variable {project : ℕ} {artifact db : StoreDb γ} {faults : ImportFaults} {artifactPath : Str}

theorem exists_rename_iff (artifact : StoreDb γ) {after : StoreDb γ}
    (h : ∀ t, after.rowsOf project t = []) :
    (∃ rename : Table → ℕ → ℕ, (∀ t, Function.Injective (rename t) ∧ rename t 0 = 0) ∧
      ∀ t ∈ queriedTables, (after.rowsOf project t).Perm
        ((artifact.rowsOf project t).map (renameIds rename t))) ↔
      ∀ t ∈ queriedTables, artifact.rowsOf project t = [] := by
  constructor
  · rintro ⟨rename, -, hperm⟩ t ht
    have hnil := hperm t ht
    rw [h t] at hnil
    simpa using hnil.nil_eq.symm
  · intro hnone
    refine ⟨fun _ => id, fun _ => ⟨Function.injective_id, rfl⟩, ?_⟩
    intro t ht
    rw [h t, hnone t ht]
    exact List.Perm.nil

theorem restored_iff_nothing (hlacks : Lacks project db) :
    Restored project artifact db ↔ NothingToBring project artifact := by
  constructor
  · rintro ⟨hrecords, hothers⟩
    refine ⟨?_, (exists_rename_iff artifact hlacks.others).mp hothers⟩
    rw [hlacks.records] at hrecords
    simpa using hrecords.nil_eq.symm
  · rintro ⟨hrecords, hothers⟩
    refine ⟨?_, (exists_rename_iff artifact hlacks.others).mpr hothers⟩
    rw [hlacks.records, hrecords]

/-- The statements restore the project exactly when they can carry all of it. -/
theorem restored_attempted_iff (hlacks : Lacks project db) (faults : ImportFaults) :
    Restored project artifact (attempted project artifact faults db) ↔
      if faults.records then NothingToBring project artifact
      else Portable project artifact db := by
  have hempty : ∀ t, (attempted project artifact faults db).rowsOf project t = [] := by
    intro t
    rw [StoreDb.rowsOf, attempted_others]
    exact hlacks.others t
  have hothers := exists_rename_iff artifact hempty
  have hrecords : (attempted project artifact faults db).recordsOf project =
      if faults.records then [] else (importRecords project artifact db).recordsOf project := by
    rw [StoreDb.recordsOf, attempted_records]
    split
    · exact hlacks.records
    · rfl
  split
  · next hfails =>
      rw [if_pos hfails] at hrecords
      constructor
      · rintro ⟨hperm, hrename⟩
        refine ⟨?_, hothers.mp hrename⟩
        rw [hrecords] at hperm
        simpa using hperm.nil_eq.symm
      · rintro ⟨hnone, hnothing⟩
        refine ⟨?_, hothers.mpr hnothing⟩
        rw [hrecords, hnone]
  · next hruns =>
      rw [if_neg hruns] at hrecords
      constructor
      · rintro ⟨hperm, hrename⟩
        rw [hrecords] at hperm
        exact ⟨(importRecords_brings_iff hlacks.records).mp hperm, hothers.mp hrename⟩
      · rintro ⟨hcarried, hnothing⟩
        refine ⟨?_, hothers.mpr hnothing⟩
        rw [hrecords]
        exact (importRecords_brings_iff hlacks.records).mpr hcarried

/-- The statements leave the store as it is exactly when all they select is taken. -/
theorem attempted_eq_self_iff (faults : ImportFaults) :
    attempted project artifact faults db = db ↔ NothingAdded project artifact db faults := by
  have hfields : attempted project artifact faults db = db ↔
      (attempted project artifact faults db).records = db.records ∧
        (attempted project artifact faults db).nodes = db.nodes ∧
        (attempted project artifact faults db).edges = db.edges := by
    rw [StoreDb.ext_iff]
    simp [attempted_others]
  rw [hfields, attempted_records, attempted_nodes, attempted_edges]
  constructor
  · rintro ⟨hrecords, hnodes, hedges⟩
    refine ⟨fun hruns => ?_, fun hruns => ?_, fun hruns => ?_⟩
    · rw [if_neg (by simp [hruns])] at hrecords
      exact importRecords_same_iff.mp hrecords
    · rw [if_neg (by simp [hruns])] at hnodes
      exact importNodes_same_iff.mp hnodes
    · rw [if_neg (by simp [hruns])] at hedges
      exact importEdges_same_iff.mp hedges
  · rintro ⟨hrecords, hnodes, hedges⟩
    refine ⟨?_, ?_, ?_⟩
    · split
      · rfl
      · next hruns => exact importRecords_same_iff.mpr (hrecords (by simpa using hruns))
    · split
      · rfl
      · next hruns => exact importNodes_same_iff.mpr (hnodes (by simpa using hruns))
    · split
      · rfl
      · next hruns => exact importEdges_same_iff.mpr (hedges (by simpa using hruns))

/-- What an import that gets to its statements must have brought or left. -/
theorem brought_iff (artifact : StoreDb γ) (hlacks : Lacks project db) (faults : ImportFaults) :
    (Restored project artifact (importedDb project artifact faults db) ∨
      (faults.statement = true ∧ importedDb project artifact faults db = db)) ↔
      (faults.statement = false → if faults.begin = false ∧ faults.commit = true then
        NothingToBring project artifact else Portable project artifact db) ∧
      (faults.begin = true → faults.statement = true →
        (if faults.records then NothingToBring project artifact
          else Portable project artifact db) ∨ NothingAdded project artifact db faults) := by
  cases hstatement : faults.statement with
  | true =>
      cases hbegin : faults.begin with
      | true =>
          simp only [importedDb, hbegin, if_true]
          rw [restored_attempted_iff hlacks, attempted_eq_self_iff]
          simp
      | false =>
          -- the ROLLBACK takes everything back
          simp [importedDb, hbegin, hstatement]
  | false =>
      have hruns : faults.records = false := by
        simp only [ImportFaults.statement, Bool.or_eq_false_iff] at hstatement
        exact hstatement.1.1
      have hall : Restored project artifact (attempted project artifact faults db) ↔ _ :=
        restored_attempted_iff hlacks faults
      rw [if_neg (by simp [hruns])] at hall
      cases hbegin : faults.begin with
      | true =>
          simp only [importedDb, hbegin, if_true]
          rw [hall]
          simp
      | false =>
          cases hcommit : faults.commit with
          | true =>
              have hlost : importedDb project artifact faults db = db := by
                simp [importedDb, hbegin, hcommit]
              rw [hlost, restored_iff_nothing hlacks]
              simp
          | false =>
              have hdone : importedDb project artifact faults db =
                  attempted project artifact faults db := by
                simp [importedDb, hbegin, hcommit, hstatement]
              rw [hdone, hall]
              simp

end Main

/-- **What an exported artifact restores.** Into a store without the project, an import does its work
    exactly when the three statements can carry all rows of the project and no failure that is
    passed over loses any. -/
theorem import_restores_iff {project : ℕ} {source artifact db : StoreDb γ} {faults : ImportFaults}
    {outputPath artifactPath : Str}
    (hexport : exportArtifact outputPath (.idle source) = .ok artifact)
    (hlacks : Lacks project db) :
    Imports project source db
        (importArtifact project artifact faults artifactPath (.idle db)).2.durable
        (importArtifact project artifact faults artifactPath (.idle db)).1 ↔
      Importable project source db faults artifactPath := by
  obtain rfl : source = artifact := by
    rw [exportArtifact] at hexport
    split at hexport
    · simp at hexport
    · exact Except.ok.inj hexport
  cases hstarts : faults.starts artifactPath with
  | true =>
      have hdurable : (importArtifact project source faults artifactPath (.idle db)).2.durable =
          importedDb project source faults db := importArtifact_durable hstarts
      have herror : (∃ e, (importArtifact project source faults artifactPath (.idle db)).1 =
          .error e) ↔ faults.statement = true := importArtifact_error_iff hstarts
      have hbrought := brought_iff source hlacks faults
      rw [hdurable]
      constructor
      · intro himports
        have hleft := himports.brought.imp_right fun h => And.intro (herror.mp h.1) h.2
        obtain ⟨hanswered, htorn⟩ := hbrought.mp hleft
        exact ⟨fun _ => hanswered, fun _ => htorn⟩
      · rintro ⟨hanswered, htorn⟩
        have hleft := hbrought.mpr ⟨hanswered hstarts, htorn hstarts⟩
        exact ⟨othersKept_importedDb, hleft.imp_right fun h => And.intro (herror.mpr h.1) h.2⟩
  | false =>
      obtain ⟨herror, hsame⟩ := importArtifact_of_not_starts project source db hstarts
      rw [hsame]
      refine iff_of_true ⟨othersKept_refl db, .inr ⟨herror, rfl⟩⟩ ⟨?_, ?_⟩ <;>
        simp [hstarts]

/-- A store without rows. -/
def emptyStore : StoreDb Unit := ⟨⟨[], List.nodup_nil⟩, [], [], fun _ => []⟩

/-- One function of project 1, as a record and as an entity. -/
def oneFunctionStore : StoreDb Unit where
  records := ⟨[⟨1, ⟨1, str "a.c", functionRecord (str "f") 3⟩⟩], by simp⟩
  nodes := []
  edges := []
  others := fun t => if t = .entity then [⟨fun _ => 1, "a.c", ()⟩] else []

def noImportFaults : ImportFaults := ⟨false, false, false, false, false, false, false, []⟩

theorem lacks_emptyStore : Lacks 1 emptyStore := ⟨rfl, rfl, rfl, fun _ => rfl⟩

theorem import_restores_iff_oneFunction :
    Imports 1 oneFunctionStore emptyStore
        (importArtifact 1 oneFunctionStore noImportFaults (str "p.zst") (.idle emptyStore)).2.durable
        (importArtifact 1 oneFunctionStore noImportFaults (str "p.zst") (.idle emptyStore)).1 ↔
      Importable 1 oneFunctionStore emptyStore noImportFaults (str "p.zst") :=
  import_restores_iff (show exportArtifact (str "p.zst") _ = _ from rfl) lacks_emptyStore

/-- The import answers with the project id, and the entity of the function is not in the store. -/
theorem import_leaves_entities :
    ¬ ∀ (faults : ImportFaults) (source artifact db : StoreDb Unit) (path : Str),
      exportArtifact path (.idle source) = .ok artifact → Lacks 1 db →
        Imports 1 source db (importArtifact 1 artifact faults path (.idle db)).2.durable
          (importArtifact 1 artifact faults path (.idle db)).1 := by
  intro h
  have himports := h noImportFaults oneFunctionStore oneFunctionStore emptyStore (str "p.zst") rfl
    lacks_emptyStore
  rcases himports.brought with hrestored | ⟨⟨e, herror⟩, -⟩
  · obtain ⟨rename, -, hperm⟩ := hrestored.others
    have hlength := (hperm .entity (by simp [queriedTables])).length_eq
    rw [List.length_map] at hlength
    exact absurd hlength (by decide)
  · have hanswer : (importArtifact 1 oneFunctionStore noImportFaults (str "p.zst")
        (.idle emptyStore)).1 = .ok 1 := by rfl
    rw [hanswer] at herror
    simp at herror

end CodeScope.Store
