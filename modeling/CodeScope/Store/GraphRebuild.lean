import CodeScope.Store.BuildCsr
import CodeScope.Store.EntityIds
import CodeScope.Store.ImportScan
import Mathlib.Data.Finset.Dedup

/-! # The graph rebuild under failing statements

`buildGraph` rebuilds the graph tables of a project inside a savepoint. It looks at the results of
some of its statements and rolls back when one of them fails; others are passed over: the DELETEs of
a file, the reads (an error is taken for their end), the offset of the ids, the temporary tables.

A run is described by what it writes to the graph tables and what the writes are made from. The
CSR, the metric columns, the indexes and `_td`, which no statement reads, are left out, and the
resolver is one step. -/

namespace CodeScope.Store

open Text (Str str)

/-! ## Steps -/

/-- The tables that `deleteGraphDataByFile` clears. -/
inductive DeletedTable where
  | relation | reference | scope | entity | typeRef | typeInfo | import | route
deriving DecidableEq

/-- In the order of the statements. -/
def deletedTables : List DeletedTable :=
  [.relation, .reference, .scope, .entity, .typeRef, .typeInfo, .import, .route]

/-- What can fail in a run. -/
inductive GraphStep where
  | prepareFileList
  | stepFileList (i : ℕ)
  | savepoint
  | delete (filePath : Str) (table : DeletedTable)
  | dropRf
  | createRf
  | prepareRf
  | insertRf (i : ℕ)
  | prepareMaxId
  | stepMaxId
  | dropR2n
  | createR2n
  | insertEntity
  | insertRoute
  | insertTypeInfo
  | insertTypeRef
  | insertReference
  | prepareImports
  | stepImports (i : ℕ)
  | insertImports (row batch : ℕ)
  | insertModuleScopes
  | insertFunctionScopes
  | deleteOrphanModules
  | deleteOrphanFunctions
  | updateImportScopes
  | resolver
  | release
  | rollback
deriving DecidableEq

abbrev GraphFaults := GraphStep → Bool

/-- The statements that go through `exec_write`: a failure is noted and the run goes on. -/
def notedSteps : List GraphStep :=
  [.insertEntity, .insertRoute, .insertTypeInfo, .insertTypeRef, .insertReference,
    .insertModuleScopes, .insertFunctionScopes, .deleteOrphanModules, .deleteOrphanFunctions,
    .updateImportScopes]

/-- The writes that read `_r2n`. -/
def numberedSteps : List GraphStep := [.insertEntity, .insertTypeRef, .insertReference]

/-- The writes that do not read it, the imports apart. -/
def plainSteps : List GraphStep :=
  [.insertRoute, .insertTypeInfo, .insertModuleScopes, .insertFunctionScopes,
    .deleteOrphanModules, .deleteOrphanFunctions, .updateImportScopes, .resolver]

/-! ## Tables -/

/-- The rows of `_r2n`. -/
abbrev NodeIds := List (RecordRow × Int)

/-- What a run finds: the records, the entities, and temporary tables that an earlier run of the
    connection may have left. -/
structure RebuildDb where
  records : List RecordRow
  entities : EntityTable
  rf : Option (Finset Str)
  r2n : Option NodeIds

/-- What a run writes to the graph tables: the DELETEs that took effect, and each INSERT, DELETE and
    UPDATE that did with the temporary tables it read. -/
structure GraphWrites where
  deletes : List (Str × DeletedTable) := []
  entity : Option NodeIds := none
  route : Option (Finset Str) := none
  typeInfo : Option (Finset Str) := none
  typeRef : Option (Finset Str × NodeIds) := none
  reference : Option (Finset Str × NodeIds) := none
  imports : List (List PathRec) := []
  moduleScopes : Option (Finset Str) := none
  functionScopes : Option (Finset Str) := none
  orphanModules : Bool := false
  orphanFunctions : Bool := false
  importScopes : Bool := false
  relations : Bool := false
deriving DecidableEq

/-! ## The parts of a run -/

section Run

variable (faults : GraphFaults) (project : ℕ) (changed : Option (List Str))
  (includeTestFiles : Bool) (db : RebuildDb)

/-- The files to rebuild as far as they are read. -/
def fileList : List Str :=
  (readRows (fun i => faults (.stepFileList i)) 0
    ((recordsOf project db.records).map (·.filePath)).dedup).filter fun f => changed.all (f ∈ ·)

/-- The DELETEs of one file that take effect; an empty path has none. -/
def deleteGraphDataByFile (filePath : Str) : List (Str × DeletedTable) :=
  if filePath = [] then []
  else (deletedTables.filter fun t => ! faults (.delete filePath t)).map fun t => (filePath, t)

/-- `_rf` after its DROP. -/
def droppedRf : Option (Finset Str) := if faults .dropRf then db.rf else none

/-- `_rf` after its CREATE, which fails on a table that is still there. -/
def createdRf : Option (Finset Str) :=
  if faults .createRf then droppedRf faults db else some ((droppedRf faults db).getD ∅)

/-- `_rf` filled with the files; `none` when the run is rolled back here. -/
def fillRf (files : List Str) : Option (Finset Str) :=
  (createdRf faults db).bind fun rf =>
    if faults .prepareRf || (List.range files.length).any fun i => faults (.insertRf i) then none
    else some (rf ∪ files.toFinset)

/-- The entities that the DELETEs leave. -/
def entitiesLeft (files : List Str) : EntityTable :=
  files.foldl (fun t f => if faults (.delete f .entity) then t else t.deleteFile project f)
    db.entities

/-- `id_offset`, 0 when it cannot be read. -/
def idOffset (files : List Str) : Int :=
  if faults .prepareMaxId || faults .stepMaxId then 0
  else (entitiesLeft faults project db files).maxId

/-- The records of the files in `_rf`, numbered. -/
def numbered (rf : Finset Str) (offset : Int) : NodeIds :=
  Ranking.ranked RecordRow.place offset
    ((recordsOf project db.records).filter fun row => row.declares && row.filePath ∈ rf)

/-- `_r2n` as the statements behind it find it. -/
def r2nTable (rf : Finset Str) (offset : Int) : Option NodeIds :=
  match if faults .dropR2n then db.r2n else none with
  | some left => some left
  | none => if faults .createR2n then none else some (numbered project db rf offset)

/-- The rows of the import scan. -/
def importRows (rf : Finset Str) : List (Str × Str) :=
  ((recordsOf project db.records).filter fun row =>
      row.record.kind = .import && row.record.name ≠ [] && row.filePath ∈ rf &&
        (includeTestFiles || passesTestFilter row.filePath)).map
    fun row => (row.record.name, row.filePath)

/-- The rows of the import scan as far as they are read. -/
def importRowsRead (rf : Finset Str) : List (Str × Str) :=
  if faults .prepareImports then []
  else readRows (fun i => faults (.stepImports i)) 0 (importRows project includeTestFiles db rf)

/-- The batches of each row. -/
def importPlan (rows : List (Str × Str)) : List (List (List PathRec)) :=
  rows.map fun row => importBatches [] (pathRecs row.1 row.2)

/-- The batches with the row and the batch number they are flushed under. -/
def numberedBatches (rows : List (Str × Str)) : List (List PathRec × ℕ × ℕ) :=
  (importPlan rows).zipIdx.flatMap fun row =>
    row.1.zipIdx.map fun batch => (batch.1, row.2, batch.2)

/-- The batches that are written. -/
def flushImports (rows : List (Str × Str)) : List (List PathRec) :=
  ((numberedBatches rows).filter fun b => ! faults (.insertImports b.2.1 b.2.2)).map (·.1)

theorem map_numberedBatches (rows : List (Str × Str)) :
    (numberedBatches rows).map (·.1) = (importPlan rows).flatten := by
  rw [numberedBatches, List.map_flatMap]
  have hrow : ∀ row : List (List PathRec) × ℕ,
      (row.1.zipIdx.map fun batch => (batch.1, row.2, batch.2)).map (·.1) = row.1 := by
    intro row
    rw [List.map_map]
    exact List.zipIdx_map_fst 0 row.1
  simp only [hrow]
  rw [List.flatMap_def, List.zipIdx_map_fst]

/-- What a run writes before it returns. -/
def performed (files : List Str) : GraphWrites :=
  let deletes := files.flatMap (deleteGraphDataByFile faults)
  match fillRf faults db files with
  | none => { deletes := deletes }
  | some rf =>
    let ids := r2nTable faults project db rf (idOffset faults project db files)
    { deletes := deletes
      entity := if faults .insertEntity then none else ids
      route := if faults .insertRoute then none else some rf
      typeInfo := if faults .insertTypeInfo then none else some rf
      typeRef := if faults .insertTypeRef then none else ids.map fun ids => (rf, ids)
      reference := if faults .insertReference then none else ids.map fun ids => (rf, ids)
      imports := flushImports faults (importRowsRead faults project includeTestFiles db rf)
      moduleScopes := if faults .insertModuleScopes then none else some rf
      functionScopes := if faults .insertFunctionScopes then none else some rf
      orphanModules := ! faults .deleteOrphanModules
      orphanFunctions := ! faults .deleteOrphanFunctions
      importScopes := ! faults .updateImportScopes
      relations := ! faults .resolver }

/-- Every statement goes through whose result the run looks at. Without the savepoint its RELEASE
    fails; the INSERTs that read `_r2n` fail without it. -/
def checksPass (files : List Str) : Bool :=
  match fillRf faults db files with
  | none => false
  | some rf =>
    notedSteps.all (fun s => ! faults s) &&
      (r2nTable faults project db rf (idOffset faults project db files)).isSome &&
      (numberedBatches (importRowsRead faults project includeTestFiles db rf)).all
        (fun b => ! faults (.insertImports b.2.1 b.2.2)) &&
      ! faults .resolver && ! faults .savepoint && ! faults .release

/-- The result of `buildGraph`, and what it has written when it returns. -/
def buildGraph : Bool × GraphWrites :=
  if faults .prepareFileList then (false, {})
  else
    let files := fileList faults project changed db
    if files = [] then (true, {})
    else
      let written := performed faults project includeTestFiles db files
      if checksPass faults project includeTestFiles db files then (true, written)
      else (false, if faults .savepoint || faults .rollback then written else {})

end Run

/-! ## All or nothing -/

def noGraphFaults : GraphFaults := fun _ => false

/-- What a run writes when every statement goes through. -/
def GraphWrites.complete (deletes : List (Str × DeletedTable)) (rf : Finset Str) (ids : NodeIds)
    (imports : List (List PathRec)) : GraphWrites where
  deletes := deletes
  entity := some ids
  route := some rf
  typeInfo := some rf
  typeRef := some (rf, ids)
  reference := some (rf, ids)
  imports := imports
  moduleScopes := some rf
  functionScopes := some rf
  orphanModules := true
  orphanFunctions := true
  importScopes := true
  relations := true

section AllOrNothing

variable (faults : GraphFaults) (project : ℕ) (changed : Option (List Str))
  (includeTestFiles : Bool) (db : RebuildDb)

/-- What `buildGraph` is meant to be: a failed run leaves nothing behind, a successful one has
    written what a run writes without a fault. -/
structure AllOrNothing : Prop where
  nothing : (buildGraph faults project changed includeTestFiles db).1 = false →
    (buildGraph faults project changed includeTestFiles db).2 = {}
  all : (buildGraph faults project changed includeTestFiles db).1 = true →
    (buildGraph faults project changed includeTestFiles db).2 =
      (buildGraph noGraphFaults project changed includeTestFiles db).2

/-- The rows `_rf` should have. -/
def rebuiltSet : Finset Str := (rebuildFiles project changed db.records).toFinset

/-- The rows `_r2n` should have. -/
def rebuiltIds : NodeIds :=
  numbered project db (rebuiltSet project changed db)
    (retainedEntities project changed db.records db.entities).maxId

/-- The statements whose results the run passes over, in a run that the others do not stop. -/
structure UncheckedStepsPass : Prop where
  /-- every file to rebuild is read and loses all its rows -/
  deletes : ∀ f ∈ rebuildFiles project changed db.records, f ≠ [] →
    f ∈ fileList faults project changed db ∧ ∀ t, faults (.delete f t) = false
  /-- `_rf` has the files to rebuild: what is read, and what a left-over table adds -/
  filter : ∀ f, (f ∈ fileList faults project changed db ∨
      faults .dropRf = true ∧ ∃ left ∈ db.rf, f ∈ left) ↔
    f ∈ rebuildFiles project changed db.records
  /-- `_r2n` is not a left-over table, and its offset is read where it matters -/
  ids : (faults .dropR2n = true ∧ db.r2n = some (rebuiltIds project changed db)) ∨
    (faults .dropR2n = false ∨ db.r2n = none) ∧
      (faults .prepareMaxId = false ∧ faults .stepMaxId = false ∨
        (retainedEntities project changed db.records db.entities).maxId = 0 ∨
        rebuiltIds project changed db = [])
  /-- the import rows that are not read have no paths -/
  imports : ∀ row ∈ (importRows project includeTestFiles db (rebuiltSet project changed db)).drop
      (importRowsRead faults project includeTestFiles db (rebuiltSet project changed db)).length,
    pathRecs row.1 row.2 = []

/-- No statement of the run has taken effect. -/
structure NothingPasses : Prop where
  deletes : ∀ f ∈ fileList faults project changed db, f ≠ [] → ∀ t, faults (.delete f t) = true
  /-- behind `_rf`, if the run gets there -/
  writes : ∀ rf, fillRf faults db (fileList faults project changed db) = some rf →
    (∀ s ∈ plainSteps, faults s = true) ∧
      (r2nTable faults project db rf
          (idOffset faults project db (fileList faults project changed db)) = none ∨
        ∀ s ∈ numberedSteps, faults s = true) ∧
      ∀ b ∈ numberedBatches (importRowsRead faults project includeTestFiles db rf),
        faults (.insertImports b.2.1 b.2.2) = true

/-- When a run keeps its promise. -/
structure GraphFaultsFit : Prop where
  /-- a file list that ends before its first file has none to rebuild -/
  listed : faults .prepareFileList = false → fileList faults project changed db = [] →
    rebuildFiles project changed db.records = []
  /-- when the checked statements go through, so do the unchecked ones -/
  complete : faults .prepareFileList = false → fileList faults project changed db ≠ [] →
    checksPass faults project includeTestFiles db (fileList faults project changed db) = true →
      UncheckedStepsPass faults project changed includeTestFiles db
  /-- when a checked one fails, the savepoint is there and the rollback works, or nothing has been
      written so far -/
  undone : faults .prepareFileList = false → fileList faults project changed db ≠ [] →
    checksPass faults project includeTestFiles db (fileList faults project changed db) = false →
      faults .savepoint = false ∧ faults .rollback = false ∨
        NothingPasses faults project changed includeTestFiles db

end AllOrNothing

/-! ## The parts of a run -/

section Parts

variable {faults : GraphFaults} {project : ℕ} {changed : Option (List Str)}
  {includeTestFiles : Bool} {db : RebuildDb} {files : List Str}

/-- `_rf` has the files, behind the rows of a table that could not be dropped. -/
theorem mem_fillRf {rf : Finset Str} (h : fillRf faults db files = some rf) {f : Str} :
    f ∈ rf ↔ f ∈ files ∨ faults .dropRf = true ∧ ∃ left ∈ db.rf, f ∈ left := by
  unfold fillRf at h
  obtain ⟨base, hbase, hfill⟩ := Option.bind_eq_some_iff.mp h
  split_ifs at hfill
  obtain rfl := Option.some.inj hfill
  have hdropped : (droppedRf faults db).getD ∅ = base := by
    unfold createdRf at hbase
    split_ifs at hbase
    · rw [hbase]
      rfl
    · exact Option.some.inj hbase
  have hmem : f ∈ base ↔ faults .dropRf = true ∧ ∃ left ∈ db.rf, f ∈ left := by
    rw [← hdropped, droppedRf]
    split_ifs with hdrop
    · cases db.rf with
      | none => simp
      | some left => simp [hdrop]
    · simp [hdrop]
  rw [Finset.mem_union, List.mem_toFinset, hmem, or_comm]

/-- A run that no checked statement stops has written what it read. -/
theorem performed_of_checksPass
    (h : checksPass faults project includeTestFiles db files = true) :
    ∃ rf ids, fillRf faults db files = some rf ∧
      r2nTable faults project db rf (idOffset faults project db files) = some ids ∧
      performed faults project includeTestFiles db files =
        .complete (files.flatMap (deleteGraphDataByFile faults)) rf ids
          (importPlan (importRowsRead faults project includeTestFiles db rf)).flatten := by
  unfold checksPass at h
  cases hrf : fillRf faults db files with
  | none =>
      rw [hrf] at h
      exact absurd h (by simp)
  | some rf =>
      rw [hrf] at h
      simp only [Bool.and_eq_true, Bool.not_eq_true'] at h
      obtain ⟨⟨⟨⟨⟨hnoted, hids⟩, hflush⟩, hresolver⟩, _⟩, _⟩ := h
      obtain ⟨ids, hids⟩ := Option.isSome_iff_exists.mp hids
      have hpass : ∀ s ∈ notedSteps, faults s = false := by
        intro s hs
        simpa using List.all_eq_true.mp hnoted s hs
      have himports : flushImports faults (importRowsRead faults project includeTestFiles db rf) =
          (importPlan (importRowsRead faults project includeTestFiles db rf)).flatten := by
        rw [flushImports, List.filter_eq_self.mpr (List.all_eq_true.mp hflush),
          map_numberedBatches]
      refine ⟨rf, ids, rfl, hids, ?_⟩
      unfold performed GraphWrites.complete
      rw [hrf]
      simp only [hids, himports, hresolver, hpass .insertEntity (by decide),
        hpass .insertRoute (by decide), hpass .insertTypeInfo (by decide),
        hpass .insertTypeRef (by decide), hpass .insertReference (by decide),
        hpass .insertModuleScopes (by decide), hpass .insertFunctionScopes (by decide),
        hpass .deleteOrphanModules (by decide), hpass .deleteOrphanFunctions (by decide),
        hpass .updateImportScopes (by decide), Bool.false_eq_true, if_false, Option.map_some,
        Bool.not_false]

theorem fileList_sublist :
    (fileList faults project changed db).Sublist (rebuildFiles project changed db.records) :=
  (readRows_initial _ _ _).sublist.filter _

theorem rebuildFiles_nodup : (rebuildFiles project changed db.records).Nodup :=
  (List.nodup_dedup _).filter _

theorem mem_deletedTables (t : DeletedTable) : t ∈ deletedTables := by
  cases t <;> decide

theorem mem_deleteGraphDataByFile {f g : Str} {t : DeletedTable} :
    (g, t) ∈ deleteGraphDataByFile faults f ↔ g = f ∧ f ≠ [] ∧ faults (.delete f t) = false := by
  unfold deleteGraphDataByFile
  split_ifs with hempty
  · simp [hempty]
  · rw [List.mem_map]
    constructor
    · rintro ⟨s, hs, heq⟩
      obtain ⟨rfl, rfl⟩ := Prod.mk.inj heq
      exact ⟨rfl, hempty, by simpa using (List.mem_filter.mp hs).2⟩
    · rintro ⟨rfl, _, hpass⟩
      exact ⟨t, List.mem_filter.mpr ⟨mem_deletedTables t, by simpa using hpass⟩, rfl⟩

/-- The DELETEs of a run are those of a run without faults exactly when every file is read and all
    its DELETEs go through. -/
theorem deletes_eq_iff :
    (fileList faults project changed db).flatMap (deleteGraphDataByFile faults) =
        (rebuildFiles project changed db.records).flatMap (deleteGraphDataByFile noGraphFaults) ↔
      ∀ f ∈ rebuildFiles project changed db.records, f ≠ [] →
        f ∈ fileList faults project changed db ∧ ∀ t, faults (.delete f t) = false := by
  constructor
  · intro heq f hf hnamed
    have hmem : ∀ t, f ∈ fileList faults project changed db ∧ faults (.delete f t) = false := by
      intro t
      have hall : (f, t) ∈ (rebuildFiles project changed db.records).flatMap
          (deleteGraphDataByFile noGraphFaults) :=
        List.mem_flatMap.mpr ⟨f, hf, mem_deleteGraphDataByFile.mpr ⟨rfl, hnamed, rfl⟩⟩
      rw [← heq] at hall
      obtain ⟨g, hg, hdeleted⟩ := List.mem_flatMap.mp hall
      obtain ⟨rfl, _, hpass⟩ := mem_deleteGraphDataByFile.mp hdeleted
      exact ⟨hg, hpass⟩
    exact ⟨(hmem .relation).1, fun t => (hmem t).2⟩
  · intro hall
    have hskip : ∀ (faults : GraphFaults) (files : List Str),
        files.flatMap (deleteGraphDataByFile faults) =
          (files.filter fun f => f ≠ []).flatMap (deleteGraphDataByFile faults) := by
      intro faults files
      induction files with
      | nil => rfl
      | cons f rest ih =>
          rw [List.flatMap_cons, List.filter_cons, ih]
          by_cases hempty : f = []
          · simp [hempty, deleteGraphDataByFile]
          · simp [hempty]
    have hfiles : (fileList faults project changed db).filter (fun f => f ≠ []) =
        (rebuildFiles project changed db.records).filter fun f => f ≠ [] := by
      refine (fileList_sublist.filter _).eq_of_length_le ?_
      refine (List.Nodup.subperm (rebuildFiles_nodup.filter _) ?_).length_le
      intro f hf
      obtain ⟨hmem, hnamed⟩ := List.mem_filter.mp hf
      exact List.mem_filter.mpr ⟨(hall f hmem (of_decide_eq_true hnamed)).1, hnamed⟩
    rw [hskip faults, hskip noGraphFaults, hfiles]
    refine List.flatMap_congr ?_
    intro f hf
    obtain ⟨hmem, hnamed⟩ := List.mem_filter.mp hf
    have hpass := (hall f hmem (of_decide_eq_true hnamed)).2
    simp only [deleteGraphDataByFile, hpass, noGraphFaults]

theorem retained_congr {files' : List Str} (entities : EntityTable)
    (h : ∀ f, f ≠ [] → (f ∈ files ↔ f ∈ files')) :
    (retained project files entities).rows = (retained project files' entities).rows := by
  rw [retained_rows, retained_rows]
  refine List.filter_congr ?_
  intro e _
  by_cases hempty : e.filePath = []
  · simp [hempty]
  · simp [hempty, h e.filePath hempty]

/-- When the DELETEs go through, the entities left are those of a run without faults. -/
theorem maxId_entitiesLeft (hdeletes : ∀ f ∈ rebuildFiles project changed db.records, f ≠ [] →
      f ∈ fileList faults project changed db ∧ ∀ t, faults (.delete f t) = false) :
    (entitiesLeft faults project db (fileList faults project changed db)).maxId =
      (retainedEntities project changed db.records db.entities).maxId := by
  have hfold : entitiesLeft faults project db (fileList faults project changed db) =
      retained project ((fileList faults project changed db).filter fun f =>
        ! faults (.delete f .entity)) db.entities := by
    rw [entitiesLeft, retained, List.foldl_filter]
    congr 1
    funext t f
    cases faults (.delete f .entity) <;> rfl
  have hrows : (entitiesLeft faults project db (fileList faults project changed db)).rows =
      (retainedEntities project changed db.records db.entities).rows := by
    rw [hfold, retainedEntities]
    refine retained_congr db.entities ?_
    intro f hnamed
    rw [List.mem_filter]
    constructor
    · rintro ⟨hf, _⟩
      exact fileList_sublist.subset hf
    · intro hf
      obtain ⟨hmem, hpass⟩ := hdeletes f hf hnamed
      exact ⟨hmem, by simp [hpass .entity]⟩
  exact EntityTable.maxId_eq_of_perm (List.Perm.of_eq hrows)

/-- Rows that are not read leave no batch out exactly when they have no paths. -/
theorem importPlan_eq_iff {read rows : List (Str × Str)} (hread : read <+: rows) :
    (importPlan read).flatten = (importPlan rows).flatten ↔
      ∀ row ∈ rows.drop read.length, pathRecs row.1 row.2 = [] := by
  obtain ⟨rest, rfl⟩ := hread
  have hbatches : ∀ paths : List PathRec, importBatches [] paths = [] ↔ paths = [] := by
    intro paths
    constructor
    · intro hnone
      rw [← List.nil_append paths, ← flatten_importBatches, hnone]
      rfl
    · rintro rfl
      rfl
  rw [List.drop_left, importPlan, importPlan, List.map_append, List.flatten_append,
    List.self_eq_append_right, List.flatten_eq_nil_iff, List.forall_mem_map]
  exact forall₂_congr fun row _ => hbatches _

theorem importRowsRead_initial (rf : Finset Str) :
    importRowsRead faults project includeTestFiles db rf <+:
      importRows project includeTestFiles db rf := by
  unfold importRowsRead
  split_ifs
  · exact List.nil_prefix
  · exact readRows_initial _ _ _

/-! ## A run without faults -/

theorem fileList_noFaults :
    fileList noGraphFaults project changed db = rebuildFiles project changed db.records := by
  have hread : readRows (fun i => noGraphFaults (.stepFileList i)) 0
      ((recordsOf project db.records).map (·.filePath)).dedup =
      ((recordsOf project db.records).map (·.filePath)).dedup := readRows_all (fun _ => rfl) _ _
  rw [fileList, hread, rebuildFiles]

theorem fillRf_noFaults : fillRf noGraphFaults db files = some files.toFinset := by
  simp [fillRf, createdRf, droppedRf, noGraphFaults]

theorem importRowsRead_noFaults (rf : Finset Str) :
    importRowsRead noGraphFaults project includeTestFiles db rf =
      importRows project includeTestFiles db rf := by
  rw [importRowsRead]
  exact readRows_all (fun _ => rfl) _ _

theorem checksPass_noFaults (project : ℕ) (includeTestFiles : Bool) (db : RebuildDb)
    (files : List Str) : checksPass noGraphFaults project includeTestFiles db files = true := by
  rw [checksPass, fillRf_noFaults]
  simp [r2nTable, noGraphFaults]

theorem rebuiltIds_eq :
    rebuiltIds project changed db = entityIds project changed db.records db.entities := by
  have hrows : (recordsOf project db.records).filter
        (fun row => row.declares && row.filePath ∈ rebuiltSet project changed db) =
      (recordsOf project db.records).filter
        (RecordRow.eligible (rebuildFiles project changed db.records)) := by
    refine List.filter_congr ?_
    intro row _
    simp [RecordRow.eligible, rebuiltSet]
  rw [rebuiltIds, numbered, hrows]
  rfl

/-- **Without faults a run succeeds and writes everything.** -/
theorem buildGraph_noFaults (hsome : rebuildFiles project changed db.records ≠ []) :
    buildGraph noGraphFaults project changed includeTestFiles db = (true,
      .complete ((rebuildFiles project changed db.records).flatMap
          (deleteGraphDataByFile noGraphFaults))
        (rebuiltSet project changed db) (rebuiltIds project changed db)
        (importPlan (importRows project includeTestFiles db
          (rebuiltSet project changed db))).flatten) := by
  have hchecks := checksPass_noFaults project includeTestFiles db
    (rebuildFiles project changed db.records)
  obtain ⟨rf, ids, hrf, hids, hperformed⟩ := performed_of_checksPass hchecks
  obtain rfl : rebuiltSet project changed db = rf := by
    rw [fillRf_noFaults] at hrf
    exact Option.some.inj hrf
  have hoffset : idOffset noGraphFaults project db (rebuildFiles project changed db.records) =
      (retainedEntities project changed db.records db.entities).maxId := rfl
  obtain rfl : rebuiltIds project changed db = ids := by
    rw [hoffset] at hids
    exact Option.some.inj hids
  rw [importRowsRead_noFaults] at hperformed
  have hfiles : fileList noGraphFaults project changed db ≠ [] := by
    rwa [fileList_noFaults]
  unfold buildGraph
  rw [if_neg (by simp [noGraphFaults])]
  dsimp only
  rw [if_neg hfiles, fileList_noFaults, if_pos hchecks, hperformed]

/-! ## When a run keeps its promise -/

theorem r2nTable_eq_some {rf : Finset Str} {offset : Int} {ids : NodeIds} :
    r2nTable faults project db rf offset = some ids ↔
      (faults .dropR2n = true ∧ db.r2n = some ids) ∨
        (faults .dropR2n = false ∨ db.r2n = none) ∧
          faults .createR2n = false ∧ ids = numbered project db rf offset := by
  unfold r2nTable
  cases hdrop : faults .dropR2n <;> cases hleft : db.r2n <;> cases hcreate : faults .createR2n <;>
    simp [eq_comm]

/-- The ids of a run that no checked statement stops are the right ones exactly when `_r2n` is no
    left-over table and the offset is read where it matters. -/
theorem ids_eq_iff {ids : NodeIds}
    (hdeletes : ∀ f ∈ rebuildFiles project changed db.records, f ≠ [] →
      f ∈ fileList faults project changed db ∧ ∀ t, faults (.delete f t) = false)
    (hids : r2nTable faults project db (rebuiltSet project changed db)
      (idOffset faults project db (fileList faults project changed db)) = some ids) :
    ids = rebuiltIds project changed db ↔
      (faults .dropR2n = true ∧ db.r2n = some (rebuiltIds project changed db)) ∨
        (faults .dropR2n = false ∨ db.r2n = none) ∧
          (faults .prepareMaxId = false ∧ faults .stepMaxId = false ∨
            (retainedEntities project changed db.records db.entities).maxId = 0 ∨
            rebuiltIds project changed db = []) := by
  have hnew : ids = numbered project db (rebuiltSet project changed db)
        (idOffset faults project db (fileList faults project changed db)) →
      (ids = rebuiltIds project changed db ↔
        faults .prepareMaxId = false ∧ faults .stepMaxId = false ∨
          (retainedEntities project changed db.records db.entities).maxId = 0 ∨
          rebuiltIds project changed db = []) := by
    intro hnumbered
    have hoffset : idOffset faults project db (fileList faults project changed db) =
        (retainedEntities project changed db.records db.entities).maxId ↔
        faults .prepareMaxId = false ∧ faults .stepMaxId = false ∨
          (retainedEntities project changed db.records db.entities).maxId = 0 := by
      rw [idOffset, maxId_entitiesLeft hdeletes]
      cases faults .prepareMaxId <;> cases faults .stepMaxId <;> simp [eq_comm]
    rw [hnumbered, rebuiltIds, numbered, numbered, Ranking.ranked_eq_ranked_iff, hoffset, or_assoc]
  rcases r2nTable_eq_some.mp hids with ⟨hdrop, hleft⟩ | ⟨hgone, _, hnumbered⟩
  · simp [hdrop, hleft]
  · rw [hnew hnumbered]
    rcases hgone with hdrop | hnone
    · simp [hdrop]
    · simp [hnone]

theorem deletes_eq_nil_iff : files.flatMap (deleteGraphDataByFile faults) = [] ↔
    ∀ f ∈ files, f ≠ [] → ∀ t, faults (.delete f t) = true := by
  rw [List.flatMap_eq_nil_iff]
  refine forall₂_congr ?_
  intro f _
  constructor
  · intro hnil hnamed t
    by_contra hpass
    have hmem : (f, t) ∈ deleteGraphDataByFile faults f :=
      mem_deleteGraphDataByFile.mpr ⟨rfl, hnamed, by simpa using hpass⟩
    rw [hnil] at hmem
    exact List.not_mem_nil hmem
  · intro hfail
    refine List.eq_nil_iff_forall_not_mem.mpr ?_
    rintro ⟨g, t⟩ hmem
    obtain ⟨_, hnamed, hpass⟩ := mem_deleteGraphDataByFile.mp hmem
    simp [hfail hnamed t] at hpass

theorem flushImports_eq_nil_iff {rows : List (Str × Str)} : flushImports faults rows = [] ↔
    ∀ b ∈ numberedBatches rows, faults (.insertImports b.2.1 b.2.2) = true := by
  rw [flushImports, List.map_eq_nil_iff, List.filter_eq_nil_iff]
  simp only [Bool.not_eq_true', Bool.not_eq_false]

/-- What a run has written is empty exactly when none of its statements has taken effect. -/
theorem performed_eq_empty_iff :
    performed faults project includeTestFiles db (fileList faults project changed db) = {} ↔
      NothingPasses faults project changed includeTestFiles db := by
  have hshape : NothingPasses faults project changed includeTestFiles db ↔ _ ∧ _ :=
    ⟨fun h => ⟨h.deletes, h.writes⟩, fun h => ⟨h.1, h.2⟩⟩
  rw [hshape, ← deletes_eq_nil_iff, performed]
  cases hrf : fillRf faults db (fileList faults project changed db) with
  | none => simp
  | some rf =>
      simp only [GraphWrites.mk.injEq, flushImports_eq_nil_iff, Option.some.injEq, forall_eq',
        plainSteps, numberedSteps, List.forall_mem_cons]
      cases r2nTable faults project db rf
          (idOffset faults project db (fileList faults project changed db)) with
      | none | some ids =>
          simp
          tauto

theorem complete_inj {deletes deletes' : List (Str × DeletedTable)} {rf rf' : Finset Str}
    {ids ids' : NodeIds} {imports imports' : List (List PathRec)} :
    GraphWrites.complete deletes rf ids imports = .complete deletes' rf' ids' imports' ↔
      deletes = deletes' ∧ rf = rf' ∧ ids = ids' ∧ imports = imports' := by
  simp only [GraphWrites.complete, GraphWrites.mk.injEq, Option.some.injEq, Prod.mk.injEq]
  tauto

/-- A run that no checked statement stops has written everything exactly when the unchecked ones
    have gone through. -/
theorem performed_eq_iff
    (hchecks : checksPass faults project includeTestFiles db
      (fileList faults project changed db) = true) :
    performed faults project includeTestFiles db (fileList faults project changed db) =
        .complete ((rebuildFiles project changed db.records).flatMap
            (deleteGraphDataByFile noGraphFaults))
          (rebuiltSet project changed db) (rebuiltIds project changed db)
          (importPlan (importRows project includeTestFiles db
            (rebuiltSet project changed db))).flatten ↔
      UncheckedStepsPass faults project changed includeTestFiles db := by
  obtain ⟨rf, ids, hrf, hids, hperformed⟩ := performed_of_checksPass hchecks
  have hfilter : rf = rebuiltSet project changed db ↔
      ∀ f, (f ∈ fileList faults project changed db ∨
          faults .dropRf = true ∧ ∃ left ∈ db.rf, f ∈ left) ↔
        f ∈ rebuildFiles project changed db.records := by
    rw [Finset.ext_iff]
    refine forall_congr' ?_
    intro f
    rw [mem_fillRf hrf, rebuiltSet, List.mem_toFinset]
  rw [hperformed, complete_inj]
  constructor
  · rintro ⟨hdeletes, rfl, hsame, himports⟩
    have hgone := deletes_eq_iff.mp hdeletes
    exact ⟨hgone, hfilter.mp rfl, (ids_eq_iff hgone hids).mp hsame,
      (importPlan_eq_iff (importRowsRead_initial _)).mp himports⟩
  · intro hpass
    obtain rfl := hfilter.mpr hpass.filter
    exact ⟨deletes_eq_iff.mpr hpass.deletes, rfl, (ids_eq_iff hpass.deletes hids).mpr hpass.ids,
      (importPlan_eq_iff (importRowsRead_initial _)).mpr hpass.imports⟩

end Parts

/-! ## The three ways through a run -/

section Runs

variable {faults : GraphFaults} {project : ℕ} {changed : Option (List Str)}
  {includeTestFiles : Bool} {db : RebuildDb}

theorem buildGraph_of_prepareFileList (project : ℕ) (changed : Option (List Str))
    (includeTestFiles : Bool) (db : RebuildDb) (h : faults .prepareFileList = true) :
    buildGraph faults project changed includeTestFiles db = (false, {}) := by
  rw [buildGraph, if_pos h]

theorem buildGraph_of_nil (h : faults .prepareFileList = false)
    (hnil : fileList faults project changed db = []) :
    buildGraph faults project changed includeTestFiles db = (true, {}) := by
  rw [buildGraph, if_neg (by simp [h])]
  dsimp only
  rw [if_pos hnil]

theorem buildGraph_of_cons (h : faults .prepareFileList = false)
    (hsome : fileList faults project changed db ≠ []) :
    buildGraph faults project changed includeTestFiles db =
      let written := performed faults project includeTestFiles db
        (fileList faults project changed db)
      if checksPass faults project includeTestFiles db (fileList faults project changed db)
      then (true, written)
      else (false, if faults .savepoint || faults .rollback then written else {}) := by
  rw [buildGraph, if_neg (by simp [h])]
  dsimp only
  rw [if_neg hsome]

theorem complete_ne_empty {deletes : List (Str × DeletedTable)} {rf : Finset Str} {ids : NodeIds}
    {imports : List (List PathRec)} : GraphWrites.complete deletes rf ids imports ≠ {} := by
  intro h
  have hrelations := congrArg GraphWrites.relations h
  simp [GraphWrites.complete] at hrelations

theorem buildGraph_noFaults_writes_nothing_iff (project : ℕ) (changed : Option (List Str))
    (includeTestFiles : Bool) (db : RebuildDb) :
    (buildGraph noGraphFaults project changed includeTestFiles db).2 = {} ↔
      rebuildFiles project changed db.records = [] := by
  by_cases hnone : rebuildFiles project changed db.records = []
  · rw [buildGraph_of_nil rfl (fileList_noFaults.trans hnone)]
    simp [hnone]
  · rw [buildGraph_noFaults hnone]
    simp [hnone, complete_ne_empty]

end Runs

end CodeScope.Store
