import CodeScope.Library.KeyedTable
import CodeScope.Library.Text

/-! # Writing the records of parsed files

A parsed file arrives as a `FileResult`; `insertFileResultBatch` stores the records of a batch of
them. It deletes the old rows file by file, unless it is told that the database is fresh, and then
inserts the new rows of the whole batch. -/

namespace CodeScope.Store

open Text (Str str)

/-! ## Records -/

/-- The kinds of `ir::RecordKind`, in the order of their numbers. -/
inductive RecordKind where
  | function | method | «class» | interface | enum | typeAlias | variable | field | parameter
  | callExpr | memberExpr | import | export | literal | comment | translationUnit | typeDecl
  | typeRef | typeAssign | route | interfaceImpl | importBinding
deriving DecidableEq

/-- `ir::Record`, the fields that are stored. -/
structure Record where
  id : ℕ
  kind : RecordKind
  name : Str
  qualifiedName : Str
  parentId : ℕ
  refOriginalId : ℕ
  arity : Int
  isStatic : Bool
  typeName : Str
  callKind : ℕ
  resolveStrategy : Str
  visibility : Int
  startRow : ℕ
  startCol : ℕ
  endRow : ℕ
  endCol : ℕ
  language : Str
  qualifiedTarget : Str
  receiverText : Str
  receiverType : Str
  importAlias : Str
deriving DecidableEq

structure FileResult where
  filePath : Str
  records : List Record
  mtime : Int
  fsize : Int

/-- A row of `semantic_records`, its row id apart. -/
structure RecordRow where
  project : ℕ
  filePath : Str
  record : Record
deriving DecidableEq

/-- A row of `file_scan_state`; the hash is empty for NULL. -/
structure ScanRow where
  project : ℕ
  filePath : Str
  mtime : Int
  size : Int
  contentHash : Str
deriving DecidableEq

def ScanRow.key (row : ScanRow) : ℕ × Str := (row.project, row.filePath)

/-- The tables the indexing run writes first. -/
structure SourceDb where
  records : List RecordRow
  scanState : List ScanRow

/-! ## One batch -/

/-- Literals and variables are not stored. -/
def Record.storable (r : Record) : Bool := r.kind ≠ .literal && r.kind ≠ .variable

/-- The rows of one file. -/
def FileResult.rows (project : ℕ) (fr : FileResult) : List RecordRow :=
  (fr.records.filter Record.storable).map fun r => ⟨project, fr.filePath, r⟩

def deleteRecords (project : ℕ) (filePath : Str) (records : List RecordRow) : List RecordRow :=
  records.filter fun row => ¬ (row.project = project ∧ row.filePath = filePath)

/-- The `file_scan_state` row of a result: `hashOf` reads the file. -/
def FileResult.scanRow (hashOf : Str → Str) (project : ℕ) (fr : FileResult) : ScanRow :=
  ⟨project, fr.filePath, fr.mtime, fr.fsize, hashOf fr.filePath⟩

/-- `INSERT … ON CONFLICT DO UPDATE` of the scan state of one file. -/
def writeScanState (hashOf : Str → Str) (project : ℕ) (scanState : List ScanRow)
    (fr : FileResult) : List ScanRow :=
  KeyedTable.upsert ScanRow.key (fun _ => fr.scanRow hashOf project) (fr.scanRow hashOf project)
    scanState

/-- The statements of one file, before the records of the batch. -/
def writeFileRows (hashOf : Str → Str) (project : ℕ) (isReindex : Bool) (db : SourceDb)
    (fr : FileResult) : SourceDb where
  scanState := writeScanState hashOf project db.scanState fr
  records := if isReindex then deleteRecords project fr.filePath db.records else db.records

/-- The records go into the table in statements of up to 500 rows, one after the other. -/
def insertFileResultBatch (hashOf : Str → Str) (project : ℕ) (isReindex : Bool) (db : SourceDb)
    (batch : List FileResult) : SourceDb :=
  let db := batch.foldl (writeFileRows hashOf project isReindex) db
  { db with records := db.records ++ batch.flatMap (FileResult.rows project) }

/-! ## The transports -/

/-- How the results of the parse workers reach the database: collected in memory and written with
    the flag of the run, or streamed to a writer, which never takes the database for fresh. -/
inductive Transport where
  | membulk (isReindex : Bool)
  | streaming

def Transport.isReindex : Transport → Bool
  | .membulk isReindex => isReindex
  | .streaming => true

/-- The batches of a run, in the order they are written. -/
def writeBatches (hashOf : Str → Str) (project : ℕ) (transport : Transport) (db : SourceDb)
    (cuts : List (List FileResult)) : SourceDb :=
  cuts.foldl (insertFileResultBatch hashOf project transport.isReindex) db

/-! ## The rows of a file -/

def rowsOf (project : ℕ) (filePath : Str) (records : List RecordRow) : List RecordRow :=
  records.filter fun row => row.project = project ∧ row.filePath = filePath

/-- The results of a file. -/
def resultsOf (filePath : Str) (results : List FileResult) : List FileResult :=
  results.filter fun fr => fr.filePath = filePath

theorem resultsOf_cons (filePath : Str) (fr : FileResult) (rest : List FileResult) :
    resultsOf filePath (fr :: rest) =
      if fr.filePath = filePath then fr :: resultsOf filePath rest else resultsOf filePath rest := by
  rw [resultsOf, List.filter_cons]
  by_cases hfile : fr.filePath = filePath
  · rw [if_pos hfile, if_pos (by simpa using hfile), resultsOf]
  · rw [if_neg hfile, if_neg (by simpa using hfile), resultsOf]

theorem rowsOf_append (project : ℕ) (filePath : Str) (l m : List RecordRow) :
    rowsOf project filePath (l ++ m) = rowsOf project filePath l ++ rowsOf project filePath m :=
  List.filter_append ..

theorem rowsOf_deleteRecords (project project' : ℕ) (filePath filePath' : Str)
    (records : List RecordRow) :
    rowsOf project filePath (deleteRecords project' filePath' records) =
      if project = project' ∧ filePath = filePath' then [] else rowsOf project filePath records := by
  rw [rowsOf, deleteRecords, List.filter_filter]
  split_ifs with hsame
  · obtain ⟨rfl, rfl⟩ := hsame
    rw [List.filter_eq_nil_iff]
    intro row _ htest
    simp only [Bool.and_eq_true, decide_eq_true_eq] at htest
    exact htest.2 htest.1
  · refine List.filter_congr ?_
    intro row _
    by_cases hrow : row.project = project ∧ row.filePath = filePath
    · obtain ⟨rfl, rfl⟩ := hrow
      simp [hsame]
    · simp [hrow]

/-- The rows of a batch that belong to a file are those of its results. -/
theorem rowsOf_flatMap (project : ℕ) (filePath : Str) (batch : List FileResult) :
    rowsOf project filePath (batch.flatMap (FileResult.rows project)) =
      (resultsOf filePath batch).flatMap (FileResult.rows project) := by
  induction batch with
  | nil => rfl
  | cons fr rest ih =>
      rw [List.flatMap_cons, rowsOf_append, ih, resultsOf_cons]
      by_cases hfile : fr.filePath = filePath
      · have hall : rowsOf project filePath (fr.rows project) = fr.rows project := by
          rw [rowsOf, List.filter_eq_self]
          intro row hrow
          obtain ⟨r, _, rfl⟩ := List.mem_map.mp hrow
          simp [hfile]
        rw [hall, if_pos hfile, List.flatMap_cons]
      · have hnone : rowsOf project filePath (fr.rows project) = [] := by
          rw [rowsOf, List.filter_eq_nil_iff]
          intro row hrow
          obtain ⟨r, _, rfl⟩ := List.mem_map.mp hrow
          simp [hfile]
        rw [hnone, if_neg hfile, List.nil_append]

theorem rowsOf_otherProject {project project' : ℕ} (h : project' ≠ project) (filePath : Str)
    (batch : List FileResult) :
    rowsOf project' filePath (batch.flatMap (FileResult.rows project)) = [] := by
  rw [rowsOf, List.filter_eq_nil_iff]
  intro row hrow
  obtain ⟨fr, _, hfr⟩ := List.mem_flatMap.mp hrow
  obtain ⟨r, _, rfl⟩ := List.mem_map.mp hfr
  simp [Ne.symm h]

section Batch

variable (hashOf : Str → Str) (project : ℕ)

/-- The deletions of a batch reach the rows of its own files. -/
theorem rowsOf_writeFileRows (isReindex : Bool) (db : SourceDb) (batch : List FileResult)
    (project' : ℕ) (filePath : Str) :
    rowsOf project' filePath
        (batch.foldl (writeFileRows hashOf project isReindex) db).records =
      if isReindex = true ∧ project' = project ∧ resultsOf filePath batch ≠ [] then []
      else rowsOf project' filePath db.records := by
  induction batch generalizing db with
  | nil => simp [resultsOf]
  | cons fr rest ih =>
      rw [List.foldl_cons, ih, resultsOf_cons]
      cases isReindex with
      | false => simp [writeFileRows]
      | true =>
          have hrecords : (writeFileRows hashOf project true db fr).records =
              deleteRecords project fr.filePath db.records := rfl
          rw [hrecords, rowsOf_deleteRecords]
          by_cases hproject : project' = project
          · by_cases hfile : fr.filePath = filePath
            · simp [hproject, hfile]
            · simp [hproject, hfile, Ne.symm hfile]
          · simp [hproject]

/-- **A batch leaves each of its files with the rows of all the file's results in the batch**, behind
    the old rows when it deletes none. -/
theorem rowsOf_insertFileResultBatch (isReindex : Bool) (db : SourceDb) (batch : List FileResult)
    (filePath : Str) :
    rowsOf project filePath (insertFileResultBatch hashOf project isReindex db batch).records =
      (if isReindex = true ∧ resultsOf filePath batch ≠ [] then []
        else rowsOf project filePath db.records) ++
        (resultsOf filePath batch).flatMap (FileResult.rows project) := by
  have hdeleted := rowsOf_writeFileRows hashOf project isReindex db batch project filePath
  simp only [true_and] at hdeleted
  rw [insertFileResultBatch, rowsOf_append, rowsOf_flatMap, hdeleted]

theorem rowsOf_insertFileResultBatch_of_ne (isReindex : Bool) (db : SourceDb)
    (batch : List FileResult) {project' : ℕ} (hproject : project' ≠ project) (filePath : Str) :
    rowsOf project' filePath (insertFileResultBatch hashOf project isReindex db batch).records =
      rowsOf project' filePath db.records := by
  have hdeleted := rowsOf_writeFileRows hashOf project isReindex db batch project' filePath
  rw [insertFileResultBatch, rowsOf_append, rowsOf_otherProject hproject, List.append_nil, hdeleted,
    if_neg (by simp [hproject])]

end Batch

/-! ## A whole run -/

/-- The last batch that holds a result of the file. -/
def lastBatch (filePath : Str) (cuts : List (List FileResult)) : List FileResult :=
  ((cuts.filter fun batch => resultsOf filePath batch ≠ []).getLast?).getD []

/-- The results of the file that nothing deletes again: those of its last batch, all of them when
    nothing is deleted. -/
def reach (transport : Transport) (filePath : Str) (cuts : List (List FileResult)) :
    List FileResult :=
  resultsOf filePath (if transport.isReindex then lastBatch filePath cuts else cuts.flatten)

theorem resultsOf_append (filePath : Str) (l m : List FileResult) :
    resultsOf filePath (l ++ m) = resultsOf filePath l ++ resultsOf filePath m :=
  List.filter_append ..

theorem lastBatch_append (filePath : Str) (cuts : List (List FileResult))
    (batch : List FileResult) :
    lastBatch filePath (cuts ++ [batch]) =
      if resultsOf filePath batch ≠ [] then batch else lastBatch filePath cuts := by
  rw [lastBatch, List.filter_append, List.filter_singleton]
  split_ifs with hbatch
  · simp [hbatch]
  · simp [hbatch, lastBatch]

theorem flatten_concat (cuts : List (List FileResult)) (batch : List FileResult) :
    (cuts ++ [batch]).flatten = cuts.flatten ++ batch := by simp

section Run

variable (hashOf : Str → Str) (project : ℕ) (transport : Transport) (db : SourceDb)

theorem writeBatches_append (cuts : List (List FileResult)) (batch : List FileResult) :
    writeBatches hashOf project transport db (cuts ++ [batch]) =
      insertFileResultBatch hashOf project transport.isReindex
        (writeBatches hashOf project transport db cuts) batch := by
  rw [writeBatches, List.foldl_append]
  rfl

theorem rowsOf_writeBatches_other (cuts : List (List FileResult)) {project' : ℕ}
    (hproject : project' ≠ project) (filePath : Str) :
    rowsOf project' filePath (writeBatches hashOf project transport db cuts).records =
      rowsOf project' filePath db.records := by
  induction cuts using List.reverseRecOn with
  | nil => rfl
  | append_singleton cuts batch ih =>
      rw [writeBatches_append, rowsOf_insertFileResultBatch_of_ne _ _ _ _ _ hproject, ih]

/-- **A run leaves a file with the rows of all the results in reach**, behind its old rows when it
    deletes none, and the old rows alone when it has no result of the file. -/
theorem rowsOf_writeBatches (cuts : List (List FileResult)) (filePath : Str) :
    rowsOf project filePath (writeBatches hashOf project transport db cuts).records =
      (if transport.isReindex = true ∧ resultsOf filePath cuts.flatten ≠ [] then []
        else rowsOf project filePath db.records) ++
        (reach transport filePath cuts).flatMap (FileResult.rows project) := by
  unfold reach
  induction cuts using List.reverseRecOn with
  | nil => simp [writeBatches, lastBatch, resultsOf]
  | append_singleton cuts batch ih =>
      rw [writeBatches_append, rowsOf_insertFileResultBatch, ih, lastBatch_append, flatten_concat]
      cases transport.isReindex with
      | false => simp [resultsOf_append, List.append_assoc]
      | true =>
          by_cases hbatch : resultsOf filePath batch = []
          · simp [resultsOf_append, hbatch]
          · simp [resultsOf_append, hbatch]

theorem reach_getLast (cuts : List (List FileResult)) (filePath : Str) :
    (reach transport filePath cuts).getLast? = (resultsOf filePath cuts.flatten).getLast? := by
  unfold reach
  cases transport.isReindex with
  | false => rfl
  | true =>
      rw [if_pos rfl]
      induction cuts using List.reverseRecOn with
      | nil => rfl
      | append_singleton cuts batch ih =>
          rw [lastBatch_append, flatten_concat, resultsOf_append]
          by_cases hbatch : resultsOf filePath batch = []
          · rw [if_neg (by simpa using hbatch), hbatch, List.append_nil, ih]
          · rw [if_pos hbatch, List.getLast?_append_of_ne_nil _ hbatch]

theorem reach_sublist (cuts : List (List FileResult)) (filePath : Str) :
    (reach transport filePath cuts).Sublist (resultsOf filePath cuts.flatten) := by
  unfold reach
  cases transport.isReindex with
  | false => exact List.Sublist.refl _
  | true =>
      rw [if_pos rfl]
      induction cuts using List.reverseRecOn with
      | nil => exact List.Sublist.refl _
      | append_singleton cuts batch ih =>
          rw [lastBatch_append, flatten_concat, resultsOf_append]
          split_ifs
          · exact List.sublist_append_right _ _
          · exact ih.trans (List.sublist_append_left _ _)

theorem reach_of_singleton {cuts : List (List FileResult)} {filePath : Str} {fr : FileResult}
    (h : resultsOf filePath cuts.flatten = [fr]) : reach transport filePath cuts = [fr] := by
  have hsub := reach_sublist transport cuts filePath
  have hlast := reach_getLast transport cuts filePath
  rw [h] at hsub hlast
  rcases List.sublist_singleton.mp hsub with hnone | hone
  · rw [hnone] at hlast
    exact absurd hlast (by simp)
  · exact hone

end Run

/-! ## The scan state of a run -/

section ScanState

variable (hashOf : Str → Str) (project : ℕ) (transport : Transport) (db : SourceDb)

theorem scanState_foldl (isReindex : Bool) (db : SourceDb) (batch : List FileResult) :
    (batch.foldl (writeFileRows hashOf project isReindex) db).scanState =
      batch.foldl (writeScanState hashOf project) db.scanState := by
  induction batch generalizing db with
  | nil => rfl
  | cons fr rest ih =>
      rw [List.foldl_cons, ih, List.foldl_cons]
      rfl

theorem scanState_writeBatches (cuts : List (List FileResult)) :
    (writeBatches hashOf project transport db cuts).scanState =
      cuts.flatten.foldl (writeScanState hashOf project) db.scanState := by
  induction cuts using List.reverseRecOn with
  | nil => rfl
  | append_singleton cuts batch ih =>
      rw [writeBatches_append, insertFileResultBatch, scanState_foldl, ih, flatten_concat,
        List.foldl_append]

theorem nodup_scanState {scanState : List ScanRow} (h : (scanState.map ScanRow.key).Nodup)
    (results : List FileResult) :
    ((results.foldl (writeScanState hashOf project) scanState).map ScanRow.key).Nodup := by
  induction results using List.reverseRecOn with
  | nil => exact h
  | append_singleton results fr ih =>
      rw [List.foldl_append, List.foldl_cons, List.foldl_nil, writeScanState]
      exact KeyedTable.nodup_upsert _ _ _ (fun _ _ => rfl) ih

/-- The scan state of a file is that of its last result, the old one when it has none. -/
theorem find_scanState (scanState : List ScanRow) (results : List FileResult) (filePath : Str) :
    KeyedTable.find ScanRow.key (results.foldl (writeScanState hashOf project) scanState)
        (project, filePath) =
      match (resultsOf filePath results).getLast? with
      | some fr => some (fr.scanRow hashOf project)
      | none => KeyedTable.find ScanRow.key scanState (project, filePath) := by
  induction results using List.reverseRecOn with
  | nil => rfl
  | append_singleton results fr ih =>
      rw [List.foldl_append, List.foldl_cons, List.foldl_nil, writeScanState,
        KeyedTable.find_upsert _ _ _ (fun _ _ => rfl), ih, resultsOf_append]
      have hkey : (fr.scanRow hashOf project).key = (project, filePath) ↔
          fr.filePath = filePath := by
        simp [FileResult.scanRow, ScanRow.key]
      by_cases hfile : fr.filePath = filePath
      · have hone : resultsOf filePath [fr] = [fr] := by simp [resultsOf, hfile]
        rw [if_pos (hkey.mpr hfile), hone, List.getLast?_append_of_ne_nil _ (by simp)]
        cases KeyedTable.find ScanRow.key scanState (project, filePath) <;>
          cases (resultsOf filePath results).getLast? <;> rfl
      · have hnone : resultsOf filePath [fr] = [] := by simp [resultsOf, hfile]
        rw [if_neg (mt hkey.mp hfile), hnone, List.append_nil]

end ScanState

/-! ## When the transport does not matter -/

/-- A run stores the last result of every file it has one of, and touches no other file. -/
structure WritesLast (project : ℕ) (db out : SourceDb) (cuts : List (List FileResult)) : Prop where
  written : ∀ filePath fr, (resultsOf filePath cuts.flatten).getLast? = some fr →
    rowsOf project filePath out.records = fr.rows project
  kept : ∀ filePath, resultsOf filePath cuts.flatten = [] →
    rowsOf project filePath out.records = rowsOf project filePath db.records
  others : ∀ project' ≠ project, ∀ filePath,
    rowsOf project' filePath out.records = rowsOf project' filePath db.records

/-- What the cuts and the database must satisfy. -/
structure CutsFit (project : ℕ) (transport : Transport) (db : SourceDb)
    (cuts : List (List FileResult)) : Prop where
  /-- a run that deletes nothing finds no rows of its files -/
  fresh : transport.isReindex = false → ∀ fr ∈ cuts.flatten,
    rowsOf project fr.filePath db.records = []
  /-- of the results of a file in reach, only the last one has records to store -/
  superseded : ∀ filePath, ∀ fr ∈ (reach transport filePath cuts).dropLast,
    ∀ r ∈ fr.records, r.storable = false

theorem rows_eq_nil_iff (project : ℕ) (fr : FileResult) :
    fr.rows project = [] ↔ ∀ r ∈ fr.records, r.storable = false := by
  rw [FileResult.rows, List.map_eq_nil_iff, List.filter_eq_nil_iff]
  simp

/-- Where a file has a result, its rows are those of the last one exactly when nothing stands in
    front of them. -/
theorem rowsOf_eq_last_iff (hashOf : Str → Str) (project : ℕ) (transport : Transport)
    (db : SourceDb) (cuts : List (List FileResult)) {filePath : Str} {fr : FileResult}
    (hlast : (resultsOf filePath cuts.flatten).getLast? = some fr) :
    rowsOf project filePath (writeBatches hashOf project transport db cuts).records =
        fr.rows project ↔
      (transport.isReindex = false → rowsOf project filePath db.records = []) ∧
        ∀ older ∈ (reach transport filePath cuts).dropLast, ∀ r ∈ older.records,
          r.storable = false := by
  have hsome : resultsOf filePath cuts.flatten ≠ [] := by
    intro hnone
    rw [hnone] at hlast
    exact absurd hlast (by simp)
  have hsplit : (reach transport filePath cuts).dropLast ++ [fr] = reach transport filePath cuts :=
    List.dropLast_append_getLast? fr ((reach_getLast transport cuts filePath).trans hlast)
  have holder : (reach transport filePath cuts).dropLast.flatMap (FileResult.rows project) = [] ↔
      ∀ older ∈ (reach transport filePath cuts).dropLast, ∀ r ∈ older.records,
        r.storable = false := by
    rw [List.flatMap_eq_nil_iff]
    exact forall₂_congr fun older _ => rows_eq_nil_iff project older
  rw [rowsOf_writeBatches, ← hsplit, List.flatMap_append, List.flatMap_singleton,
    ← List.append_assoc, List.append_left_eq_self, List.append_eq_nil_iff, holder, hsplit]
  refine and_congr_left fun _ => ?_
  cases transport.isReindex with
  | false => simp
  | true => simp [hsome]

/-- **The transport and the batching do not matter exactly when a run that deletes nothing is on
    fresh files and no batch holds two results of a file with records in the earlier one.** -/
theorem writes_last_iff (hashOf : Str → Str) (project : ℕ) (transport : Transport) (db : SourceDb)
    (cuts : List (List FileResult)) :
    WritesLast project db (writeBatches hashOf project transport db cuts) cuts ↔
      CutsFit project transport db cuts := by
  have hlast : ∀ filePath, resultsOf filePath cuts.flatten ≠ [] →
      ∃ fr, (resultsOf filePath cuts.flatten).getLast? = some fr := by
    intro filePath hsome
    exact ⟨_, List.getLast?_eq_getLast_of_ne_nil hsome⟩
  constructor
  · intro hwrites
    refine ⟨?_, ?_⟩
    · intro hfresh fr hfr
      have hsome : resultsOf fr.filePath cuts.flatten ≠ [] :=
        List.ne_nil_of_mem (List.mem_filter.mpr ⟨hfr, by simp⟩)
      obtain ⟨last, hlast⟩ := hlast fr.filePath hsome
      have hrows := hwrites.written fr.filePath last hlast
      exact ((rowsOf_eq_last_iff _ _ _ _ _ hlast).mp hrows).1 hfresh
    · intro filePath older holder
      by_cases hsome : resultsOf filePath cuts.flatten = []
      · -- without a result of the file nothing is in reach
        have hnone := reach_getLast transport cuts filePath
        rw [hsome, List.getLast?_nil, List.getLast?_eq_none_iff] at hnone
        rw [hnone] at holder
        exact absurd holder List.not_mem_nil
      · obtain ⟨last, hlast⟩ := hlast filePath hsome
        have hrows := hwrites.written filePath last hlast
        exact ((rowsOf_eq_last_iff _ _ _ _ _ hlast).mp hrows).2 older holder
  · intro hfits
    refine ⟨?_, ?_, ?_⟩
    · intro filePath fr hlast
      rw [rowsOf_eq_last_iff _ _ _ _ _ hlast]
      refine ⟨?_, hfits.superseded filePath⟩
      intro hfresh
      have hmem := List.mem_of_getLast? hlast
      obtain ⟨hfr, hfile⟩ := List.mem_filter.mp hmem
      have hrows := hfits.fresh hfresh fr hfr
      rwa [of_decide_eq_true hfile] at hrows
    · intro filePath hnone
      have hreach := reach_getLast transport cuts filePath
      rw [hnone, List.getLast?_nil, List.getLast?_eq_none_iff] at hreach
      rw [rowsOf_writeBatches, hreach, if_neg (by simp [hnone]), List.flatMap_nil, List.append_nil]
    · intro project' hproject filePath
      exact rowsOf_writeBatches_other hashOf project transport db cuts hproject filePath

/-! ## Rows that stay -/

/-- The record of a function. -/
def functionRecord (name : Str) (row : ℕ) : Record :=
  ⟨1, .function, name, name, 0, 0, 0, false, [], 0, [], 1, row, 0, row + 1, 0, str "c", [], [], [], []⟩

/-- A file is indexed, changed and indexed again in memory, with no other file in the project: the
    run takes the database for fresh and the row of the old function stays. -/
theorem membulk_keeps_old_rows :
    let old : FileResult := ⟨str "a.c", [functionRecord (str "f") 0], 1, 10⟩
    let new : FileResult := ⟨str "a.c", [functionRecord (str "g") 0], 2, 10⟩
    let db := writeBatches (fun _ => []) 1 (.membulk false) ⟨[], []⟩ [[old]]
    ¬ WritesLast 1 db (writeBatches (fun _ => []) 1 (.membulk false) db [[new]]) [[new]] := by
  intro old new db hwrites
  have hrows := hwrites.written (str "a.c") new rfl
  revert hrows
  decide

end CodeScope.Store
