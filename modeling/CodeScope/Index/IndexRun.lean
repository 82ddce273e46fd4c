import CodeScope.Store.EntityIds
import CodeScope.Store.ParseFailures

/-! # Incremental runs

`engine_index_project` on a file tree: the files whose time, size and hash are on record are left
alone, the others are parsed and written, and the entities of the parsed files are rebuilt. A run is
right when it leaves what a run on an empty database leaves. -/

namespace CodeScope.Index

open Text (Str str)
open CodeScope.Store

/-! ## The file tree -/

/-- A file that discovery accepts. -/
structure SourceFile where
  path : Str
  mtime : Int
  size : ℕ
  content : List UInt8
deriving DecidableEq

structure Tree where
  files : List SourceFile
  paths : (files.map SourceFile.path).Nodup
  named : ∀ f ∈ files, f.path ≠ []

/-- `h ^= byte; h *= kFnvPrime` -/
def fnvStep (h : UInt64) (byte : UInt8) : UInt64 := (h ^^^ byte.toUInt64) * 1099511628211

/-- The last `n` hexadecimal digits. -/
def hexDigits : ℕ → ℕ → Str
  | 0, _ => []
  | n + 1, h => hexDigits n (h / 16) ++ [Nat.digitChar (h % 16)]

/-- `fileContentHash` of a file that can be read: FNV-1a in 16 digits. -/
def fileContentHash (content : List UInt8) : Str :=
  hexDigits 16 (content.foldl fnvStep 14695981039346656037).toNat

/-- The file at a path. -/
def Tree.fileAt (tree : Tree) (path : Str) : Option SourceFile :=
  KeyedTable.find SourceFile.path tree.files path

/-- The hash of the file at a path, nothing when there is none. -/
def Tree.hashAt (tree : Tree) (path : Str) : Str :=
  ((tree.fileAt path).map fun f => fileContentHash f.content).getD []

/-! ## Discovery -/

/-- The keys of the scan state: `path|mtime|size`, and `path|mtime|size|hash` where there is one. -/
inductive ScanKey where
  | stat (path : Str) (mtime size : Int)
  | hashed (path : Str) (mtime size : Int) (hash : Str)
deriving DecidableEq

def loadFileScanStateBatch (project : ℕ) (scanState : List ScanRow) : List ScanKey :=
  (scanState.filter fun row => row.project = project).flatMap fun row =>
    .stat row.filePath row.mtime row.size ::
      if row.contentHash = [] then []
      else [.hashed row.filePath row.mtime row.size row.contentHash]

/-- The two stages of the gate; a file that cannot be hashed passes on the first. -/
def fileUnchanged (scanState : List ScanKey) (f : SourceFile) : Bool :=
  if .stat f.path f.mtime f.size ∈ scanState then
    let ch := fileContentHash f.content
    if ch = [] then true else .hashed f.path f.mtime f.size ch ∈ scanState
  else false

/-- The files to parse, and whether any file is unchanged. -/
def collectFileJobs (scanState : List ScanKey) (tree : Tree) : List SourceFile × Bool :=
  (tree.files.filter fun f => ! fileUnchanged scanState f, tree.files.any (fileUnchanged scanState))

/-! ## The database -/

/-- The tables a run reads and writes. -/
structure IndexDb where
  source : SourceDb
  entities : EntityTable
  failures : FailureStore

def IndexDb.empty : IndexDb := ⟨⟨[], []⟩, ⟨[], List.nodup_nil⟩, .empty⟩

/-- The scan state of files that are not parsed goes. -/
def cleanupStaleFiles (project : ℕ) (active : List Str) (db : SourceDb) : SourceDb :=
  { db with scanState := db.scanState.filter fun row =>
      row.project ≠ project ∨ row.filePath ∈ active }

/-! ## Parsing -/

/-- What becomes of a file that a worker takes. -/
inductive Outcome where
  | skipped
  | failed (reason : Str)
  | parsed (fr : FileResult)

section Run

variable (parse : Str → List UInt8 → List Record) (maxFileSize : ℕ) (project : ℕ)

/-- The body of a parse worker, in either transport. -/
def parseWorker (knownFailures : List Str) (f : SourceFile) : Outcome :=
  if f.path ∈ knownFailures then .skipped
  else if maxFileSize < f.size then .skipped
  else if f.content = [] then .failed (str "read_empty")
  else
    let records := parse f.path f.content
    if records = [] then .skipped else .parsed ⟨f.path, records, f.mtime, f.size⟩

def resultOf (knownFailures : List Str) (f : SourceFile) : Option FileResult :=
  match parseWorker parse maxFileSize knownFailures f with
  | .parsed fr => some fr
  | _ => none

def failureOf (knownFailures : List Str) (f : SourceFile) : Option ParseFailure :=
  match parseWorker parse maxFileSize knownFailures f with
  | .failed reason => some ⟨project, f.path, reason⟩
  | _ => none

def kMemBulkFileThreshold : ℕ := 2000

/-- Small runs aggregate in memory, unless streaming is forced. -/
def transportOf (forceStreaming : Bool) (jobs : List SourceFile) (isReindex : Bool) : Transport :=
  if jobs.length ≤ kMemBulkFileThreshold ∧ forceStreaming = false then .membulk isReindex
  else .streaming

/-! ## A run -/

/-- `engine_index_project` with every statement succeeding. The workers finish in any order, so the
    results come in any order and any batches, and so do the failures. -/
inductive IndexRun (tree : Tree) (retryMax : Int) (forceStreaming : Bool) (db : IndexDb) :
    IndexDb → Prop where
  | unchanged (hjobs : (collectFileJobs (loadFileScanStateBatch project db.source.scanState)
      tree).1 = []) : IndexRun tree retryMax forceStreaming db db
  | indexed (jobs : List SourceFile) (isReindex : Bool) (cuts : List (List FileResult))
      (failed : List ParseFailure)
      (hdiscovered : collectFileJobs (loadFileScanStateBatch project db.source.scanState) tree =
        (jobs, isReindex))
      (hjobs : jobs ≠ [])
      (hcuts : cuts.flatten.Perm (jobs.filterMap (resultOf parse maxFileSize
        (db.failures.loadKnownParseFailures project retryMax))))
      (hfailed : failed.Perm (jobs.filterMap (failureOf parse maxFileSize project
        (db.failures.loadKnownParseFailures project retryMax)))) :
      IndexRun tree retryMax forceStreaming db
        (let paths := jobs.map SourceFile.path
        let cleaned := cleanupStaleFiles project paths db.source
        let source := writeBatches tree.hashAt project (transportOf forceStreaming jobs isReindex)
          cleaned cuts
        let changed := if isReindex then some paths else none
        ⟨source, buildEntities project changed source.records db.entities false,
          ((failed.foldl FailureStore.bufferParseFailure db.failures).flushParseFailures true).2⟩)

/-! ## What a run reads -/

/-- The files the run parses. -/
def jobsOf (tree : Tree) (db : IndexDb) : List SourceFile :=
  (collectFileJobs (loadFileScanStateBatch project db.source.scanState) tree).1

/-- The run finds an unchanged file. -/
def isReindexRun (tree : Tree) (db : IndexDb) : Bool :=
  (collectFileJobs (loadFileScanStateBatch project db.source.scanState) tree).2

/-- The run deletes the records of the files it writes. -/
def deletesOld (tree : Tree) (forceStreaming : Bool) (db : IndexDb) : Bool :=
  (transportOf forceStreaming (jobsOf project tree db) (isReindexRun project tree db)).isReindex

/-- The files the workers do not take. -/
def knownFailures (retryMax : Int) (db : IndexDb) : List Str :=
  db.failures.loadKnownParseFailures project retryMax

/-- What the run writes for a path. -/
def resultAt (tree : Tree) (retryMax : Int) (db : IndexDb) (path : Str) : Option FileResult :=
  (KeyedTable.find SourceFile.path (jobsOf project tree db) path).bind
    (resultOf parse maxFileSize (knownFailures project retryMax db))

end Run

/-! ## The file tree -/

variable {tree : Tree} {f : SourceFile}

theorem Tree.fileAt_of_mem (hf : f ∈ tree.files) : tree.fileAt f.path = some f :=
  (KeyedTable.mem_iff_find tree.paths).mp hf

theorem Tree.mem_of_fileAt {path : Str} (h : tree.fileAt path = some f) :
    f ∈ tree.files ∧ f.path = path :=
  ⟨List.mem_of_find?_eq_some h, KeyedTable.key_of_find h⟩

theorem Tree.not_mem_of_fileAt {path : Str} (h : tree.fileAt path = none) :
    ∀ f ∈ tree.files, f.path ≠ path := by
  intro f hf heq
  exact List.find?_eq_none.mp h f hf (by simpa using heq)

theorem Tree.hashAt_of_mem (hf : f ∈ tree.files) :
    tree.hashAt f.path = fileContentHash f.content := by
  rw [Tree.hashAt, Tree.fileAt_of_mem hf]
  rfl

/-! ## The gate -/

theorem length_hexDigits (n h : ℕ) : (hexDigits n h).length = n := by
  induction n generalizing h with
  | zero => rfl
  | succ n ih => rw [hexDigits, List.length_append, ih, List.length_singleton]

theorem fileContentHash_ne_nil (content : List UInt8) : fileContentHash content ≠ [] := by
  refine List.ne_nil_of_length_pos ?_
  rw [fileContentHash, length_hexDigits]
  exact Nat.succ_pos 15

/-- A file passes the gate when its time, its size and its hash are on record. -/
theorem mem_of_fileUnchanged {project : ℕ} {scanState : List ScanRow}
    (h : fileUnchanged (loadFileScanStateBatch project scanState) f = true) :
    ⟨project, f.path, f.mtime, f.size, fileContentHash f.content⟩ ∈ scanState := by
  unfold fileUnchanged at h
  split at h
  · rw [if_neg (fileContentHash_ne_nil _), decide_eq_true_eq] at h
    obtain ⟨row, hrow, hkey⟩ := List.mem_flatMap.mp h
    obtain ⟨hmem, hproject⟩ := List.mem_filter.mp hrow
    have hproject' : row.project = project := of_decide_eq_true hproject
    rcases List.mem_cons.mp hkey with hstat | hhashed
    · exact absurd hstat (by simp)
    · split at hhashed
      · exact absurd hhashed List.not_mem_nil
      · rw [List.mem_singleton, ScanKey.hashed.injEq] at hhashed
        obtain ⟨hpath, hmtime, hsize, hhash⟩ := hhashed
        rw [hpath, hmtime, hsize, hhash, ← hproject']
        exact hmem
  · exact absurd h (by simp)

/-! ## Jobs and their results -/

theorem mem_jobsOf {project : ℕ} {db : IndexDb} :
    f ∈ jobsOf project tree db ↔ f ∈ tree.files ∧
      fileUnchanged (loadFileScanStateBatch project db.source.scanState) f = false := by
  rw [jobsOf, collectFileJobs, List.mem_filter, Bool.not_eq_true']

theorem jobsOf_paths (project : ℕ) (tree : Tree) (db : IndexDb) :
    ((jobsOf project tree db).map SourceFile.path).Nodup :=
  tree.paths.sublist (List.filter_sublist.map _)

section Results

variable {parse : Str → List UInt8 → List Record} {maxFileSize : ℕ}

variable {known : List Str}

theorem resultOf_eq_some_iff {f : SourceFile} {fr : FileResult} :
    resultOf parse maxFileSize known f = some fr ↔
      f.path ∉ known ∧ f.size ≤ maxFileSize ∧ f.content ≠ [] ∧ parse f.path f.content ≠ [] ∧
        fr = ⟨f.path, parse f.path f.content, f.mtime, f.size⟩ := by
  unfold resultOf parseWorker
  by_cases hknown : f.path ∈ known
  · simp [hknown]
  · by_cases hsize : maxFileSize < f.size
    · simp [hknown, hsize]
    · by_cases hcontent : f.content = []
      · simp [hknown, hsize, hcontent]
      · by_cases hrecords : parse f.path f.content = []
        · simp [hknown, hsize, hcontent, hrecords]
        · simp [hknown, Nat.le_of_not_lt hsize, hsize, hcontent, hrecords, eq_comm]

theorem resultOf_path {f : SourceFile} {fr : FileResult}
    (h : resultOf parse maxFileSize known f = some fr) : fr.filePath = f.path := by
  rw [(resultOf_eq_some_iff.mp h).2.2.2.2]

theorem resultOf_unhindered {f : SourceFile} {fr : FileResult}
    (h : resultOf parse maxFileSize known f = some fr) :
    resultOf parse maxFileSize [] f = some fr :=
  resultOf_eq_some_iff.mpr ⟨List.not_mem_nil, (resultOf_eq_some_iff.mp h).2⟩

theorem resultsOf_filterMap (known : List Str) (jobs : List SourceFile) (path : Str) :
    resultsOf path (jobs.filterMap (resultOf parse maxFileSize known)) =
      (jobs.filter fun f => f.path = path).filterMap (resultOf parse maxFileSize known) := by
  induction jobs with
  | nil => rfl
  | cons f rest ih =>
      rw [List.filterMap_cons]
      cases hresult : resultOf parse maxFileSize known f with
      | none =>
          rw [ih, List.filter_cons]
          split_ifs
          · rw [List.filterMap_cons, hresult]
          · rfl
      | some fr =>
          rw [resultsOf_cons, ih, resultOf_path hresult, List.filter_cons]
          by_cases hpath : f.path = path
          · rw [if_pos hpath, if_pos (by simpa using hpath), List.filterMap_cons, hresult]
          · rw [if_neg hpath, if_neg (by simpa using hpath)]

variable (parse maxFileSize) in
/-- Each path has one job at most, so it has one result at most. -/
theorem resultsOf_jobs (project : ℕ) (tree : Tree) (retryMax : Int) (db : IndexDb) (path : Str) :
    resultsOf path ((jobsOf project tree db).filterMap
        (resultOf parse maxFileSize (knownFailures project retryMax db))) =
      (resultAt parse maxFileSize project tree retryMax db path).toList := by
  rw [resultsOf_filterMap, resultAt]
  cases hfind : KeyedTable.find SourceFile.path (jobsOf project tree db) path with
  | none =>
      have hnone : (jobsOf project tree db).filter (fun f => f.path = path) = [] :=
        List.filter_eq_nil_iff.mpr (List.find?_eq_none.mp hfind)
      rw [hnone]
      rfl
  | some f =>
      have hmem : f ∈ jobsOf project tree db := List.mem_of_find?_eq_some hfind
      have hone := KeyedTable.filter_key_eq_singleton (jobsOf_paths project tree db) hmem
      rw [KeyedTable.key_of_find hfind] at hone
      rw [hone, Option.bind_some, List.filterMap_cons, List.filterMap_nil]
      cases resultOf parse maxFileSize (knownFailures project retryMax db) f with
      | none => rfl
      | some fr => rfl

end Results

/-! ## What a run leaves -/

section Leaves

variable {parse : Str → List UInt8 → List Record} {maxFileSize project : ℕ} {tree : Tree}
  {retryMax : Int} {forceStreaming : Bool} {db db' : IndexDb}

theorem resultAt_of_no_jobs (hjobs : jobsOf project tree db = []) (path : Str) :
    resultAt parse maxFileSize project tree retryMax db path = none := by
  rw [resultAt, hjobs]
  rfl

/-- The results that the batches hold for a path. -/
theorem resultsOf_cuts {cuts : List (List FileResult)}
    (hcuts : cuts.flatten.Perm ((jobsOf project tree db).filterMap
      (resultOf parse maxFileSize (knownFailures project retryMax db)))) (path : Str) :
    resultsOf path cuts.flatten =
      (resultAt parse maxFileSize project tree retryMax db path).toList := by
  have hperm := hcuts.filter fun fr => fr.filePath = path
  have hjobs := resultsOf_jobs parse maxFileSize project tree retryMax db path
  rw [resultsOf] at hjobs ⊢
  rw [hjobs] at hperm
  cases hresult : resultAt parse maxFileSize project tree retryMax db path with
  | none =>
      rw [hresult] at hperm
      exact hperm.eq_nil
  | some fr =>
      rw [hresult] at hperm
      exact List.perm_singleton.mp hperm

variable (hrun : IndexRun parse maxFileSize project tree retryMax forceStreaming db db')
include hrun

/-- **The records of a path after a run**: those of its result, behind the old ones when the run
    deletes none; the old ones when it has no result. -/
theorem rowsOf_indexRun (path : Str) :
    rowsOf project path db'.source.records =
      match resultAt parse maxFileSize project tree retryMax db path with
      | some fr =>
          (if deletesOld project tree forceStreaming db = true then []
            else rowsOf project path db.source.records) ++ fr.rows project
      | none => rowsOf project path db.source.records := by
  cases hrun with
  | unchanged hjobs => rw [resultAt_of_no_jobs hjobs]
  | indexed jobs isReindex cuts failed hdiscovered hjobs hcuts hfailed =>
      obtain rfl : jobsOf project tree db = jobs := congrArg Prod.fst hdiscovered
      obtain rfl : isReindexRun project tree db = isReindex := congrArg Prod.snd hdiscovered
      have hresults := resultsOf_cuts hcuts path
      dsimp only
      rw [rowsOf_writeBatches, hresults]
      cases hresult : resultAt parse maxFileSize project tree retryMax db path with
      | none =>
          rw [hresult] at hresults
          have hsub := reach_sublist (transportOf forceStreaming (jobsOf project tree db)
            (isReindexRun project tree db)) cuts path
          rw [hresults] at hsub
          rw [List.sublist_nil.mp hsub]
          simp [cleanupStaleFiles]
      | some fr =>
          rw [hresult] at hresults
          rw [reach_of_singleton _ hresults]
          cases hdeletes : deletesOld project tree forceStreaming db with
          | false =>
              rw [deletesOld] at hdeletes
              simp [cleanupStaleFiles, hdeletes]
          | true =>
              rw [deletesOld] at hdeletes
              simp [hdeletes]

theorem nodup_indexRun (hkeys : (db.source.scanState.map ScanRow.key).Nodup) :
    (db'.source.scanState.map ScanRow.key).Nodup := by
  cases hrun with
  | unchanged hjobs => exact hkeys
  | indexed jobs isReindex cuts failed hdiscovered hjobs hcuts hfailed =>
      rw [scanState_writeBatches]
      exact nodup_scanState _ _ (hkeys.sublist (List.filter_sublist.map _)) _

/-- **The scan state after a run** is that of the results, and what is left of the old one. -/
theorem scanState_indexRun (hkeys : (db.source.scanState.map ScanRow.key).Nodup) {row : ScanRow}
    (hrow : row ∈ db'.source.scanState) (hproject : row.project = project) :
    match resultAt parse maxFileSize project tree retryMax db row.filePath with
    | some fr => row = fr.scanRow tree.hashAt project
    | none => row ∈ db.source.scanState := by
  have hkeys' := nodup_indexRun hrun hkeys
  cases hrun with
  | unchanged hjobs =>
      rw [resultAt_of_no_jobs hjobs]
      exact hrow
  | indexed jobs isReindex cuts failed hdiscovered hjobs hcuts hfailed =>
      obtain rfl : jobsOf project tree db = jobs := congrArg Prod.fst hdiscovered
      dsimp only at hrow hkeys'
      have hfind := (KeyedTable.mem_iff_find hkeys').mp hrow
      have hkey : row.key = (project, row.filePath) := by rw [← hproject]; rfl
      rw [hkey, scanState_writeBatches, find_scanState, resultsOf_cuts hcuts] at hfind
      cases hresult : resultAt parse maxFileSize project tree retryMax db row.filePath with
      | none =>
          rw [hresult] at hfind
          exact List.mem_of_mem_filter (List.mem_of_find?_eq_some hfind)
      | some fr =>
          rw [hresult] at hfind
          exact (Option.some.inj hfind).symm

/-- **The entities of a path after a run**: new ones when the path has records and the rebuild
    takes it, else the old ones. -/
theorem entitiesOf_indexRun {path : Str}
    (hnamed : rowsOf project path db'.source.records ≠ [] → path ≠ []) :
    (entitiesOf project path db'.entities).Perm
      (if jobsOf project tree db ≠ [] ∧ rowsOf project path db'.source.records ≠ [] ∧
          (isReindexRun project tree db = true → ∃ f ∈ jobsOf project tree db, f.path = path) then
        entitiesOfRecords false (rowsOf project path db'.source.records)
      else entitiesOf project path db.entities) := by
  cases hrun with
  | unchanged hjobs =>
      rw [if_neg]
      rintro ⟨hsome, _⟩
      exact hsome hjobs
  | indexed jobs isReindex cuts failed hdiscovered hjobs hcuts hfailed =>
      obtain rfl : jobsOf project tree db = jobs := congrArg Prod.fst hdiscovered
      obtain rfl : isReindexRun project tree db = isReindex := congrArg Prod.snd hdiscovered
      dsimp only at hnamed ⊢
      refine (entitiesOf_buildEntities project _ _ db.entities false ?_).trans ?_
      · intro hfile
        exact hnamed (rowsOf_ne_nil_iff.mpr (mem_rebuildFiles.mp hfile).1)
      refine List.Perm.of_eq (if_congr ?_ rfl rfl)
      rw [mem_rebuildFiles, ← rowsOf_ne_nil_iff]
      cases isReindexRun project tree db with
      | false => simp [hjobs]
      | true => simp [hjobs]

end Leaves

end CodeScope.Index
