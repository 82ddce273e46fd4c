import CodeScope.Index.IndexRun

/-! # Incremental indexing against fresh indexing

A history is a sequence of file trees with one run on each. The records and entities it leaves are
those of one run on an empty database, as long as every run fits: no file with records disappears,
no file is emptied or written over old records that nothing deletes, and the failures on record hide
nothing. -/

namespace CodeScope.Index

open Text (Str str)
open CodeScope.Store

variable (parse : Str → List UInt8 → List Record) (maxFileSize project : ℕ)

/-! ## Histories -/

/-- A database reached by runs on the trees, the last one first. `allowed` restricts the runs by
    what they start from and what they leave. -/
inductive History (allowed : IndexDb → Tree → Int → Bool → IndexDb → Prop) :
    List Tree → IndexDb → Prop where
  | start : History allowed [] .empty
  | run {trees : List Tree} {db db' : IndexDb} {tree : Tree} {retryMax : Int}
      {forceStreaming : Bool} (hbefore : History allowed trees db)
      (hrun : IndexRun parse maxFileSize project tree retryMax forceStreaming db db')
      (hallowed : allowed db tree retryMax forceStreaming db') :
      History allowed (tree :: trees) db'

/-- The same records and entities, up to row ids and the order of the rows. -/
structure SameIndex (db db' : IndexDb) : Prop where
  records : (recordsOf project db.source.records).Perm (recordsOf project db'.source.records)
  entities : ((db.entities.rows.filter fun e => e.project = project).map EntityRow.anonymous).Perm
    ((db'.entities.rows.filter fun e => e.project = project).map EntityRow.anonymous)

/-- The index is that of any single run on an empty database. -/
def EqualsFresh (tree : Tree) (db : IndexDb) : Prop :=
  ∀ (retryMax : Int) (forceStreaming : Bool) (fresh : IndexDb),
    IndexRun parse maxFileSize project tree retryMax forceStreaming .empty fresh →
      SameIndex project db fresh

/-! ## What a tree stands for -/

/-- The records of a file that nothing hinders. -/
def fileRows (f : SourceFile) : List RecordRow :=
  match resultOf parse maxFileSize [] f with
  | some fr => fr.rows project
  | none => []

/-- The records of a tree at a path. -/
def Tree.rowsAt (tree : Tree) (path : Str) : List RecordRow :=
  ((tree.fileAt path).map (fileRows parse maxFileSize project)).getD []

def Tree.empty : Tree := ⟨[], List.nodup_nil, by simp⟩

/-! ## Runs that fit -/

/-- What the database before a run and the tree must satisfy. -/
structure RunFits (db : IndexDb) (tree : Tree) (retryMax : Int) (forceStreaming : Bool) : Prop where
  /-- every file with records is still there -/
  present : ∀ row ∈ recordsOf project db.source.records, ∃ f ∈ tree.files, f.path = row.filePath
  /-- a file with old records is parsed again by a run that deletes them: a streaming one, or one
      that finds another file unchanged -/
  replaced : ∀ f ∈ jobsOf project tree db,
    (resultOf parse maxFileSize (knownFailures project retryMax db) f).isSome →
      rowsOf project f.path db.source.records ≠ [] →
        deletesOld project tree forceStreaming db = true
  /-- a changed file without a result (too large, empty, without records, or skipped for its
      failures) keeps its old records, so they must be the right ones: in general, none -/
  unparsed : ∀ f ∈ jobsOf project tree db,
    resultOf parse maxFileSize (knownFailures project retryMax db) f = none →
      (rowsOf project f.path db.source.records).Perm (fileRows parse maxFileSize project f)
  /-- a changed file with nothing to store has no entities -/
  bare : ∀ f ∈ jobsOf project tree db, fileRows parse maxFileSize project f = [] →
    entitiesOf project f.path db.entities = []

/-- No file changes its content and keeps its time, its size and its hash. -/
def HashesTell (trees : List Tree) : Prop :=
  ∀ tree ∈ trees, ∀ tree' ∈ trees, ∀ f ∈ tree.files, ∀ f' ∈ tree'.files,
    f.path = f'.path → f.mtime = f'.mtime → f.size = f'.size →
      fileContentHash f.content = fileContentHash f'.content → f.content = f'.content

theorem HashesTell.mono {trees trees' : List Tree} (h : HashesTell trees)
    (hsub : ∀ tree ∈ trees', tree ∈ trees) : HashesTell trees' := by
  intro tree htree tree' htree'
  exact h tree (hsub tree htree) tree' (hsub tree' htree')

/-! ## The invariant -/

/-- The tables stand for the tree, and the scan state for files whose records are stored. -/
structure Consistent (trees : List Tree) (tree : Tree) (db : IndexDb) : Prop where
  records : ∀ path, (rowsOf project path db.source.records).Perm
    (tree.rowsAt parse maxFileSize project path)
  entities : ∀ path, (entitiesOf project path db.entities).Perm
    (entitiesOfRecords false (rowsOf project path db.source.records))
  scanned : ∀ row ∈ db.source.scanState, row.project = project →
    ∃ seen ∈ trees, ∃ f ∈ seen.files,
      row = ⟨project, f.path, f.mtime, f.size, fileContentHash f.content⟩ ∧
        (rowsOf project f.path db.source.records).Perm (fileRows parse maxFileSize project f)
  keys : (db.source.scanState.map ScanRow.key).Nodup

section Step

variable {parse maxFileSize project}

variable {f : SourceFile}

theorem Tree.rowsAt_of_mem {tree : Tree} (hf : f ∈ tree.files) :
    tree.rowsAt parse maxFileSize project f.path = fileRows parse maxFileSize project f := by
  rw [Tree.rowsAt, Tree.fileAt_of_mem hf]
  rfl

theorem fileRows_of_result {known : List Str} {fr : FileResult}
    (h : resultOf parse maxFileSize known f = some fr) :
    fileRows parse maxFileSize project f = fr.rows project := by
  rw [fileRows, resultOf_unhindered h]

theorem consistent_empty : Consistent parse maxFileSize project [] .empty .empty :=
  ⟨fun _ => .nil, fun _ => .nil, fun _ hrow => absurd hrow List.not_mem_nil, List.nodup_nil⟩

variable {trees : List Tree} {tree tree' : Tree} {retryMax : Int} {forceStreaming : Bool}
  {db db' : IndexDb}

theorem find_jobsOf_of_mem (hf : f ∈ jobsOf project tree db) :
    KeyedTable.find SourceFile.path (jobsOf project tree db) f.path = some f :=
  (KeyedTable.mem_iff_find (jobsOf_paths project tree db)).mp hf

theorem find_jobsOf_of_not_mem (hf : f ∈ tree.files) (hjob : f ∉ jobsOf project tree db) :
    KeyedTable.find SourceFile.path (jobsOf project tree db) f.path = none := by
  rw [KeyedTable.find, List.find?_eq_none]
  intro g hg hpath
  have hsame : g = f :=
    List.inj_on_of_nodup_map tree.paths (mem_jobsOf.mp hg).1 hf (of_decide_eq_true hpath)
  exact hjob (hsame ▸ hg)

/-- An unchanged file has its records in the store. -/
theorem rows_of_unchanged (hbefore : Consistent parse maxFileSize project trees tree db)
    (htell : HashesTell (tree' :: trees)) (hf : f ∈ tree'.files)
    (hjob : f ∉ jobsOf project tree' db) :
    (rowsOf project f.path db.source.records).Perm (fileRows parse maxFileSize project f) := by
  have hunchanged : fileUnchanged (loadFileScanStateBatch project db.source.scanState) f = true := by
    by_contra hchanged
    exact hjob (mem_jobsOf.mpr ⟨hf, by simpa using hchanged⟩)
  obtain ⟨seen, hseen, g, hg, hrow, hrows⟩ :=
    hbefore.scanned _ (mem_of_fileUnchanged hunchanged) rfl
  rw [ScanRow.mk.injEq] at hrow
  obtain ⟨_, hpath, hmtime, hsize, hhash⟩ := hrow
  have hsize' : f.size = g.size := Int.ofNat_inj.mp hsize
  have hcontent : f.content = g.content :=
    htell tree' List.mem_cons_self seen (List.mem_cons_of_mem _ hseen) f hf g hg hpath hmtime
      hsize' hhash
  obtain rfl : f = g := by
    cases f
    cases g
    simp_all
  exact hrows

/-- The records of a path after a run that fits. -/
theorem rows_after (hbefore : Consistent parse maxFileSize project trees tree db)
    (htell : HashesTell (tree' :: trees))
    (hfits : RunFits parse maxFileSize project db tree' retryMax forceStreaming)
    (hrun : IndexRun parse maxFileSize project tree' retryMax forceStreaming db db') (path : Str) :
    (rowsOf project path db'.source.records).Perm
      (tree'.rowsAt parse maxFileSize project path) := by
  rw [rowsOf_indexRun hrun, resultAt]
  cases hfile : tree'.fileAt path with
  | none =>
      -- the path has gone, and with it all its records
      have hgone := Tree.not_mem_of_fileAt hfile
      have hnojob : KeyedTable.find SourceFile.path (jobsOf project tree' db) path = none := by
        rw [KeyedTable.find, List.find?_eq_none]
        intro g hg hpath
        exact hgone g (mem_jobsOf.mp hg).1 (of_decide_eq_true hpath)
      have hrows : rowsOf project path db.source.records = [] := by
        by_contra hsome
        obtain ⟨row, hrow, hpath⟩ := rowsOf_ne_nil_iff.mp hsome
        obtain ⟨f, hf, hf'⟩ := hfits.present row hrow
        exact hgone f hf (hf'.trans hpath)
      rw [hnojob, Tree.rowsAt, hfile]
      exact List.Perm.of_eq hrows
  | some f =>
      obtain ⟨hf, rfl⟩ := Tree.mem_of_fileAt hfile
      rw [Tree.rowsAt_of_mem hf]
      by_cases hjob : f ∈ jobsOf project tree' db
      · rw [find_jobsOf_of_mem hjob, Option.bind_some]
        cases hresult : resultOf parse maxFileSize (knownFailures project retryMax db) f with
        | none => exact hfits.unparsed f hjob hresult
        | some fr =>
            have hold : (if deletesOld project tree' forceStreaming db = true then []
                else rowsOf project f.path db.source.records) = [] := by
              split_ifs with hdeletes
              · rfl
              · by_contra hsome
                exact hdeletes (hfits.replaced f hjob (by rw [hresult]; rfl) hsome)
            dsimp only
            rw [hold, fileRows_of_result hresult, List.nil_append]
      · rw [find_jobsOf_of_not_mem hf hjob]
        exact rows_of_unchanged hbefore htell hf hjob

theorem entitiesOfRecords_perm {rows rows' : List RecordRow} (h : rows.Perm rows') :
    (entitiesOfRecords false rows).Perm (entitiesOfRecords false rows') :=
  (h.filter _).map _

theorem named_after (hrows : ∀ path, (rowsOf project path db'.source.records).Perm
    (tree'.rowsAt parse maxFileSize project path)) {path : Str}
    (hsome : rowsOf project path db'.source.records ≠ []) : path ≠ [] := by
  rintro rfl
  cases hfile : tree'.fileAt [] with
  | none =>
      have hnone := hrows []
      rw [Tree.rowsAt, hfile] at hnone
      exact hsome hnone.eq_nil
  | some f =>
      obtain ⟨hf, hpath⟩ := Tree.mem_of_fileAt hfile
      exact tree'.named f hf hpath

/-- The entities of a path after a run that fits. -/
theorem entities_after (hbefore : Consistent parse maxFileSize project trees tree db)
    (htell : HashesTell (tree' :: trees))
    (hfits : RunFits parse maxFileSize project db tree' retryMax forceStreaming)
    (hrun : IndexRun parse maxFileSize project tree' retryMax forceStreaming db db') (path : Str) :
    (entitiesOf project path db'.entities).Perm
      (entitiesOfRecords false (rowsOf project path db'.source.records)) := by
  have hrows := rows_after hbefore htell hfits hrun
  refine (entitiesOf_indexRun hrun (named_after hrows)).trans ?_
  split_ifs with hrebuilt
  · rfl
  · -- an untouched path keeps its records, a job is only passed over when it has none
    cases hfind : KeyedTable.find SourceFile.path (jobsOf project tree' db) path with
    | none =>
        have hsame : rowsOf project path db'.source.records =
            rowsOf project path db.source.records := by
          rw [rowsOf_indexRun hrun, resultAt, hfind]
          rfl
        rw [hsame]
        exact hbefore.entities path
    | some f =>
        have hjob : f ∈ jobsOf project tree' db := List.mem_of_find?_eq_some hfind
        obtain rfl : f.path = path := KeyedTable.key_of_find hfind
        have hnone : rowsOf project f.path db'.source.records = [] := by
          by_contra hsome
          exact hrebuilt ⟨List.ne_nil_of_mem hjob, hsome, fun _ => ⟨f, hjob, rfl⟩⟩
        have hfile := hrows f.path
        rw [hnone, Tree.rowsAt_of_mem (mem_jobsOf.mp hjob).1] at hfile
        rw [hnone, hfits.bare f hjob hfile.symm.eq_nil]
        exact .nil

/-- **A run that fits keeps the tables in step with the tree.** -/
theorem consistent_after (hbefore : Consistent parse maxFileSize project trees tree db)
    (htell : HashesTell (tree' :: trees))
    (hfits : RunFits parse maxFileSize project db tree' retryMax forceStreaming)
    (hrun : IndexRun parse maxFileSize project tree' retryMax forceStreaming db db') :
    Consistent parse maxFileSize project (tree' :: trees) tree' db' := by
  have hrows := rows_after hbefore htell hfits hrun
  refine ⟨hrows, entities_after hbefore htell hfits hrun, ?_, nodup_indexRun hrun hbefore.keys⟩
  intro row hrow hproject
  have horigin := scanState_indexRun hrun hbefore.keys hrow hproject
  have hrecords := rowsOf_indexRun hrun row.filePath
  cases hresult : resultAt parse maxFileSize project tree' retryMax db row.filePath with
  | none =>
      rw [hresult] at horigin hrecords
      obtain ⟨seen, hseen, f, hf, rfl, hold⟩ := hbefore.scanned row horigin hproject
      refine ⟨seen, List.mem_cons_of_mem _ hseen, f, hf, rfl, ?_⟩
      rw [hrecords]
      exact hold
  | some fr =>
      rw [hresult] at horigin
      obtain ⟨f, hfind, hfr⟩ := Option.bind_eq_some_iff.mp hresult
      have hf : f ∈ tree'.files := (mem_jobsOf.mp (List.mem_of_find?_eq_some hfind)).1
      refine ⟨tree', List.mem_cons_self, f, hf, ?_, ?_⟩
      · rw [horigin, (resultOf_eq_some_iff.mp hfr).2.2.2.2, FileResult.scanRow,
          Tree.hashAt_of_mem hf]
      · rw [← Tree.rowsAt_of_mem hf]
        exact hrows f.path

/-! ## The same index -/

/-- Two databases that stand for the same tree have the same index. -/
theorem sameIndex_of_consistent {trees' : List Tree}
    (h : Consistent parse maxFileSize project trees tree db)
    (h' : Consistent parse maxFileSize project trees' tree db') : SameIndex project db db' := by
  have hrows : ∀ path, (rowsOf project path db.source.records).Perm
      (rowsOf project path db'.source.records) := by
    intro path
    exact (h.records path).trans (h'.records path).symm
  refine ⟨?_, ?_⟩
  · refine KeyedTable.perm_of_classes RecordRow.filePath ?_
    intro path
    rw [filter_recordsOf, filter_recordsOf]
    exact hrows path
  · refine KeyedTable.perm_of_classes EntityRow.filePath ?_
    intro path
    rw [filter_entities, filter_entities]
    exact (h.entities path).trans
      ((entitiesOfRecords_perm (hrows path)).trans (h'.entities path).symm)

theorem SameIndex.rowsOf (h : SameIndex project db db') (path : Str) :
    (Store.rowsOf project path db.source.records).Perm
      (Store.rowsOf project path db'.source.records) := by
  rw [← filter_recordsOf, ← filter_recordsOf]
  exact h.records.filter _

theorem SameIndex.entitiesOf (h : SameIndex project db db') (path : Str) :
    (Store.entitiesOf project path db.entities).Perm
      (Store.entitiesOf project path db'.entities) := by
  rw [← filter_entities, ← filter_entities]
  exact h.entities.filter _

/-! ## Fresh runs -/

variable (parse maxFileSize project) in
theorem exists_indexRun (tree : Tree) (retryMax : Int) (forceStreaming : Bool) (db : IndexDb) :
    ∃ db', IndexRun parse maxFileSize project tree retryMax forceStreaming db db' := by
  by_cases hjobs : jobsOf project tree db = []
  · exact ⟨db, .unchanged hjobs⟩
  · refine ⟨_, .indexed (jobsOf project tree db) (isReindexRun project tree db)
      [(jobsOf project tree db).filterMap
        (resultOf parse maxFileSize (knownFailures project retryMax db))] _ rfl hjobs ?_
      (List.Perm.refl _)⟩
    rw [List.flatten_singleton]
    exact List.Perm.refl _

theorem runFits_empty : RunFits parse maxFileSize project .empty tree retryMax forceStreaming where
  present row hrow := absurd hrow List.not_mem_nil
  replaced f _ _ hsome := absurd rfl hsome
  unparsed f _ hnone := by
    have hunhindered : resultOf parse maxFileSize [] f = none := hnone
    rw [fileRows, hunhindered]
    exact .nil
  bare f _ _ := rfl

theorem hashesTell_singleton (tree : Tree) : HashesTell [tree] := by
  intro seen hseen seen' hseen' f hf f' hf' hpath _ _ _
  rw [List.mem_singleton.mp hseen] at hf
  rw [List.mem_singleton.mp hseen'] at hf'
  rw [List.inj_on_of_nodup_map tree.paths hf hf' hpath]

theorem consistent_fresh
    (hrun : IndexRun parse maxFileSize project tree retryMax forceStreaming .empty db) :
    Consistent parse maxFileSize project [tree] tree db :=
  consistent_after consistent_empty (hashesTell_singleton tree) runFits_empty hrun

/-! ## Runs that do not fit -/

/-- A run that leaves what a fresh run leaves fits. -/
theorem runFits_of_equalsFresh (hrun : IndexRun parse maxFileSize project tree' retryMax
    forceStreaming db db')
    (hequal : EqualsFresh parse maxFileSize project tree' db') :
    RunFits parse maxFileSize project db tree' retryMax forceStreaming := by
  obtain ⟨fresh, hfresh⟩ := exists_indexRun parse maxFileSize project tree' 1 false .empty
  have hconsistent := consistent_fresh hfresh
  have hsame := hequal 1 false fresh hfresh
  have hrows : ∀ path, (rowsOf project path db'.source.records).Perm
      (tree'.rowsAt parse maxFileSize project path) := by
    intro path
    exact (hsame.rowsOf path).trans (hconsistent.records path)
  have hjobRows : ∀ f ∈ jobsOf project tree' db, (rowsOf project f.path db'.source.records).Perm
      (fileRows parse maxFileSize project f) := by
    intro f hjob
    rw [← Tree.rowsAt_of_mem (mem_jobsOf.mp hjob).1]
    exact hrows f.path
  refine ⟨?_, ?_, ?_, ?_⟩
  · intro row hrow
    by_contra hgone
    have hfile : tree'.fileAt row.filePath = none := by
      cases hat : tree'.fileAt row.filePath with
      | none => rfl
      | some f => exact absurd ⟨f, Tree.mem_of_fileAt hat⟩ hgone
    have hnojob : KeyedTable.find SourceFile.path (jobsOf project tree' db) row.filePath =
        none := by
      rw [KeyedTable.find, List.find?_eq_none]
      intro g hg hpath
      exact hgone ⟨g, (mem_jobsOf.mp hg).1, of_decide_eq_true hpath⟩
    have hnone := hrows row.filePath
    rw [rowsOf_indexRun hrun, resultAt, hnojob, Tree.rowsAt, hfile] at hnone
    exact rowsOf_ne_nil_iff.mpr ⟨row, hrow, rfl⟩ hnone.eq_nil
  · intro f hjob hsome hold
    obtain ⟨fr, hresult⟩ := Option.isSome_iff_exists.mp hsome
    have hwritten := hjobRows f hjob
    rw [rowsOf_indexRun hrun, resultAt, find_jobsOf_of_mem hjob, Option.bind_some, hresult,
      fileRows_of_result hresult] at hwritten
    by_contra hdeletes
    have hlength := hwritten.length_eq
    dsimp only at hlength
    rw [if_neg hdeletes, List.length_append] at hlength
    exact hold (List.eq_nil_of_length_eq_zero (by omega))
  · intro f hjob hresult
    have hkept := hjobRows f hjob
    rw [rowsOf_indexRun hrun, resultAt, find_jobsOf_of_mem hjob, Option.bind_some,
      hresult] at hkept
    exact hkept
  · intro f hjob hnone
    have hbare := hjobRows f hjob
    rw [hnone] at hbare
    have hnamed : rowsOf project f.path db'.source.records ≠ [] → f.path ≠ [] := named_after hrows
    have hleft := entitiesOf_indexRun hrun hnamed
    rw [if_neg (fun hrebuilt => hrebuilt.2.1 hbare.eq_nil)] at hleft
    have hderived := (hsame.rowsOf f.path).symm
    rw [hbare.eq_nil] at hderived
    have hentities := (hsame.entitiesOf f.path).trans (hconsistent.entities f.path)
    rw [hderived.eq_nil] at hentities
    exact (hleft.symm.trans hentities).eq_nil

end Step

/-! ## Every history -/

/-- The last tree of a history. -/
def lastTree (trees : List Tree) : Tree := trees.headD .empty

/-- **A history of runs that fit keeps the tables in step.** -/
theorem consistent_of_history {trees : List Tree} {db : IndexDb}
    (h : History parse maxFileSize project
      (fun db tree retryMax forceStreaming _ =>
        RunFits parse maxFileSize project db tree retryMax forceStreaming) trees db)
    (htell : HashesTell trees) :
    Consistent parse maxFileSize project trees (lastTree trees) db := by
  induction h with
  | start => exact consistent_empty
  | run hbefore hrun hfits ih =>
      have hpast := ih (htell.mono fun _ hmem => List.mem_cons_of_mem _ hmem)
      exact consistent_after hpast htell hfits hrun

/-- **The index equals that of a fresh run after every run of a history exactly when every run
    fits**, as long as the hashes tell the contents of a file apart. -/
theorem index_equals_fresh_iff {trees : List Tree} {db : IndexDb} (htell : HashesTell trees) :
    History parse maxFileSize project (fun _ tree _ _ db' =>
        EqualsFresh parse maxFileSize project tree db') trees db ↔
      History parse maxFileSize project (fun db tree retryMax forceStreaming _ =>
        RunFits parse maxFileSize project db tree retryMax forceStreaming) trees db := by
  constructor
  · intro hequal
    induction hequal with
    | start => exact .start
    | run hbefore hrun hfresh ih =>
        have hpast := ih (htell.mono fun _ hmem => List.mem_cons_of_mem _ hmem)
        exact .run hpast hrun (runFits_of_equalsFresh hrun hfresh)
  · intro hfits
    induction hfits with
    | start => exact .start
    | @run trees db db' tree _ _ hbefore hrun hfits ih =>
        have hpast := htell.mono fun _ hmem => List.mem_cons_of_mem _ hmem
        refine .run (ih hpast) hrun ?_
        intro retryMax forceStreaming fresh hfresh
        have hconsistent := consistent_of_history parse maxFileSize project
          (.run hbefore hrun hfits) htell
        exact sameIndex_of_consistent hconsistent (consistent_fresh hfresh)

/-! ## An edited file -/

/-- A parser that finds one function, named by the first byte. -/
def firstByte (_ : Str) (content : List UInt8) : List Record :=
  [functionRecord [Char.ofNat (content.headD 0).toNat] 0]

/-- A project of one file. -/
def oneFile (mtime : Int) (byte : UInt8) : Tree :=
  ⟨[⟨str "a.c", mtime, 1, [byte]⟩], by simp, by simp [str]⟩

/-- A project of two files, the first of which is edited. -/
def twoFiles (mtime : Int) (byte : UInt8) : Tree :=
  ⟨[⟨str "a.c", mtime, 1, [byte]⟩, ⟨str "b.c", 1, 1, [104]⟩], by simp [str], by simp [str]⟩

/-- The run that parses all jobs in one batch. -/
def indexOnce (tree : Tree) (db : IndexDb) : IndexDb :=
  let jobs := jobsOf 1 tree db
  let isReindex := isReindexRun 1 tree db
  let paths := jobs.map SourceFile.path
  let source := writeBatches tree.hashAt 1 (transportOf false jobs isReindex)
    (cleanupStaleFiles 1 paths db.source)
    [jobs.filterMap (resultOf firstByte 100 (knownFailures 1 1 db))]
  let changed := if isReindex then some paths else none
  ⟨source, buildEntities 1 changed source.records db.entities false,
    (((jobs.filterMap (failureOf firstByte 100 1 (knownFailures 1 1 db))).foldl
      FailureStore.bufferParseFailure db.failures).flushParseFailures true).2⟩

theorem indexOnce_run (tree : Tree) (db : IndexDb) (hjobs : jobsOf 1 tree db ≠ []) :
    IndexRun firstByte 100 1 tree 1 false db (indexOnce tree db) := by
  refine .indexed _ _ _ _ rfl hjobs ?_ (List.Perm.refl _)
  rw [List.flatten_singleton]
  exact List.Perm.refl _

/-- One of two files is edited: both runs fit and the index is that of a fresh run. -/
theorem index_equals_fresh_iff_edited :
    History firstByte 100 1 (fun _ tree _ _ db' => EqualsFresh firstByte 100 1 tree db')
      [twoFiles 2 103, twoFiles 1 102]
      (indexOnce (twoFiles 2 103) (indexOnce (twoFiles 1 102) .empty)) := by
  have htell : HashesTell [twoFiles 2 103, twoFiles 1 102] := by
    unfold HashesTell
    decide
  refine (index_equals_fresh_iff firstByte 100 1 htell).mpr ?_
  have hfirst := indexOnce_run (twoFiles 1 102) .empty (by decide)
  have hsecond := indexOnce_run (twoFiles 2 103) (indexOnce (twoFiles 1 102) .empty) (by decide)
  refine .run (.run .start hfirst runFits_empty) hsecond ⟨?_, ?_, ?_, ?_⟩
  · decide
  · decide
  · decide
  · decide

/-- The only file of a project is edited. No file is unchanged, so the second run takes the
    database for fresh and keeps the old records next to the new ones. -/
theorem edited_file_indexed_twice :
    ∃ db, History firstByte 100 1 (fun _ _ _ _ _ => True) [oneFile 2 103, oneFile 1 102] db ∧
      ¬ EqualsFresh firstByte 100 1 (oneFile 2 103) db := by
  have hfirst := indexOnce_run (oneFile 1 102) .empty (by decide)
  have hsecond := indexOnce_run (oneFile 2 103) (indexOnce (oneFile 1 102) .empty) (by decide)
  refine ⟨_, .run (.run .start hfirst trivial) hsecond trivial, ?_⟩
  intro hequal
  have hfits := runFits_of_equalsFresh hsecond hequal
  have hdeletes := hfits.replaced ⟨str "a.c", 2, 1, [103]⟩ (by decide) (by decide) (by decide)
  revert hdeletes
  decide

end CodeScope.Index
