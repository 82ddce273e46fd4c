import CodeScope.Library.Connection
import CodeScope.Store.Records

/-! # What an index run reports, and what it committed

`engine_index_project` writes the records of the parsed files in one transaction and the graph in
another. The first is run by a writer thread or by the flush of the in-memory aggregate, the second
by `postParsePhase`. Some of the results of BEGIN, COMMIT and the calls between them are looked at
and some are not; here every one of them can fail. -/

namespace CodeScope.Index

open Text (Str str)
open Connection (Conn)
open CodeScope.Store

/-! ## The run -/

/-- The tables a run writes: the records with their scan state, and the graph. -/
structure IndexedDb (G : Type) where
  source : SourceDb
  graph : G

/-- Which calls fail. A failing `insertFileResultBatch` has written something by then; what, is left
    open. -/
structure RunFaults where
  beginRecords : Bool
  insert : ℕ → Option (SourceDb → SourceDb)
  commitRecords : Bool
  beginGraph : Bool
  buildGraph : Bool
  commitGraph : Bool

/-- The payload of the answer, its counts apart. -/
inductive Answer where
  | ok
  | error (message : Str)
deriving DecidableEq

section Run

variable {G : Type} (hashOf : Str → Str) (project : ℕ)
  (build : Option (List Str) → SourceDb → G → G) (faults : RunFaults)

/-- A write to the records. -/
def onSource (f : SourceDb → SourceDb) (db : IndexedDb G) : IndexedDb G :=
  { db with source := f db.source }

/-- The calls of `insertFileResultBatch`, numbered from `i`. The flush stops at a failing call, the
    writer thread goes on with the next batch. -/
def insertBatches (transport : Transport) :
    ℕ → List (List FileResult) → Conn (IndexedDb G) → Bool × Conn (IndexedDb G)
  | _, [], c => (true, c)
  | i, batch :: rest, c =>
    match faults.insert i with
    | none =>
        insertBatches transport (i + 1) rest (c.write (onSource fun db =>
          insertFileResultBatch hashOf project transport.isReindex db batch))
    | some torn =>
        match transport with
        | .membulk _ => (false, c.write (onSource torn))
        | .streaming =>
            (false, (insertBatches .streaming (i + 1) rest (c.write (onSource torn))).2)

/-- The writer thread of the streaming transport; the flag is its `writer_error`, inverted. -/
def writerThread (cuts : List (List FileResult)) (c : Conn (IndexedDb G)) :
    Bool × Conn (IndexedDb G) :=
  let c := (c.begin faults.beginRecords).2
  let (ok, c) := insertBatches hashOf project faults .streaming 0 cuts c
  if ok then (true, (c.commit faults.commitRecords).2) else (false, c.rollback)

/-- `MemBulkAggregator::flush`. -/
def flush (isReindex : Bool) (cuts : List (List FileResult)) (c : Conn (IndexedDb G)) :
    Bool × Conn (IndexedDb G) :=
  let c := (c.begin faults.beginRecords).2
  let (ok, c) := insertBatches hashOf project faults (.membulk isReindex) 0 cuts c
  if ok then
    let (committed, c) := c.commit faults.commitRecords
    if committed then (true, c) else (false, c.rollback)
  else (false, c.rollback)

/-- `postParsePhase` up to its COMMIT; behind it nothing can change the answer. A failing
    `buildGraph` takes back what it wrote. -/
def postParsePhase (changed : Option (List Str)) (c : Conn (IndexedDb G)) :
    Answer × Conn (IndexedDb G) :=
  let c := (c.begin faults.beginGraph).2
  if faults.buildGraph then
    (.error (str "buildGraph failed for project " ++ (toString project).toList ++
      str " (resolver stage)"), c.rollback)
  else
    let c := c.write fun db => { db with graph := build changed db.source db.graph }
    (.ok, (c.commit faults.commitGraph).2)

/-- The set of changed files that `postParsePhase` passes on. -/
def changedFiles (isReindex : Bool) (jobs : List Str) : Option (List Str) :=
  if isReindex then some jobs else none

/-- The transport of a run: streamed, or aggregated with the flag of the run. -/
def transportFor (streaming isReindex : Bool) : Transport :=
  if streaming then .streaming else .membulk isReindex

/-- `engine_index_project` from the files to index on. The batches are what the writer thread drained
    or the flush cut off. -/
def indexProject (streaming isReindex : Bool) (jobs : List Str) (cuts : List (List FileResult))
    (c : Conn (IndexedDb G)) : Answer × Conn (IndexedDb G) :=
  if jobs = [] then (.ok, c)
  else if streaming then
    let (ok, c) := writerThread hashOf project faults cuts c
    if ok then postParsePhase project build faults (changedFiles isReindex jobs) c
    else (.error (str "writer thread failed"), c)
  else
    let (ok, c) := flush hashOf project faults isReindex cuts c
    if ok then postParsePhase project build faults (changedFiles isReindex jobs) c
    else (.error (str "membulk flush failed"), c)

/-! ## What the answer promises -/

/-- The database with the records and the graph of the run. -/
def indexed (streaming isReindex : Bool) (jobs : List Str) (cuts : List (List FileResult))
    (db : IndexedDb G) : IndexedDb G :=
  if jobs = [] then db
  else
    let source := writeBatches hashOf project (transportFor streaming isReindex) db.source cuts
    ⟨source, build (changedFiles isReindex jobs) source db.graph⟩

/-- An answer is honest, given the database before the run, the one it is to reach and the one that
    is durable behind it: `ok` means that the index is durable, and otherwise the records are those
    from before the run or all those of the run. -/
structure Honest (before target after : IndexedDb G) (answer : Answer) : Prop where
  durable : answer = .ok → after = target
  whole : after ≠ target →
    answer ≠ .ok ∧ (after.source = before.source ∨ after.source = target.source)

/-! ## The two stages -/

/-- No call of `insertFileResultBatch` fails. -/
def InsertsHold (i : ℕ) (cuts : List (List FileResult)) : Prop :=
  ∀ j < cuts.length, faults.insert (i + j) = none

instance (i : ℕ) (cuts : List (List FileResult)) : Decidable (InsertsHold faults i cuts) :=
  inferInstanceAs (Decidable (∀ j < cuts.length, faults.insert (i + j) = none))

/-- What the calls of `insertFileResultBatch` leave of the records. -/
def leftBy (transport : Transport) : ℕ → List (List FileResult) → SourceDb → SourceDb
  | _, [], db => db
  | i, batch :: rest, db =>
    match faults.insert i with
    | none =>
        leftBy transport (i + 1) rest
          (insertFileResultBatch hashOf project transport.isReindex db batch)
    | some torn =>
        match transport with
        | .membulk _ => torn db
        | .streaming => leftBy .streaming (i + 1) rest (torn db)

theorem insertsHold_cons {i : ℕ} {batch : List FileResult} {rest : List (List FileResult)} :
    InsertsHold faults i (batch :: rest) ↔
      faults.insert i = none ∧ InsertsHold faults (i + 1) rest := by
  constructor
  · intro h
    refine ⟨h 0 (by simp), ?_⟩
    intro j hj
    have hlater := h (j + 1) (by simpa using hj)
    rwa [show i + (j + 1) = i + 1 + j by omega] at hlater
  · rintro ⟨hfirst, hrest⟩ j hj
    cases j with
    | zero => exact hfirst
    | succ j =>
        have hlater := hrest j (by simpa using hj)
        rwa [show i + 1 + j = i + (j + 1) by omega] at hlater

/-- The batches are writes to the records, inside a transaction or not. -/
theorem insertBatches_eq (transport : Transport) (i : ℕ) (cuts : List (List FileResult))
    (c : Conn (IndexedDb G)) :
    insertBatches hashOf project faults transport i cuts c =
      (decide (InsertsHold faults i cuts),
        c.write (onSource (leftBy hashOf project faults transport i cuts))) := by
  induction cuts generalizing i c with
  | nil =>
      have hid : onSource (leftBy hashOf project faults transport i []) = (id : IndexedDb G → _) := rfl
      have hnone : InsertsHold faults i [] := fun j hj => absurd hj (by simp)
      rw [hid, Conn.write_id]
      simp [insertBatches, hnone]
  | cons batch rest ih =>
      rw [insertBatches]
      cases hfault : faults.insert i with
      | none =>
          have hsame : InsertsHold faults i (batch :: rest) ↔ InsertsHold faults (i + 1) rest := by
            rw [insertsHold_cons]
            simp [hfault]
          simp only
          rw [ih, Conn.write_write, decide_eq_decide.mpr hsame]
          congr 2
          funext db
          simp [onSource, leftBy, hfault]
      | some torn =>
          have hfails : ¬ InsertsHold faults i (batch :: rest) := by
            rw [insertsHold_cons]
            simp [hfault]
          cases transport with
          | membulk r =>
              simp only [hfails, decide_false]
              congr 2
              funext db
              simp [onSource, leftBy, hfault]
          | streaming =>
              simp only
              rw [ih, Conn.write_write]
              simp only [hfails, decide_false]
              congr 2
              funext db
              simp [onSource, leftBy, hfault]

theorem leftBy_of_insertsHold (transport : Transport) {i : ℕ} {cuts : List (List FileResult)}
    (h : InsertsHold faults i cuts) (db : SourceDb) :
    leftBy hashOf project faults transport i cuts db =
      writeBatches hashOf project transport db cuts := by
  induction cuts generalizing i db with
  | nil => rfl
  | cons batch rest ih =>
      obtain ⟨hfirst, hrest⟩ := (insertsHold_cons faults).mp h
      rw [leftBy, hfirst]
      simp only
      rw [ih hrest]
      rfl

end Run

section Stages

variable {G : Type} (hashOf : Str → Str) (project : ℕ)
  (build : Option (List Str) → SourceDb → G → G) (faults : RunFaults)

/-- The records that are durable after the first stage. -/
def recordsAfter (streaming isReindex : Bool) (cuts : List (List FileResult)) (db : SourceDb) :
    SourceDb :=
  let left := leftBy hashOf project faults (transportFor streaming isReindex) 0 cuts db
  if faults.beginRecords then left
  else if InsertsHold faults 0 cuts ∧ faults.commitRecords = false then left
  else db

/-- The first stage lets the run go on: no insert failed, and the flush also wants its COMMIT. -/
def GoesOn (streaming : Bool) (cuts : List (List FileResult)) : Prop :=
  InsertsHold faults 0 cuts ∧
    (streaming = true ∨ faults.beginRecords = false ∧ faults.commitRecords = false)

instance (streaming : Bool) (cuts : List (List FileResult)) :
    Decidable (GoesOn faults streaming cuts) :=
  inferInstanceAs (Decidable (_ ∧ _))

/-- The graph that is durable after the second stage, when `buildGraph` succeeds. -/
def graphAfter (changed : Option (List Str)) (source : SourceDb) (graph : G) : G :=
  if faults.beginGraph = false ∧ faults.commitGraph = true then graph
  else build changed source graph

theorem postParsePhase_eq (changed : Option (List Str)) (db : IndexedDb G) :
    (postParsePhase project build faults changed (.idle db)).2 =
      .idle ⟨db.source, if faults.buildGraph then db.graph
        else graphAfter build faults changed db.source db.graph⟩ := by
  simp only [postParsePhase, graphAfter]
  cases hbuild : faults.buildGraph <;> cases hbegin : faults.beginGraph <;>
    cases hcommit : faults.commitGraph <;>
    simp [Conn.idle, Conn.begin, Conn.write, Conn.commit, Conn.rollback]

theorem postParsePhase_ok_iff (changed : Option (List Str)) (c : Conn (IndexedDb G)) :
    (postParsePhase project build faults changed c).1 = .ok ↔ faults.buildGraph = false := by
  simp only [postParsePhase]
  cases hbuild : faults.buildGraph <;> simp

end Stages

section Honesty

variable {G : Type} (hashOf : Str → Str) (project : ℕ)
  (build : Option (List Str) → SourceDb → G → G) (faults : RunFaults)
  (streaming isReindex : Bool) (jobs : List Str) (cuts : List (List FileResult))

/-- The first stage, and what the run makes of it. -/
theorem indexProject_eq (hjobs : jobs ≠ []) (db : IndexedDb G) :
    indexProject hashOf project build faults streaming isReindex jobs cuts (.idle db) =
      let records := recordsAfter hashOf project faults streaming isReindex cuts db.source
      if GoesOn faults streaming cuts then
        postParsePhase project build faults (changedFiles isReindex jobs) (.idle ⟨records, db.graph⟩)
      else
        (.error (str (if streaming then "writer thread failed" else "membulk flush failed")),
          .idle ⟨records, db.graph⟩) := by
  rw [indexProject, if_neg hjobs]
  cases streaming <;>
    simp only [writerThread, flush, insertBatches_eq, GoesOn, recordsAfter, transportFor] <;>
    by_cases hholds : InsertsHold faults 0 cuts <;>
    rcases Bool.eq_false_or_eq_true faults.beginRecords with hbegin | hbegin <;>
    rcases Bool.eq_false_or_eq_true faults.commitRecords with hcommit | hcommit <;>
    simp [hholds, hbegin, hcommit, Conn.idle, Conn.begin, Conn.write, Conn.commit, Conn.rollback,
      onSource]

theorem indexProject_ok_iff (hjobs : jobs ≠ []) (db : IndexedDb G) :
    (indexProject hashOf project build faults streaming isReindex jobs cuts (.idle db)).1 = .ok ↔
      GoesOn faults streaming cuts ∧ faults.buildGraph = false := by
  rw [indexProject_eq hashOf project build faults streaming isReindex jobs cuts hjobs]
  by_cases hgoes : GoesOn faults streaming cuts
  · simp [hgoes, postParsePhase_ok_iff]
  · simp [hgoes]

theorem indexProject_durable (hjobs : jobs ≠ []) (db : IndexedDb G) :
    (indexProject hashOf project build faults streaming isReindex jobs cuts (.idle db)).2.durable =
      ⟨recordsAfter hashOf project faults streaming isReindex cuts db.source,
        if GoesOn faults streaming cuts ∧ faults.buildGraph = false then
          graphAfter build faults (changedFiles isReindex jobs)
            (recordsAfter hashOf project faults streaming isReindex cuts db.source) db.graph
        else db.graph⟩ := by
  rw [indexProject_eq hashOf project build faults streaming isReindex jobs cuts hjobs]
  by_cases hgoes : GoesOn faults streaming cuts
  · cases hbuild : faults.buildGraph <;> simp [hgoes, postParsePhase_eq, hbuild]
  · simp [hgoes]

/-- Where a failure would be passed over, nothing is lost: without a BEGIN the inserts left all of
    the records or none; a COMMIT of the writer thread or of `postParsePhase` that fails in a run
    that gets to its end had nothing to commit. -/
structure CommitsHeld (db : IndexedDb G) : Prop where
  torn : faults.beginRecords = true → ¬ InsertsHold faults 0 cuts →
    leftBy hashOf project faults (transportFor streaming isReindex) 0 cuts db.source = db.source ∨
      leftBy hashOf project faults (transportFor streaming isReindex) 0 cuts db.source =
        writeBatches hashOf project (transportFor streaming isReindex) db.source cuts
  records : streaming = true → faults.beginRecords = false → InsertsHold faults 0 cuts →
    faults.commitRecords = true → faults.buildGraph = false →
    writeBatches hashOf project (transportFor streaming isReindex) db.source cuts = db.source
  graph : GoesOn faults streaming cuts → faults.buildGraph = false →
    faults.beginGraph = false → faults.commitGraph = true →
    build (changedFiles isReindex jobs)
      (writeBatches hashOf project (transportFor streaming isReindex) db.source cuts) db.graph =
        db.graph

/-- The first stage leaves the old records, or all of the new ones, unless inserts failed behind a
    failed BEGIN. -/
theorem recordsAfter_of_insertsHold (h : InsertsHold faults 0 cuts) (db : SourceDb) :
    recordsAfter hashOf project faults streaming isReindex cuts db =
      if faults.beginRecords = false ∧ faults.commitRecords = true then db
      else writeBatches hashOf project (transportFor streaming isReindex) db cuts := by
  rw [recordsAfter, leftBy_of_insertsHold hashOf project faults _ h]
  rcases Bool.eq_false_or_eq_true faults.beginRecords with hbegin | hbegin <;>
    rcases Bool.eq_false_or_eq_true faults.commitRecords with hcommit | hcommit <;>
    simp [h, hbegin, hcommit]

theorem recordsAfter_of_insertFailed (h : ¬ InsertsHold faults 0 cuts) (db : SourceDb) :
    recordsAfter hashOf project faults streaming isReindex cuts db =
      if faults.beginRecords then
        leftBy hashOf project faults (transportFor streaming isReindex) 0 cuts db
      else db := by
  rw [recordsAfter]
  simp [h]

/-- A run that answers `ok` is honest when neither unread COMMIT loses anything. -/
theorem honest_of_ok (hgoes : GoesOn faults streaming cuts) (hbuild : faults.buildGraph = false)
    (db : IndexedDb G) :
    (⟨recordsAfter hashOf project faults streaming isReindex cuts db.source,
        graphAfter build faults (changedFiles isReindex jobs)
          (recordsAfter hashOf project faults streaming isReindex cuts db.source) db.graph⟩ :
        IndexedDb G) =
      ⟨writeBatches hashOf project (transportFor streaming isReindex) db.source cuts,
        build (changedFiles isReindex jobs)
          (writeBatches hashOf project (transportFor streaming isReindex) db.source cuts)
          db.graph⟩ ↔
      CommitsHeld hashOf project build faults streaming isReindex jobs cuts db := by
  rw [recordsAfter_of_insertsHold hashOf project faults streaming isReindex cuts hgoes.1,
    IndexedDb.mk.injEq, graphAfter]
  constructor
  · rintro ⟨hsource, hgraph⟩
    refine ⟨fun _ hfails => absurd hgoes.1 hfails, ?_, ?_⟩
    · intro _ hbegin _ hcommit _
      rw [if_pos ⟨hbegin, hcommit⟩] at hsource
      exact hsource.symm
    · intro _ _ hbegin hcommit
      rw [if_pos ⟨hbegin, hcommit⟩] at hgraph
      exact hgraph.symm
  · intro held
    have hsource : (if faults.beginRecords = false ∧ faults.commitRecords = true then db.source
        else writeBatches hashOf project (transportFor streaming isReindex) db.source cuts) =
        writeBatches hashOf project (transportFor streaming isReindex) db.source cuts := by
      split
      · next hlost =>
          rcases hgoes.2 with hstream | hflush
          · exact (held.records hstream hlost.1 hgoes.1 hlost.2 hbuild).symm
          · simp [hlost.2] at hflush
      · rfl
    refine ⟨hsource, ?_⟩
    rw [hsource]
    split
    · next hlost => exact (held.graph hgoes hbuild hlost.1 hlost.2).symm
    · rfl

/-- **An answer is honest exactly when no failure that the code passes over loses anything.** -/
theorem honest_iff (db : IndexedDb G) :
    Honest db (indexed hashOf project build streaming isReindex jobs cuts db)
      (indexProject hashOf project build faults streaming isReindex jobs cuts (.idle db)).2.durable
      (indexProject hashOf project build faults streaming isReindex jobs cuts (.idle db)).1 ↔
      jobs = [] ∨
        CommitsHeld hashOf project build faults streaming isReindex jobs cuts db := by
  by_cases hjobs : jobs = []
  · have hdone : indexProject hashOf project build faults streaming isReindex jobs cuts
        (.idle db) = (.ok, .idle db) := by rw [indexProject, if_pos hjobs]
    rw [hdone, indexed, if_pos hjobs]
    exact iff_of_true ⟨fun _ => rfl, fun h => absurd rfl h⟩ (.inl hjobs)
  have hok := indexProject_ok_iff hashOf project build faults streaming isReindex jobs cuts hjobs db
  have hdurable :=
    indexProject_durable hashOf project build faults streaming isReindex jobs cuts hjobs db
  generalize indexProject hashOf project build faults streaming isReindex jobs cuts (.idle db) = run
    at hok hdurable
  rw [hdurable, indexed, if_neg hjobs]
  simp only [hjobs, false_or]
  by_cases hend : GoesOn faults streaming cuts ∧ faults.buildGraph = false
  · -- the answer is `ok`
    rw [if_pos hend]
    have hanswer := hok.mpr hend
    rw [← honest_of_ok hashOf project build faults streaming isReindex jobs cuts hend.1 hend.2 db]
    constructor
    · intro h
      exact h.durable hanswer
    · intro h
      exact ⟨fun _ => h, fun hne => absurd h hne⟩
  · rw [if_neg hend]
    have hanswer : run.1 ≠ .ok := fun h => hend (hok.mp h)
    by_cases hholds : InsertsHold faults 0 cuts
    · -- the records are whole, whatever the first COMMIT did
      rw [recordsAfter_of_insertsHold hashOf project faults streaming isReindex cuts hholds]
      refine iff_of_true ⟨fun h => absurd h hanswer, fun _ => ⟨hanswer, ?_⟩⟩ ⟨?_, ?_, ?_⟩
      · split
        · exact .inl rfl
        · exact .inr rfl
      · intro _ hfails
        exact absurd hholds hfails
      · intro hstream _ _ _ hbuild
        exact absurd ⟨⟨hholds, .inl hstream⟩, hbuild⟩ hend
      · intro hgoes hbuild
        exact absurd ⟨hgoes, hbuild⟩ hend
    · rw [recordsAfter_of_insertFailed hashOf project faults streaming isReindex cuts hholds]
      constructor
      · intro h
        refine ⟨?_, fun _ _ hinserts => absurd hinserts hholds,
          fun hgoes => absurd hgoes.1 hholds⟩
        intro hbegin _
        rw [if_pos hbegin] at h
        by_cases hall : leftBy hashOf project faults (transportFor streaming isReindex) 0 cuts
            db.source = writeBatches hashOf project (transportFor streaming isReindex) db.source cuts
        · exact .inr hall
        · exact (h.whole fun heq => hall (congrArg IndexedDb.source heq)).2
      · intro held
        refine ⟨fun h => absurd h hanswer, fun _ => ⟨hanswer, ?_⟩⟩
        rcases Bool.eq_false_or_eq_true faults.beginRecords with hbegin | hbegin
        · rw [if_pos hbegin]
          exact held.torn hbegin hholds
        · rw [if_neg (by simp [hbegin])]
          exact .inl rfl

end Honesty

/-- One function in one file. -/
def oneFileBatch : List (List FileResult) := [[⟨str "a.c", [functionRecord (str "f") 3], 1, 9⟩]]

/-- A run in which only the COMMIT of the records fails. -/
def lostRecordsCommit : RunFaults where
  beginRecords := false
  insert := fun _ => none
  commitRecords := true
  beginGraph := false
  buildGraph := false
  commitGraph := false

/-- The writer thread does not look at its COMMIT: the run answers `ok`, and no record of it is in
    the database. -/
theorem lost_commit_answers_ok :
    ¬ ∀ (faults : RunFaults) (streaming : Bool) (db : IndexedDb ℕ),
      Honest db
        (indexed (fun _ => []) 1 (fun _ source _ => source.records.length) streaming false
          [str "a.c"] oneFileBatch db)
        (indexProject (fun _ => []) 1 (fun _ source _ => source.records.length) faults streaming
          false [str "a.c"] oneFileBatch (.idle db)).2.durable
        (indexProject (fun _ => []) 1 (fun _ source _ => source.records.length) faults streaming
          false [str "a.c"] oneFileBatch (.idle db)).1 := by
  intro h
  have hlost := (h lostRecordsCommit true ⟨⟨[], []⟩, 0⟩).durable rfl
  exact absurd (congrArg (fun db => db.source.records.length) hlost) (by decide)

end CodeScope.Index
