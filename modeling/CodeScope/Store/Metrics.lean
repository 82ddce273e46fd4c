import CodeScope.Library.KeyedUpdate
import CodeScope.Store.EntityIds

/-! # Metrics across a rebuild

`buildGraph` creates the entities of the rebuilt files anew, without metrics. It keeps the metrics
of the project in a temporary table before the deletion and writes them back after the insert, by
file and position, the staged ones behind them. -/

namespace CodeScope.Store

open Text (Str str)
open KeyedUpdate (Choice ConsistentAt chosen)

/-! ## Tables -/

/-- `kMetricColumns`, with the defaults of the schema. -/
structure Metrics where
  cyclomatic : Int := 0
  nestingDepth : Int := 0
  cognitive : Int := 0
  paramCount : Int := 0
  callCount : Int := 0
  branchCount : Int := 0
  loopCount : Int := 0
  lines : Int := 0
  isStub : Int := 0
deriving DecidableEq

/-- Project, file, row and column. -/
abbrev MetricKey := ℕ × Str × ℕ × ℕ

/-- A row of `_staged_metrics` or `_prev_metrics`. -/
structure MetricRow where
  project : ℕ
  filePath : Str
  startRow : ℕ
  startCol : ℕ
  metrics : Metrics
deriving DecidableEq

def MetricRow.key (m : MetricRow) : MetricKey := (m.project, m.filePath, m.startRow, m.startCol)

/-- A row of `entity` with its metrics. -/
structure MeasuredRow extends EntityRow where
  metrics : Metrics := {}
deriving DecidableEq

def MeasuredRow.key (e : MeasuredRow) : MetricKey := (e.project, e.filePath, e.startRow, e.startCol)

/-- `kind IN (0,1)` in the project: a function or a method. -/
def MeasuredRow.isMeasured (project : ℕ) (e : MeasuredRow) : Bool :=
  e.project = project && (e.kind = 0 || e.kind = 1)

/-- `entity` with the metric columns. -/
structure MeasuredTable where
  rows : List MeasuredRow
  ids : (rows.map fun e => e.id).Nodup

/-- The table without the metric columns. -/
def MeasuredTable.entities (t : MeasuredTable) : EntityTable where
  rows := t.rows.map MeasuredRow.toEntityRow
  ids := by
    rw [List.map_map]
    exact t.ids

/-- The functions and methods of the project. -/
def MeasuredTable.functions (project : ℕ) (t : MeasuredTable) : List MeasuredRow :=
  t.rows.filter (MeasuredRow.isMeasured project)

/-- The store, as far as metrics go. `_prev_metrics` may be there from an earlier run of the
    connection; `metricsReady` is the flag of a project. -/
structure MetricsDb where
  entities : MeasuredTable
  staged : List MetricRow
  prev : Option (List MetricRow)
  metricsReady : ℕ → Bool

/-- The staged rows of the project. -/
def MetricsDb.stagedOf (project : ℕ) (db : MetricsDb) : List MetricRow :=
  db.staged.filter fun m => m.project = project

/-! ## Statements -/

def MeasuredTable.deleteFile (project : ℕ) (t : MeasuredTable) (filePath : Str) :
    MeasuredTable where
  rows := t.rows.filter fun e => filePath = [] ∨ ¬ (e.project = project ∧ e.filePath = filePath)
  ids := t.ids.sublist (List.filter_sublist.map _)

/-- `INSERT OR IGNORE INTO entity`, whose column list has no metrics. -/
def MeasuredTable.insertAll (t : MeasuredTable) (selected : List EntityRow) : MeasuredTable where
  rows := KeyedTable.insertAll [fun e : MeasuredRow => e.id] t.rows
    (selected.map fun e => { toEntityRow := e })
  ids := KeyedTable.Unique.insertAll (by simpa [KeyedTable.Unique] using t.ids) _ _
    List.mem_cons_self

section Statements

variable (c : Choice MetricRow) (project : ℕ)

/-- What `UPDATE entity SET … FROM` makes of a row. -/
def MeasuredRow.update (source : List MetricRow) (e : MeasuredRow) : MeasuredRow :=
  if e.isMeasured project then
    { e with metrics := (chosen MetricRow.key MetricRow.metrics c source e.key).getD e.metrics }
  else e

theorem MeasuredRow.update_toEntityRow (source : List MetricRow) (e : MeasuredRow) :
    (e.update c project source).toEntityRow = e.toEntityRow := by
  unfold update
  split_ifs <;> rfl

/-- `UPDATE entity SET … FROM`, over `_prev_metrics` or `_staged_metrics`. -/
def MeasuredTable.updateFrom (source : List MetricRow) (t : MeasuredTable) : MeasuredTable where
  rows := t.rows.map (MeasuredRow.update c project source)
  ids := by
    have hid : ∀ e : MeasuredRow, (e.update c project source).id = e.id :=
      fun e => congrArg EntityRow.id (MeasuredRow.update_toEntityRow c project source e)
    rw [List.map_map]
    simpa only [Function.comp_def, hid] using t.ids

def MeasuredRow.toMetricRow (e : MeasuredRow) : MetricRow where
  project := e.project
  filePath := e.filePath
  startRow := e.startRow
  startCol := e.startCol
  metrics := e.metrics

/-- The rows of the snapshot. -/
def MetricsDb.snapshot (db : MetricsDb) : List MetricRow :=
  (db.entities.functions project).map MeasuredRow.toMetricRow

def MetricsDb.snapshotMetricsForRebuild (db : MetricsDb) : MetricsDb :=
  { db with prev := some (db.snapshot project) }

/-- The snapshot is written back, then the staged rows, which are consumed. -/
def MetricsDb.applyMetricsAfterRebuild (db : MetricsDb) : MetricsDb :=
  let restored := db.entities.updateFrom c project (db.prev.getD [])
  let applied := restored.updateFrom c project db.staged
  { db with
    entities := applied
    staged := db.staged.filter fun m => m.project ≠ project
    metricsReady := Function.update db.metricsReady project
      ((applied.functions project).any fun e => 0 < e.metrics.cyclomatic) }

def MetricsDb.resolveStagedMetrics (db : MetricsDb) : MetricsDb :=
  { db with
    entities := db.entities.updateFrom c project db.staged
    staged := db.staged.filter fun m => m.project ≠ project }

variable (changed : Option (List Str)) (includeTestFiles : Bool) (records : List RecordRow)

/-- The entity part of `buildGraph` with the metrics. -/
def MetricsDb.buildGraph (db : MetricsDb) : MetricsDb :=
  let files := rebuildFiles project changed records
  if files = [] then db
  else
    let db := db.snapshotMetricsForRebuild project
    let left := files.foldl (MeasuredTable.deleteFile project) db.entities
    let ids := r2n project files records left.entities.maxId
    let db := { db with entities := left.insertAll (entityRows includeTestFiles ids) }
    db.applyMetricsAfterRebuild c project

end Statements

/-! ## The entities are those of the rebuild -/

theorem MeasuredTable.entities_deleteFile (project : ℕ) (t : MeasuredTable) (filePath : Str) :
    (t.deleteFile project filePath).entities = t.entities.deleteFile project filePath := by
  have hrows : (t.rows.filter fun e =>
        filePath = [] ∨ ¬ (e.project = project ∧ e.filePath = filePath)).map
        MeasuredRow.toEntityRow =
      (t.rows.map MeasuredRow.toEntityRow).filter fun e =>
        filePath = [] ∨ ¬ (e.project = project ∧ e.filePath = filePath) := by
    rw [List.filter_map]
    rfl
  simp only [entities, deleteFile, EntityTable.deleteFile, hrows]

theorem MeasuredTable.entities_retained (project : ℕ) (files : List Str) (t : MeasuredTable) :
    (files.foldl (deleteFile project) t).entities = retained project files t.entities := by
  induction files generalizing t with
  | nil => rfl
  | cons filePath rest ih =>
      rw [List.foldl_cons, ih, entities_deleteFile]
      rfl

/-! ## One update -/

section Update

variable {c : Choice MetricRow} {project : ℕ} {source : List MetricRow}

variable {e : MeasuredRow}

theorem MeasuredRow.isMeasured_iff :
    e.isMeasured project = true ↔ e.project = project ∧ (e.kind = 0 ∨ e.kind = 1) := by
  simp [isMeasured]

theorem MeasuredRow.update_of_other (h : e.project ≠ project) : e.update c project source = e := by
  have hnot : ¬ e.isMeasured project = true := fun hm => h (isMeasured_iff.mp hm).1
  rw [update, if_neg hnot]

@[simp] theorem MeasuredRow.isMeasured_update (e : MeasuredRow) :
    (e.update c project source).isMeasured project = e.isMeasured project := by
  have hrow := e.update_toEntityRow c project source
  unfold isMeasured
  rw [hrow]

@[simp] theorem MeasuredRow.key_update (e : MeasuredRow) :
    (e.update c project source).key = e.key := by
  have hrow := e.update_toEntityRow c project source
  unfold key
  rw [hrow]

theorem MeasuredRow.metrics_update
    (hsource : ConsistentAt MetricRow.key MetricRow.metrics source e.key)
    (he : e.isMeasured project = true) :
    (e.update c project source).metrics =
      (KeyedUpdate.lookup MetricRow.key MetricRow.metrics source e.key).getD e.metrics := by
  rw [update, if_pos he, hsource.chosen_eq]

theorem MeasuredTable.mem_functions {t : MeasuredTable} :
    e ∈ t.functions project ↔ e ∈ t.rows ∧ e.isMeasured project = true :=
  List.mem_filter

/-- Without rows to join nothing changes. -/
theorem MeasuredTable.updateFrom_of_none (t : MeasuredTable)
    (hnone : ∀ m ∈ source, m.project ≠ project) : t.updateFrom c project source = t := by
  have hrow : ∀ e ∈ t.rows, e.update c project source = e := by
    intro e _
    by_cases he : e.isMeasured project = true
    · have hjoin : source.filter (fun m => m.key = e.key) = [] := by
        rw [List.filter_eq_nil_iff]
        intro m hm hkey
        have hsame : m.key = e.key := of_decide_eq_true hkey
        exact hnone m hm ((congrArg Prod.fst hsame).trans (MeasuredRow.isMeasured_iff.mp he).1)
      have htake : c.take [] = none := by
        cases htake : c.take [] with
        | none => rfl
        | some m => exact absurd (c.mem_of_take htake) List.not_mem_nil
      rw [MeasuredRow.update, if_pos he, chosen, hjoin, htake]
      rfl
    · rw [MeasuredRow.update, if_neg he]
  have hrows : t.rows.map (MeasuredRow.update c project source) = t.rows :=
    (List.map_congr_left hrow).trans (List.map_id _)
  simp only [updateFrom, hrows]

end Update

/-! ## The run -/

section Run

variable {c : Choice MetricRow} {project : ℕ} {changed : Option (List Str)}
  {includeTestFiles : Bool} {records : List RecordRow} {db : MetricsDb}

theorem MeasuredTable.mem_retained {files : List Str} {t : MeasuredTable} {e : MeasuredRow} :
    e ∈ (files.foldl (deleteFile project) t).rows ↔
      e ∈ t.rows ∧ ∀ f ∈ files, f = [] ∨ ¬ (e.project = project ∧ e.filePath = f) := by
  induction files generalizing t with
  | nil => simp
  | cons f rest ih =>
      rw [List.foldl_cons, ih, deleteFile, List.mem_filter, List.forall_mem_cons, decide_eq_true_eq,
        and_assoc]

theorem EntityTable.eq_of_rows {t t' : EntityTable} (h : t.rows = t'.rows) : t = t' := by
  cases t
  cases t'
  simpa using h

/-- The rows that a rebuild leaves and those it inserts, before the metrics. -/
def MetricsDb.leftRows (project : ℕ) (changed : Option (List Str)) (records : List RecordRow)
    (db : MetricsDb) : List MeasuredRow :=
  ((rebuildFiles project changed records).foldl (MeasuredTable.deleteFile project) db.entities).rows

def MetricsDb.newRows (project : ℕ) (changed : Option (List Str)) (includeTestFiles : Bool)
    (records : List RecordRow) (db : MetricsDb) : List MeasuredRow :=
  (entityRows includeTestFiles (entityIds project changed records db.entities.entities)).map
    fun e => { toEntityRow := e }

/-- **A rebuild puts the new rows behind those that are left and updates all of them twice.** -/
theorem MetricsDb.rows_buildGraph (hsome : rebuildFiles project changed records ≠ []) :
    (db.buildGraph c project changed includeTestFiles records).entities.rows =
      (db.leftRows project changed records ++
          db.newRows project changed includeTestFiles records).map fun e =>
        (e.update c project (db.snapshot project)).update c project db.staged := by
  have hleft := MeasuredTable.entities_retained project (rebuildFiles project changed records)
    db.entities
  have hunique : KeyedTable.Unique [fun e : MeasuredRow => e.id]
      (db.leftRows project changed records ++
        db.newRows project changed includeTestFiles records) := by
    have hids := KeyedTable.unique_singleton.mp
      (@entityRows_unique project changed records db.entities.entities includeTestFiles)
    rw [KeyedTable.unique_singleton]
    rw [retainedEntities, ← hleft, List.map_append] at hids
    rw [List.map_append, newRows, List.map_map]
    have hrows : (db.leftRows project changed records).map (fun e => e.id) =
        (((rebuildFiles project changed records).foldl (MeasuredTable.deleteFile project)
          db.entities).entities.rows).map EntityRow.id := by
      rw [MeasuredTable.entities, List.map_map]
      rfl
    rw [hrows]
    exact hids
  have hnew := KeyedTable.insertAll_eq_append hunique
  have hmap : ((db.leftRows project changed records ++
        db.newRows project changed includeTestFiles records).map
          (MeasuredRow.update c project (db.snapshot project))).map
          (MeasuredRow.update c project db.staged) =
      (db.buildGraph c project changed includeTestFiles records).entities.rows := by
    rw [← hnew]
    unfold buildGraph
    rw [if_neg hsome, newRows, entityIds, retainedEntities, ← hleft]
    rfl
  rw [← hmap, List.map_map]
  rfl

theorem MetricsDb.buildGraph_of_nil (hnone : rebuildFiles project changed records = []) :
    db.buildGraph c project changed includeTestFiles records = db := by
  unfold buildGraph
  rw [if_pos hnone]

/-- **The entities of a run are those of the rebuild without metrics.** -/
theorem MetricsDb.entities_buildGraph :
    (db.buildGraph c project changed includeTestFiles records).entities.entities =
      buildEntities project changed records db.entities.entities includeTestFiles := by
  by_cases hnone : rebuildFiles project changed records = []
  · rw [buildGraph_of_nil hnone, buildEntities, if_pos hnone]
  · have hleft : (db.leftRows project changed records).map MeasuredRow.toEntityRow =
        (retainedEntities project changed records db.entities.entities).rows := by
      rw [retainedEntities, ← MeasuredTable.entities_retained]
      rfl
    have hnew : (db.newRows project changed includeTestFiles records).map
        MeasuredRow.toEntityRow =
        entityRows includeTestFiles (entityIds project changed records db.entities.entities) := by
      rw [newRows, List.map_map]
      exact List.map_id _
    refine EntityTable.eq_of_rows ?_
    rw [buildEntities_rows, MeasuredTable.entities]
    show List.map _ (MetricsDb.buildGraph ..).entities.rows = _
    rw [rows_buildGraph hnone, List.map_map, ← hleft, ← hnew, ← List.map_append]
    refine List.map_congr_left ?_
    intro e _
    exact (MeasuredRow.update_toEntityRow ..).trans (MeasuredRow.update_toEntityRow ..)

end Run

/-! ## What a function carries -/

section Carried

variable {c : Choice MetricRow} {project : ℕ} {changed : Option (List Str)}
  {includeTestFiles : Bool} {records : List RecordRow} {db : MetricsDb}

/-- The metrics that belong to a key: the staged ones, else those of the function that is there,
    else the defaults. -/
def MetricsDb.metricsAt (project : ℕ) (db : MetricsDb) (k : MetricKey) : Metrics :=
  (KeyedUpdate.lookup MetricRow.key MetricRow.metrics db.staged k).getD
    ((KeyedUpdate.lookup MeasuredRow.key MeasuredRow.metrics
      (db.entities.functions project) k).getD {})

/-- Functions at one place have the same metrics, and so have the staged rows of the project. -/
structure MetricsDb.KeysFit (project : ℕ) (db : MetricsDb) : Prop where
  functions : ∀ k,
    ConsistentAt MeasuredRow.key MeasuredRow.metrics (db.entities.functions project) k
  staged : ∀ k : MetricKey, k.1 = project →
    ConsistentAt MetricRow.key MetricRow.metrics db.staged k

/-- No two functions of the project are at one place, and no two staged rows are. -/
structure MetricsDb.KeysUnique (project : ℕ) (db : MetricsDb) : Prop where
  functions : ((db.entities.functions project).map MeasuredRow.key).Nodup
  staged : ((db.stagedOf project).map MetricRow.key).Nodup

theorem MetricsDb.KeysUnique.fit (h : db.KeysUnique project) : db.KeysFit project where
  functions := by
    intro k
    refine ConsistentAt.of_nodup _ (fun _ => true) (fun _ _ _ => rfl) ?_
    rw [List.filter_true]
    exact h.functions
  staged := by
    intro k hk
    refine ConsistentAt.of_nodup _ (fun m => m.project = project) ?_ h.staged
    intro m _ hkey
    exact decide_eq_true ((congrArg Prod.fst hkey).trans hk)

theorem MetricsDb.lookup_snapshot (k : MetricKey) :
    KeyedUpdate.lookup MetricRow.key MetricRow.metrics (db.snapshot project) k =
      KeyedUpdate.lookup MeasuredRow.key MeasuredRow.metrics (db.entities.functions project) k := by
  rw [KeyedUpdate.lookup, snapshot, List.find?_map, Option.map_map]
  rfl

theorem MetricsDb.KeysFit.snapshot (h : db.KeysFit project) (k : MetricKey) :
    ConsistentAt MetricRow.key MetricRow.metrics (db.snapshot project) k := by
  intro m hm m' hm' hkey hkey'
  obtain ⟨e, he, rfl⟩ := List.mem_map.mp hm
  obtain ⟨e', he', rfl⟩ := List.mem_map.mp hm'
  exact h.functions k e he e' he' hkey hkey'

theorem MetricsDb.lookup_staged_of_nil (hnone : db.stagedOf project = []) {k : MetricKey}
    (hk : k.1 = project) :
    KeyedUpdate.lookup MetricRow.key MetricRow.metrics db.staged k = none := by
  rw [KeyedUpdate.lookup_eq_none]
  intro m hm hkey
  have hproject := List.filter_eq_nil_iff.mp hnone m hm
  exact hproject (decide_eq_true ((congrArg Prod.fst hkey).trans hk))

theorem MetricsDb.KeysFit.lookup_function (h : db.KeysFit project) {e : MeasuredRow}
    (he : e ∈ db.entities.functions project) :
    KeyedUpdate.lookup MeasuredRow.key MeasuredRow.metrics (db.entities.functions project) e.key =
      some e.metrics :=
  (h.functions e.key).lookup_eq he

/-- **What a function carries after a run is what belonged to its key before.** -/
theorem MetricsDb.metrics_buildGraph (hfit : db.KeysFit project)
    (hrun : rebuildFiles project changed records ≠ [] ∨ db.stagedOf project = []) :
    ∀ e ∈ (db.buildGraph c project changed includeTestFiles records).entities.functions project,
      e.metrics = db.metricsAt project e.key := by
  intro e he
  have hproject : e.key.1 = project :=
    (MeasuredRow.isMeasured_iff.mp (MeasuredTable.mem_functions.mp he).2).1
  by_cases hnone : rebuildFiles project changed records = []
  · -- nothing is rebuilt, and nothing is staged
    have hstaged := hrun.resolve_left (fun hsome => hsome hnone)
    rw [buildGraph_of_nil hnone] at he
    rw [metricsAt, lookup_staged_of_nil hstaged hproject, hfit.lookup_function he]
    rfl
  · obtain ⟨hrow, hmeasured⟩ := MeasuredTable.mem_functions.mp he
    rw [rows_buildGraph hnone] at hrow
    obtain ⟨e', he', rfl⟩ := List.mem_map.mp hrow
    have hkey : ((e'.update c project (db.snapshot project)).update c project db.staged).key =
        e'.key := by
      rw [MeasuredRow.key_update, MeasuredRow.key_update]
    rw [MeasuredRow.isMeasured_update, MeasuredRow.isMeasured_update] at hmeasured
    rw [hkey] at hproject ⊢
    have hfirst : (e'.update c project (db.snapshot project)).metrics =
        (KeyedUpdate.lookup MeasuredRow.key MeasuredRow.metrics
          (db.entities.functions project) e'.key).getD {} := by
      rw [MeasuredRow.metrics_update (hfit.snapshot _) hmeasured, lookup_snapshot]
      rcases List.mem_append.mp he' with hleft | hnew
      · -- a row that was left was in the snapshot
        have hthere := (MeasuredTable.mem_retained.mp hleft).1
        rw [hfit.lookup_function (MeasuredTable.mem_functions.mpr ⟨hthere, hmeasured⟩)]
        rfl
      · obtain ⟨row, -, rfl⟩ := List.mem_map.mp hnew
        rfl
    rw [MeasuredRow.metrics_update, MeasuredRow.key_update, hfirst, metricsAt]
    · rw [MeasuredRow.key_update]
      exact hfit.staged _ hproject
    · rwa [MeasuredRow.isMeasured_update]

theorem MetricsDb.staged_buildGraph (hsome : rebuildFiles project changed records ≠ []) :
    (db.buildGraph c project changed includeTestFiles records).staged =
      db.staged.filter fun m => m.project ≠ project := by
  unfold buildGraph
  rw [if_neg hsome]
  rfl

theorem MetricsDb.stagedOf_buildGraph
    (hrun : rebuildFiles project changed records ≠ [] ∨ db.stagedOf project = []) :
    (db.buildGraph c project changed includeTestFiles records).stagedOf project = [] := by
  by_cases hnone : rebuildFiles project changed records = []
  · rw [buildGraph_of_nil hnone]
    exact hrun.resolve_left (fun hsome => hsome hnone)
  · rw [stagedOf, staged_buildGraph hnone, List.filter_filter, List.filter_eq_nil_iff]
    intro m _
    simp

theorem MetricsDb.fit_buildGraph (hfit : db.KeysFit project)
    (hrun : rebuildFiles project changed records ≠ [] ∨ db.stagedOf project = []) :
    (db.buildGraph c project changed includeTestFiles records).KeysFit project where
  functions := by
    intro k e he e' he' hkey hkey'
    rw [metrics_buildGraph hfit hrun e he, metrics_buildGraph hfit hrun e' he', hkey, hkey']
  staged := by
    intro k hk m hm m' _ hkey _
    have hnone := List.filter_eq_nil_iff.mp (stagedOf_buildGraph hrun) m hm
    exact absurd (decide_eq_true ((congrArg Prod.fst hkey).trans hk)) hnone

/-- **A run that finds nothing staged changes no metric.** -/
theorem MetricsDb.metrics_unchanged (hfit : db.KeysFit project)
    (hstaged : db.stagedOf project = []) :
    ∀ e ∈ (db.buildGraph c project changed includeTestFiles records).entities.functions project,
      ∀ e' ∈ db.entities.functions project, e.key = e'.key → e.metrics = e'.metrics := by
  intro e he e' he' hkey
  have hproject : e.key.1 = project :=
    (MeasuredRow.isMeasured_iff.mp (MeasuredTable.mem_functions.mp he).2).1
  rw [metrics_buildGraph hfit (.inr hstaged) e he, metricsAt,
    lookup_staged_of_nil hstaged hproject, hkey, hfit.lookup_function he']
  rfl

end Carried

/-! ## Other projects -/

section Others

variable {c : Choice MetricRow} {project : ℕ} {changed : Option (List Str)}
  {includeTestFiles : Bool} {records : List RecordRow} {db : MetricsDb}

theorem MeasuredTable.others_retained (files : List Str) (t : MeasuredTable) :
    (files.foldl (deleteFile project) t).rows.filter (fun e => e.project ≠ project) =
      t.rows.filter fun e => e.project ≠ project := by
  induction files generalizing t with
  | nil => rfl
  | cons f rest ih =>
      rw [List.foldl_cons, ih, deleteFile, List.filter_filter]
      refine List.filter_congr ?_
      intro e _
      by_cases hproject : e.project = project
      · simp [hproject]
      · simp [hproject]

theorem MetricsDb.project_of_newRows {e : MeasuredRow}
    (he : e ∈ db.newRows project changed includeTestFiles records) : e.project = project := by
  obtain ⟨row, hrow, rfl⟩ := List.mem_map.mp he
  obtain ⟨p, hp, rfl⟩ := List.mem_map.mp hrow
  have hrecord := List.mem_of_mem_filter (Ranking.mem_of_ranked (List.mem_of_mem_filter hp))
  exact of_decide_eq_true (List.mem_filter.mp hrecord).2

/-- No entity of another project is touched. -/
theorem MetricsDb.others_buildGraph :
    (db.buildGraph c project changed includeTestFiles records).entities.rows.filter
        (fun e => e.project ≠ project) =
      db.entities.rows.filter fun e => e.project ≠ project := by
  by_cases hnone : rebuildFiles project changed records = []
  · rw [buildGraph_of_nil hnone]
  · have hproject : ∀ e : MeasuredRow,
        ((e.update c project (db.snapshot project)).update c project db.staged).project =
          e.project := fun e => congrArg EntityRow.project
      ((MeasuredRow.update_toEntityRow ..).trans (MeasuredRow.update_toEntityRow ..))
    have hnew : (db.newRows project changed includeTestFiles records).filter
        (fun e => e.project ≠ project) = [] := by
      rw [List.filter_eq_nil_iff]
      intro e he
      simp [project_of_newRows he]
    have hleft : (db.leftRows project changed records).filter (fun e => e.project ≠ project) =
        db.entities.rows.filter fun e => e.project ≠ project :=
      MeasuredTable.others_retained _ _
    rw [rows_buildGraph hnone, List.filter_map]
    simp only [Function.comp_def, hproject]
    rw [List.filter_append, hnew, hleft, List.append_nil]
    refine (List.map_congr_left ?_).trans (List.map_id _)
    intro e he
    have hother : e.project ≠ project := of_decide_eq_true (List.mem_filter.mp he).2
    rw [MeasuredRow.update_of_other hother, MeasuredRow.update_of_other hother]
    rfl

theorem MetricsDb.stagedOthers_buildGraph :
    (db.buildGraph c project changed includeTestFiles records).staged.filter
        (fun m => m.project ≠ project) =
      db.staged.filter fun m => m.project ≠ project := by
  by_cases hnone : rebuildFiles project changed records = []
  · rw [buildGraph_of_nil hnone]
  · rw [staged_buildGraph hnone, List.filter_filter]
    simp only [Bool.and_self]

end Others

/-! ## The same entities again -/

section Again

variable {project : ℕ} {changed : Option (List Str)} {includeTestFiles : Bool}
  {records : List RecordRow} {entities : EntityTable}

/-- The rows that a rebuild inserts, without their ids: they do not depend on the entities. -/
def insertedEntities (project : ℕ) (changed : Option (List Str)) (includeTestFiles : Bool)
    (records : List RecordRow) : List EntityRow :=
  entitiesOfRecords includeTestFiles
    ((recordsOf project records).filter
      (RecordRow.eligible (rebuildFiles project changed records)))

theorem mem_insertedEntities {a : EntityRow} :
    a ∈ (entityRows includeTestFiles (entityIds project changed records entities)).map
        EntityRow.anonymous ↔
      a ∈ insertedEntities project changed includeTestFiles records := by
  have hrecords : ∀ row : RecordRow, row ∈ (entityIds project changed records entities).map (·.1) ↔
      row ∈ (recordsOf project records).filter
        (RecordRow.eligible (rebuildFiles project changed records)) :=
    fun _ => entityIds_records.mem_iff
  rw [insertedEntities, entitiesOfRecords, entityRows, List.map_map, List.mem_map, List.mem_map]
  constructor
  · rintro ⟨p, hp, rfl⟩
    obtain ⟨hmem, hshown⟩ := List.mem_filter.mp hp
    have heligible := (hrecords p.1).mp (List.mem_map_of_mem hmem)
    have hdeclares := (Bool.and_eq_true_iff.mp (List.mem_filter.mp heligible).2).1
    exact ⟨p.1, List.mem_filter.mpr ⟨heligible, by rw [hdeclares, hshown]; rfl⟩, rfl⟩
  · rintro ⟨row, hrow, rfl⟩
    obtain ⟨heligible, hshown⟩ := List.mem_filter.mp hrow
    obtain ⟨p, hp, rfl⟩ := List.mem_map.mp ((hrecords row).mpr heligible)
    exact ⟨p, List.mem_filter.mpr ⟨hp, (Bool.and_eq_true_iff.mp hshown).2⟩, rfl⟩

/-- The entities after a rebuild, without their ids. -/
theorem mem_anonymous_buildEntities {a : EntityRow} :
    a ∈ (buildEntities project changed records entities includeTestFiles).rows.map
        EntityRow.anonymous ↔
      (a ∈ entities.rows.map EntityRow.anonymous ∧ (a.filePath = [] ∨
          ¬ (a.project = project ∧ a.filePath ∈ rebuildFiles project changed records))) ∨
        a ∈ insertedEntities project changed includeTestFiles records := by
  rw [buildEntities_rows, List.map_append, List.mem_append, mem_insertedEntities, retainedEntities,
    retained_rows]
  refine or_congr_left ?_
  constructor
  · intro ha
    obtain ⟨e, he, rfl⟩ := List.mem_map.mp ha
    obtain ⟨hrow, hkept⟩ := List.mem_filter.mp he
    exact ⟨List.mem_map_of_mem hrow, of_decide_eq_true hkept⟩
  · rintro ⟨ha, hkept⟩
    obtain ⟨e, he, rfl⟩ := List.mem_map.mp ha
    exact List.mem_map_of_mem (List.mem_filter.mpr ⟨he, decide_eq_true hkept⟩)

/-- **A second rebuild of the same files has the same entities**, up to their ids. -/
theorem mem_anonymous_buildEntities_again {a : EntityRow} :
    a ∈ (buildEntities project changed records
          (buildEntities project changed records entities includeTestFiles)
          includeTestFiles).rows.map EntityRow.anonymous ↔
      a ∈ (buildEntities project changed records entities includeTestFiles).rows.map
        EntityRow.anonymous := by
  rw [mem_anonymous_buildEntities, mem_anonymous_buildEntities]
  tauto

end Again

/-! ## Metrics survive -/

section Survive

variable (c : Choice MetricRow) (project : ℕ) (changed : Option (List Str))
  (includeTestFiles : Bool) (records : List RecordRow) (db : MetricsDb)

/-- The places of the functions with what they carry. -/
def MetricsDb.carried (db : MetricsDb) : List (MetricKey × Metrics) :=
  (db.entities.functions project).map fun e => (e.key, e.metrics)

/-- What a run is meant to leave. -/
structure MetricsSurvive (after : MetricsDb) : Prop where
  /-- every function carries the staged metrics at its place, else the former ones, else the
  defaults -/
  metrics : ∀ e ∈ after.entities.functions project, e.metrics = db.metricsAt project e.key
  consumed : after.stagedOf project = []
  /-- other projects are as they were -/
  entities : after.entities.rows.filter (fun e => e.project ≠ project) =
    db.entities.rows.filter fun e => e.project ≠ project
  staged : after.staged.filter (fun m => m.project ≠ project) =
    db.staged.filter fun m => m.project ≠ project
  /-- no later run changes the metrics of a function -/
  kept : ∀ changed' includeTestFiles' records',
    ∀ e ∈ (after.buildGraph c project changed' includeTestFiles' records').entities.functions
        project,
      ∀ e' ∈ after.entities.functions project, e.key = e'.key → e.metrics = e'.metrics
  /-- the same run once more leaves the same -/
  again : ∀ p, p ∈ (after.buildGraph c project changed includeTestFiles records).carried project ↔
    p ∈ after.carried project
  /-- and there is nothing left to resolve -/
  resolved : (after.resolveStagedMetrics c project).entities = after.entities

variable {c project changed includeTestFiles records db}

theorem MeasuredRow.of_anonymous {e e' : MeasuredRow}
    (h : e.toEntityRow.anonymous = e'.toEntityRow.anonymous) :
    e.key = e'.key ∧ ∀ project, e.isMeasured project = e'.isMeasured project := by
  simp only [EntityRow.anonymous, EntityRow.mk.injEq] at h
  obtain ⟨-, hproject, hkind, -, -, hpath, -, hrow, hcol, -⟩ := h
  constructor
  · rw [MeasuredRow.key, MeasuredRow.key, hproject, hpath, hrow, hcol]
  · intro project
    rw [MeasuredRow.isMeasured, MeasuredRow.isMeasured, hproject, hkind]

theorem MeasuredTable.exists_function {t t' : MeasuredTable}
    (hsame : ∀ a, a ∈ t.entities.rows.map EntityRow.anonymous →
      a ∈ t'.entities.rows.map EntityRow.anonymous)
    {e : MeasuredRow} (he : e ∈ t.functions project) :
    ∃ e' ∈ t'.functions project, e'.key = e.key := by
  obtain ⟨hrow, hmeasured⟩ := mem_functions.mp he
  have ha := hsame e.toEntityRow.anonymous (List.mem_map_of_mem (List.mem_map_of_mem hrow))
  obtain ⟨row, hrow', hanonymous⟩ := List.mem_map.mp ha
  obtain ⟨e', he', rfl⟩ := List.mem_map.mp hrow'
  obtain ⟨hkey, hmeasured'⟩ := MeasuredRow.of_anonymous hanonymous
  exact ⟨e', mem_functions.mpr ⟨he', (hmeasured' project).trans hmeasured⟩, hkey⟩

theorem MetricsDb.carried_again
    (hkept : ∀ e ∈ ((db.buildGraph c project changed includeTestFiles records).buildGraph c project
        changed includeTestFiles records).entities.functions project,
      ∀ e' ∈ (db.buildGraph c project changed includeTestFiles records).entities.functions project,
        e.key = e'.key → e.metrics = e'.metrics) (p : MetricKey × Metrics) :
    p ∈ ((db.buildGraph c project changed includeTestFiles records).buildGraph c project changed
        includeTestFiles records).carried project ↔
      p ∈ (db.buildGraph c project changed includeTestFiles records).carried project := by
  have hrows : ∀ a,
      a ∈ ((db.buildGraph c project changed includeTestFiles records).buildGraph c project changed
          includeTestFiles records).entities.entities.rows.map EntityRow.anonymous ↔
        a ∈ (db.buildGraph c project changed includeTestFiles
          records).entities.entities.rows.map EntityRow.anonymous := by
    intro a
    rw [entities_buildGraph, entities_buildGraph]
    exact mem_anonymous_buildEntities_again
  constructor
  · intro hp
    obtain ⟨e, he, rfl⟩ := List.mem_map.mp hp
    obtain ⟨e', he', hkey⟩ := MeasuredTable.exists_function (fun a => (hrows a).mp) he
    refine List.mem_map.mpr ⟨e', he', ?_⟩
    rw [hkey, hkept e he e' he' hkey.symm]
  · intro hp
    obtain ⟨e', he', rfl⟩ := List.mem_map.mp hp
    obtain ⟨e, he, hkey⟩ := MeasuredTable.exists_function (fun a => (hrows a).mpr) he'
    refine List.mem_map.mpr ⟨e, he, ?_⟩
    rw [hkey, hkept e he e' he' hkey]

theorem metricsSurvive_of_run (hfit : db.KeysFit project)
    (hrun : rebuildFiles project changed records ≠ [] ∨ db.stagedOf project = []) :
    MetricsSurvive c project changed includeTestFiles records db
      (db.buildGraph c project changed includeTestFiles records) where
  metrics := MetricsDb.metrics_buildGraph hfit hrun
  consumed := MetricsDb.stagedOf_buildGraph hrun
  entities := MetricsDb.others_buildGraph
  staged := MetricsDb.stagedOthers_buildGraph
  kept := fun _ _ _ => MetricsDb.metrics_unchanged (MetricsDb.fit_buildGraph hfit hrun)
    (MetricsDb.stagedOf_buildGraph hrun)
  again := MetricsDb.carried_again (MetricsDb.metrics_unchanged
    (MetricsDb.fit_buildGraph hfit hrun) (MetricsDb.stagedOf_buildGraph hrun))
  resolved := by
    refine MeasuredTable.updateFrom_of_none _ ?_
    intro m hm hproject
    have hnone := List.filter_eq_nil_iff.mp (MetricsDb.stagedOf_buildGraph hrun) m hm
    exact hnone (decide_eq_true hproject)

end Survive

/-- **Metrics survive a run exactly when it rebuilds a file or finds nothing staged.** -/
theorem metrics_survive_iff (c : Choice MetricRow) (project : ℕ) (changed : Option (List Str))
    (includeTestFiles : Bool) (records : List RecordRow) (db : MetricsDb)
    (hunique : db.KeysUnique project) :
    MetricsSurvive c project changed includeTestFiles records db
        (db.buildGraph c project changed includeTestFiles records) ↔
      rebuildFiles project changed records ≠ [] ∨ db.stagedOf project = [] := by
  constructor
  · intro hsurvive
    by_cases hnone : rebuildFiles project changed records = []
    · refine Or.inr ?_
      have hconsumed := hsurvive.consumed
      rwa [MetricsDb.buildGraph_of_nil hnone] at hconsumed
    · exact Or.inl hnone
  · exact metricsSurvive_of_run hunique.fit

/-- A function with its staged metrics. -/
def stagedFunction : MetricsDb where
  entities :=
    ⟨[{ toEntityRow := .ofRecord (⟨1, str "a.c", functionRecord (str "f") 0⟩, 1) }], by decide⟩
  staged := [⟨1, str "a.c", 0, 0, { cyclomatic := 3 }⟩]
  prev := none
  metricsReady := fun _ => false

theorem metrics_survive_iff_stagedFunction :
    (stagedFunction.buildGraph .first 1 none false
        [⟨1, str "a.c", functionRecord (str "f") 0⟩]).stagedOf 1 = [] := by
  have hunique : stagedFunction.KeysUnique 1 := ⟨by decide, by decide⟩
  have hfiles : rebuildFiles 1 none [⟨1, str "a.c", functionRecord (str "f") 0⟩] ≠ [] := by decide
  exact ((metrics_survive_iff .first 1 none false _ _ hunique).mpr (.inl hfiles)).consumed

/-- An incremental run without a changed file leaves the metrics staged. -/
theorem metrics_stay_staged :
    let db := stagedFunction.buildGraph .first 1 (some []) false
      [⟨1, str "a.c", functionRecord (str "f") 0⟩]
    stagedFunction.KeysUnique 1 ∧
      (∃ e ∈ db.entities.functions 1,
        e.metrics.cyclomatic = 0 ∧ (stagedFunction.metricsAt 1 e.key).cyclomatic = 3) ∧
      db.stagedOf 1 ≠ [] := by
  intro db
  have hdb : db = stagedFunction := MetricsDb.buildGraph_of_nil (by decide)
  rw [hdb]
  exact ⟨⟨by decide, by decide⟩, by decide, by decide⟩

end CodeScope.Store
