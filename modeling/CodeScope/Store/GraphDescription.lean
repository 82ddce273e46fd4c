import CodeScope.Store.GraphTables

/-! # What a rebuild leaves

The graph tables are described by the records and a numbering of those that stand for an entity. A
rebuild turns a description of the old tables into one of the new ones; how it falls short of a
fresh one is part of the description: function scopes that are lost, relations that are left. -/

namespace CodeScope.Store

open Text (Str str)

/-! ## Clearing files -/

section Clear

variable (project : ℕ) (files : List Str) (t : GraphTables)

/-- The entities that the DELETEs of the files remove. -/
def GraphTables.clearedEntities : List EntityRow :=
  (t.projectEntities project).filter fun e => e.filePath ∈ files ∧ e.filePath ≠ []

/-- What the DELETEs of the files leave. -/
def GraphTables.clear : GraphTables where
  entities := retained project files t.entities
  references := t.references.filter fun ref =>
    ref.callerId ∉ (t.clearedEntities project files).map (·.id)
  relations := t.relations.filter fun edge =>
    ¬ (edge.1 ∈ (t.clearedEntities project files).map (·.id) ∨
      edge.2 ∈ (t.clearedEntities project files).map (·.id))
  modules := t.modules
  functions := t.functions.filter fun scope =>
    scope.name ∉ (t.clearedEntities project files).map (·.name)
  imports := t.imports.filter fun row => row.path.file ∉ files ∨ row.path.file = []
  scopeSeq := t.scopeSeq
  importSeq := t.importSeq

end Clear

section ClearFiles

variable {project : ℕ} {files : List Str} {t : GraphTables}

theorem clear_references : (t.clear project files).references = t.references.filter fun ref =>
    ref.callerId ∉ (t.clearedEntities project files).map (·.id) := rfl

theorem clear_relations : (t.clear project files).relations = t.relations.filter fun edge =>
    ¬ (edge.1 ∈ (t.clearedEntities project files).map (·.id) ∨
      edge.2 ∈ (t.clearedEntities project files).map (·.id)) := rfl

theorem clear_functions : (t.clear project files).functions = t.functions.filter fun scope =>
    scope.name ∉ (t.clearedEntities project files).map (·.name) := rfl

theorem clear_imports : (t.clear project files).imports = t.imports.filter fun row =>
    row.path.file ∉ files ∨ row.path.file = [] := rfl

theorem projectEntities_clear : (t.clear project files).projectEntities project =
    (t.projectEntities project).filter fun e => e.filePath = [] ∨ e.filePath ∉ files := by
  rw [GraphTables.projectEntities, GraphTables.clear, retained_rows, GraphTables.projectEntities,
    List.filter_filter, List.filter_filter]
  refine List.filter_congr ?_
  intro e _
  by_cases hproject : e.project = project
  · simp [hproject]
  · simp [hproject]

theorem deleteRows_file {f : Str} (hnamed : f ≠ []) :
    (deleteGraphDataByFile noGraphFaults f).foldl (GraphTables.deleteRows project) t =
      t.clear project [f] := by
  have hentities : t.clearedEntities project [f] = t.fileEntities project f := by
    refine List.filter_congr ?_
    intro e _
    simp only [List.mem_singleton, decide_eq_decide, and_iff_left_iff_imp]
    rintro rfl
    exact hnamed
  have himports : t.imports.filter (fun row => row.path.file ∉ [f] ∨ row.path.file = []) =
      t.imports.filter fun row => row.path.file ≠ f := by
    refine List.filter_congr ?_
    intro row _
    simp only [List.mem_singleton, decide_eq_decide, or_iff_left_iff_imp]
    rintro hempty rfl
    exact hnamed hempty
  rw [deleteGraphDataByFile, if_neg hnamed, GraphTables.clear, hentities, himports]
  rfl

/-- What is cleared is cleared with the first file or later. -/
theorem mem_map_clearedEntities_cons {β : Type} (g : EntityRow → β) (b : β) {f : Str}
    (hnamed : f ≠ []) :
    b ∈ (t.clearedEntities project (f :: files)).map g ↔
      b ∈ (t.clearedEntities project [f]).map g ∨
        b ∈ ((t.clear project [f]).clearedEntities project files).map g := by
  have hrow : ∀ e, e ∈ t.clearedEntities project (f :: files) ↔
      e ∈ t.clearedEntities project [f] ∨
        e ∈ (t.clear project [f]).clearedEntities project files := by
    intro e
    rw [GraphTables.clearedEntities, GraphTables.clearedEntities, GraphTables.clearedEntities,
      projectEntities_clear]
    simp only [List.mem_filter, List.mem_cons, List.not_mem_nil, or_false, decide_eq_true_eq]
    by_cases hfile : e.filePath = f
    · simp [hfile, hnamed]
    · simp [hfile]
  simp only [List.mem_map, ← exists_or, ← or_and_right]
  exact exists_congr fun e => and_congr_left fun _ => hrow e

theorem clear_clear {f : Str} (hnamed : f ≠ []) :
    (t.clear project [f]).clear project files = t.clear project (f :: files) := by
  have hids : ∀ i : Int, i ∈ (t.clearedEntities project (f :: files)).map (·.id) ↔ _ :=
    fun i => mem_map_clearedEntities_cons (·.id) i hnamed
  have hnames : ∀ n : Str, n ∈ (t.clearedEntities project (f :: files)).map (·.name) ↔ _ :=
    fun n => mem_map_clearedEntities_cons (·.name) n hnamed
  refine GraphTables.ext rfl ?_ ?_ rfl ?_ ?_ rfl rfl
  · rw [clear_references, clear_references, clear_references, List.filter_filter]
    refine List.filter_congr ?_
    intro ref _
    rw [← Bool.decide_and, decide_eq_decide, hids]
    tauto
  · rw [clear_relations, clear_relations, clear_relations, Finset.filter_filter]
    refine Finset.filter_congr ?_
    intro edge _
    rw [hids, hids]
    tauto
  · rw [clear_functions, clear_functions, clear_functions, List.filter_filter]
    refine List.filter_congr ?_
    intro scope _
    rw [← Bool.decide_and, decide_eq_decide, hnames]
    tauto
  · rw [clear_imports, clear_imports, clear_imports, List.filter_filter]
    refine List.filter_congr ?_
    intro row _
    rw [← Bool.decide_and, decide_eq_decide, List.mem_cons, List.mem_cons]
    by_cases hempty : row.path.file = []
    · simp [hempty]
    · simp [hempty, and_comm]

theorem clear_skip : t.clear project ([] :: files) = t.clear project files := by
  have hcleared : t.clearedEntities project ([] :: files) = t.clearedEntities project files := by
    refine List.filter_congr ?_
    intro e _
    by_cases hempty : e.filePath = []
    · simp [hempty]
    · simp [hempty]
  have hentities : retained project ([] :: files) t.entities =
      retained project files t.entities := by
    have hskip : t.entities.deleteFile project [] = t.entities := by
      rw [EntityTable.deleteFile]
      congr 1
      simp
    conv_lhs => rw [retained, List.foldl_cons, hskip]
    rfl
  rw [GraphTables.clear, GraphTables.clear, hcleared, hentities]
  congr 1
  refine List.filter_congr ?_
  intro row _
  by_cases hempty : row.path.file = []
  · simp [hempty]
  · simp [hempty]

theorem clear_nil : t.clear project [] = t := by
  simp [GraphTables.clear, GraphTables.clearedEntities, retained]

/-- **The DELETEs of a run** clear its files. -/
theorem foldl_deleteRows :
    (files.flatMap (deleteGraphDataByFile noGraphFaults)).foldl
      (GraphTables.deleteRows project) t = t.clear project files := by
  induction files generalizing t with
  | nil => exact clear_nil.symm
  | cons f rest ih =>
      rw [List.flatMap_cons, List.foldl_append]
      by_cases hempty : f = []
      · rw [hempty, clear_skip, ← ih]
        rfl
      · rw [deleteRows_file hempty, ih, clear_clear hempty]

end ClearFiles

/-! ## Numberings -/

section Numbering

variable (project : ℕ) (includeTestFiles : Bool) (changed : Option (List Str)) (R : RecordTable)

/-- The test filter. -/
def RecordRow.shown (row : RecordRow) : Bool := includeTestFiles || passesTestFilter row.filePath

/-- The records that stand for an entity of the graph. -/
def declaredRecords : List RecordRow :=
  (recordsOf project R.records).filter fun row => row.declares && row.shown includeTestFiles

/-- The call records of the graph. -/
def callRecords : List RecordRow :=
  (recordsOf project R.records).filter fun row => row.calls && row.shown includeTestFiles

/-- The ids a rebuild gives to entities. -/
def newIds (entities : EntityTable) : NodeIds :=
  (entityIds project changed R.records entities).filter fun p => p.1.shown includeTestFiles

/-- The ids it leaves. -/
def keptIds (ids : NodeIds) : NodeIds :=
  ids.filter fun p =>
    p.1.filePath = [] ∨ p.1.filePath ∉ rebuildFiles project changed R.records

/-- The ids after a rebuild. -/
def nextIds (ids : NodeIds) (entities : EntityTable) : NodeIds :=
  keptIds project changed R ids ++ newIds project includeTestFiles changed R entities

/-- The module that an import with this id is taken to be in: that of the record with the id as its
    `rowid`, if there is an entity in the record's file. -/
def importModule (id : ℕ) : Option Str :=
  (R.rows.find? fun s => s.rowid = id ∧ s.row.project = project).bind fun s =>
    if modulePathOf s.row.filePath ≠ [] ∧
        s.row.filePath ∈ (declaredRecords project includeTestFiles R).map (·.filePath)
    then some (modulePathOf s.row.filePath) else none

/-- The imports of the files to rebuild, in the order of the scan. -/
def importPaths : List PathRec :=
  ((recordsOf project R.records).filter fun row =>
      row.record.kind = .import && row.record.name ≠ [] &&
        row.filePath ∈ rebuildFiles project changed R.records && row.shown includeTestFiles).flatMap
    fun row => pathRecs row.record.name row.filePath

/-- A file whose records may change. -/
def touched (changed : Option (List Str)) (filePath : Str) : Bool := changed.all (filePath ∈ ·)

/-- The declared records of touched files that a rebuild does not clear: the file has no records any
    more, or no path. -/
def leftRecords (R₀ : RecordTable) : List RecordRow :=
  (declaredRecords project includeTestFiles R₀).filter fun row =>
    touched changed row.filePath &&
      decide (row.filePath = [] ∨ row.filePath ∉ rebuildFiles project changed R.records)

/-- The records of the project are the same, the touched files apart. -/
def SameOutside (R₀ : RecordTable) : Prop :=
  (R₀.rows.filter fun s => s.row.project = project ∧ touched changed s.row.filePath = false).Perm
    (R.rows.filter fun s => s.row.project = project ∧ touched changed s.row.filePath = false)

/-- The imports after a rebuild, with their ids. -/
def nextImports (imports : List (ℕ × PathRec)) (seq : ℕ) : List (ℕ × PathRec) :=
  (imports.filter fun p => p.2.file ∉ rebuildFiles project changed R.records ∨ p.2.file = []) ++
    numberImports seq (importPaths project includeTestFiles changed R)

end Numbering

/-! ## Entities -/

section Entities

variable {project : ℕ} {includeTestFiles : Bool} {changed : Option (List Str)} {R : RecordTable}
  {α : Type} [LinearOrder α] [OrderBot α] {score : EntityRow → ReferenceRow → EntityRow → α}
  {t : GraphTables} {ids : NodeIds}

theorem perform_nothing : t.perform project includeTestFiles R score {} = t := by
  simp [GraphTables.perform, GraphTables.insertImports, numberImports]

theorem rebuild_of_nil (hnone : rebuildFiles project changed R.records = []) :
    t.rebuild project includeTestFiles R score changed = t := by
  have hwrites := (buildGraph_noFaults_writes_nothing_iff project changed includeTestFiles
    ⟨R.records, t.entities, none, none⟩).mpr hnone
  rw [GraphTables.rebuild, hwrites, perform_nothing]

theorem rebuild_of_cons (hsome : rebuildFiles project changed R.records ≠ []) :
    t.rebuild project includeTestFiles R score changed =
      let files := rebuildFiles project changed R.records
      let ids := entityIds project changed R.records t.entities
      let paths := importPlan (importRows project includeTestFiles
        ⟨R.records, t.entities, none, none⟩ files.toFinset)
      ((((((((((t.clear project files).insertEntities includeTestFiles ids).insertReferences
        project includeTestFiles R files.toFinset ids).insertImports paths.flatten).insertModules
        project files.toFinset).insertFunctions project files.toFinset).deleteOrphanModules
        project).deleteOrphanFunctions).updateImportScopes project R).insertRelations
        project score) := by
  rw [GraphTables.rebuild, buildGraph_noFaults hsome, rebuiltIds_eq, GraphTables.perform]
  simp only [GraphWrites.complete, foldl_deleteRows]
  rfl

theorem keptIds_of_nil (hnone : rebuildFiles project changed R.records = []) :
    keptIds project changed R ids = ids := by
  rw [keptIds, hnone]
  simp

variable {entities : EntityTable} {R₀ : RecordTable}

theorem nextIds_of_nil (hnone : rebuildFiles project changed R.records = []) :
    nextIds project includeTestFiles changed R ids entities = ids := by
  rw [nextIds, newIds, entityIds_of_nil hnone, keptIds_of_nil hnone]
  exact List.append_nil ids

/-- **The entities after a run** are those of the ids that are kept and of the new ones. -/
theorem projectEntities_rebuild (includeTestFiles : Bool) (changed : Option (List Str))
    (R : RecordTable) (score : EntityRow → ReferenceRow → EntityRow → α)
    (hentities : t.projectEntities project = ids.map .ofRecord) :
    (t.rebuild project includeTestFiles R score changed).projectEntities project =
      (nextIds project includeTestFiles changed R ids t.entities).map .ofRecord := by
  by_cases hnone : rebuildFiles project changed R.records = []
  · rw [rebuild_of_nil hnone, nextIds_of_nil hnone, hentities]
  · have hrows : (t.rebuild project includeTestFiles R score changed).entities.rows =
        (t.clear project (rebuildFiles project changed R.records)).entities.rows ++
          entityRows includeTestFiles (entityIds project changed R.records t.entities) := by
      rw [rebuild_of_cons hnone]
      exact KeyedTable.insertAll_eq_append (entityRows_unique includeTestFiles)
    have hkept : (t.clear project (rebuildFiles project changed R.records)).projectEntities
        project = (keptIds project changed R ids).map .ofRecord := by
      rw [projectEntities_clear, hentities, List.filter_map, keptIds]
      rfl
    have hnew : (entityRows includeTestFiles
        (entityIds project changed R.records t.entities)).filter (fun e => e.project = project) =
        (newIds project includeTestFiles changed R t.entities).map .ofRecord := by
      refine (List.filter_eq_self.mpr ?_).trans rfl
      intro e he
      obtain ⟨p, hp, rfl⟩ := List.mem_map.mp he
      have hrow := Ranking.mem_of_ranked (List.mem_filter.mp hp).1
      have hproject := (List.mem_filter.mp (List.mem_filter.mp hrow).1).2
      exact hproject
    rw [GraphTables.projectEntities, hrows, List.filter_append, nextIds, List.map_append, hnew]
    congr 1

/-! ## The records behind the entities -/

theorem mem_rebuildFiles_of_record {row : RecordRow} (hrow : row ∈ recordsOf project R.records) :
    row.filePath ∈ rebuildFiles project changed R.records ↔
      touched changed row.filePath = true := by
  rw [mem_rebuildFiles, touched, Option.all_eq_true]
  simp only [decide_eq_true_eq, Option.mem_def]
  exact and_iff_right ⟨row, hrow, rfl⟩

theorem touched_of_mem {filePath : Str} (h : filePath ∈ rebuildFiles project changed R.records) :
    touched changed filePath = true := by
  rw [touched, Option.all_eq_true]
  intro files hfiles
  exact decide_eq_true ((mem_rebuildFiles.mp h).2 files hfiles)

/-- Outside the touched files the tables have the same records of any kind. -/
theorem SameOutside.filter_perm (hsame : SameOutside project changed R R₀)
    (select : RecordRow → Bool) :
    (((recordsOf project R₀.records).filter select).filter fun row =>
        ! touched changed row.filePath).Perm
      (((recordsOf project R.records).filter select).filter fun row =>
        ! touched changed row.filePath) := by
  have hrows : ∀ T : RecordTable, ((recordsOf project T.records).filter select).filter
      (fun row => ! touched changed row.filePath) =
      ((T.rows.filter fun s =>
        s.row.project = project ∧ touched changed s.row.filePath = false).map (·.row)).filter
          select := by
    intro T
    rw [recordsOf, RecordTable.records, List.filter_map, List.filter_map, List.filter_map,
      List.filter_map, List.filter_filter, List.filter_filter, List.filter_filter]
    congr 1
    refine List.filter_congr ?_
    intro s _
    simp only [Function.comp_apply]
    cases touched changed s.row.filePath <;> cases select s.row <;> simp
  rw [hrows, hrows]
  exact (hsame.map _).filter _

theorem newIds_records :
    ((newIds project includeTestFiles changed R entities).map (·.1)).Perm
      ((declaredRecords project includeTestFiles R).filter fun row =>
        touched changed row.filePath) := by
  have hnew : (newIds project includeTestFiles changed R entities).map (·.1) =
      ((entityIds project changed R.records entities).map (·.1)).filter
        (RecordRow.shown includeTestFiles) := by
    rw [newIds, List.filter_map]
    rfl
  rw [hnew]
  refine (entityIds_records.filter _).trans (List.Perm.of_eq ?_)
  rw [declaredRecords, List.filter_filter, List.filter_filter]
  refine List.filter_congr ?_
  intro row hrow
  have hfile : decide (row.filePath ∈ rebuildFiles project changed R.records) =
      touched changed row.filePath := by
    rw [Bool.eq_iff_iff, decide_eq_true_eq, mem_rebuildFiles_of_record hrow]
  rw [RecordRow.eligible, hfile]
  cases row.declares <;> cases row.shown includeTestFiles <;> simp

/-- **The records behind the entities after a run**: the declared ones, and those that are left. -/
theorem nextIds_records (hsame : SameOutside project changed R R₀)
    (hids : (ids.map (·.1)).Perm (declaredRecords project includeTestFiles R₀)) :
    ((nextIds project includeTestFiles changed R ids entities).map (·.1)).Perm
      (leftRecords project includeTestFiles changed R R₀ ++
        declaredRecords project includeTestFiles R) := by
  let kept : RecordRow → Bool := fun row =>
    row.filePath = [] ∨ row.filePath ∉ rebuildFiles project changed R.records
  have hkept : ((keptIds project changed R ids).map (·.1)).Perm
      ((declaredRecords project includeTestFiles R₀).filter kept) := by
    rw [keptIds]
    have hmap : (ids.filter fun p => kept p.1).map (·.1) = (ids.map (·.1)).filter kept := by
      rw [List.filter_map]
      rfl
    exact (List.Perm.of_eq hmap).trans (hids.filter kept)
  have hleft : (((declaredRecords project includeTestFiles R₀).filter kept).filter
      fun row => touched changed row.filePath) =
      leftRecords project includeTestFiles changed R R₀ := by
    rw [List.filter_filter, leftRecords]
  have houtside : (((declaredRecords project includeTestFiles R₀).filter kept).filter
      fun row => ! touched changed row.filePath) =
      (declaredRecords project includeTestFiles R₀).filter
        fun row => ! touched changed row.filePath := by
    rw [List.filter_filter]
    refine List.filter_congr ?_
    intro row _
    cases htouched : touched changed row.filePath with
    | true => rfl
    | false =>
        have hfile : row.filePath ∉ rebuildFiles project changed R.records := by
          intro hmem
          rw [touched_of_mem hmem] at htouched
          exact Bool.noConfusion htouched
        simp [kept, hfile]
  have hsplit := List.filter_append_perm (fun row : RecordRow => touched changed row.filePath)
    ((declaredRecords project includeTestFiles R₀).filter kept)
  rw [hleft, houtside] at hsplit
  have hwhole := List.filter_append_perm (fun row : RecordRow => touched changed row.filePath)
    (declaredRecords project includeTestFiles R)
  rw [nextIds, List.map_append]
  refine ((hkept.trans hsplit.symm).append newIds_records).trans ?_
  rw [List.append_assoc]
  refine List.Perm.append_left _ ?_
  refine ((hsame.filter_perm _).append_right _).trans ?_
  exact List.perm_append_comm.trans hwhole

/-! ## References -/

theorem referenceRows_append (a b : NodeIds) (calls : List RecordRow) :
    (referenceRows (a ++ b) calls).Perm (referenceRows a calls ++ referenceRows b calls) := by
  simp only [referenceRows, callersOf, List.filter_append, List.map_append]
  exact (List.flatMap_append_perm _ _ _).symm

/-- Call records without a caller add nothing. -/
theorem referenceRows_filter {select : RecordRow → Bool} {calls : List RecordRow}
    (h : ∀ row ∈ calls, ∀ p ∈ ids, p.1.filePath = row.filePath → select row = true) :
    referenceRows ids (calls.filter select) = referenceRows ids calls := by
  induction calls with
  | nil => rfl
  | cons row rest ih =>
      have hrest := ih fun row' hrow' => h row' (List.mem_cons_of_mem row hrow')
      rw [List.filter_cons]
      cases hselect : select row with
      | true =>
          rw [if_pos rfl, referenceRows, List.flatMap_cons, ← referenceRows, hrest]
          rfl
      | false =>
          have hnone : callersOf ids row = [] := by
            rw [callersOf, List.filter_eq_nil_iff]
            intro p hp hcaller
            have hfile := (of_decide_eq_true hcaller).2
            rw [h row List.mem_cons_self p hp hfile] at hselect
            exact Bool.noConfusion hselect
          rw [if_neg (by simp), hrest, referenceRows, referenceRows, List.flatMap_cons, hnone]
          rfl

theorem filter_referenceRows (keep : Int → Bool) (calls : List RecordRow) :
    (referenceRows ids calls).filter (fun ref => keep ref.callerId) =
      referenceRows (ids.filter fun p => keep p.2) calls := by
  simp only [referenceRows, callersOf, List.filter_flatMap, List.filter_map, List.filter_filter]
  refine List.flatMap_congr ?_
  intro row _
  congr 1
  refine List.filter_congr ?_
  intro p _
  exact Bool.and_comm _ _

theorem ids_nodup (hentities : t.projectEntities project = ids.map .ofRecord) :
    (ids.map (·.2)).Nodup := by
  have hids : (t.projectEntities project).map (·.id) = ids.map (·.2) := by
    rw [hentities, List.map_map]
    rfl
  rw [← hids]
  exact t.entities.ids.sublist (List.filter_sublist.map _)

theorem mem_clearedIds {files : List Str}
    (hentities : t.projectEntities project = ids.map .ofRecord) {p : RecordRow × Int}
    (hp : p ∈ ids) :
    p.2 ∈ (t.clearedEntities project files).map (·.id) ↔
      p.1.filePath ∈ files ∧ p.1.filePath ≠ [] := by
  rw [GraphTables.clearedEntities, hentities, List.mem_map]
  constructor
  · rintro ⟨e, he, hid⟩
    obtain ⟨hmem, hfile⟩ := List.mem_filter.mp he
    obtain ⟨q, hq, rfl⟩ := List.mem_map.mp hmem
    obtain rfl : q = p := List.inj_on_of_nodup_map (ids_nodup hentities) hq hp hid
    exact of_decide_eq_true hfile
  · intro hfile
    exact ⟨.ofRecord p, List.mem_filter.mpr ⟨List.mem_map_of_mem hp, decide_eq_true hfile⟩, rfl⟩

theorem filter_clearedIds (hentities : t.projectEntities project = ids.map .ofRecord) :
    (ids.filter fun p => decide (p.2 ∉ (t.clearedEntities project
        (rebuildFiles project changed R.records)).map (·.id))) = keptIds project changed R ids := by
  refine List.filter_congr ?_
  intro p hp
  rw [decide_eq_decide, mem_clearedIds hentities hp, not_and_or, not_not, or_comm]

theorem untouched_of_kept
    (hids : (ids.map (·.1)).Perm (declaredRecords project includeTestFiles R₀))
    (hleft : leftRecords project includeTestFiles changed R R₀ = []) {p : RecordRow × Int}
    (hp : p ∈ keptIds project changed R ids) : touched changed p.1.filePath = false := by
  obtain ⟨hmem, hkept⟩ := List.mem_filter.mp hp
  rw [← Bool.not_eq_true]
  intro htouched
  have hrow : p.1 ∈ leftRecords project includeTestFiles changed R R₀ := by
    refine List.mem_filter.mpr ⟨hids.mem_iff.mp (List.mem_map_of_mem hmem), ?_⟩
    rw [htouched]
    exact hkept
  rw [hleft] at hrow
  exact List.not_mem_nil hrow

theorem mem_newIds {p : RecordRow × Int}
    (hp : p ∈ newIds project includeTestFiles changed R entities) :
    p.1 ∈ declaredRecords project includeTestFiles R ∧
      p.1.filePath ∈ rebuildFiles project changed R.records := by
  have hrow := newIds_records.mem_iff.mp (List.mem_map_of_mem hp)
  obtain ⟨hdeclared, htouched⟩ := List.mem_filter.mp hrow
  exact ⟨hdeclared, (mem_rebuildFiles_of_record (List.mem_filter.mp hdeclared).1).mpr htouched⟩

/-- The references of the kept ids are the same for the new records. -/
theorem referenceRows_kept (hsame : SameOutside project changed R R₀)
    (hids : (ids.map (·.1)).Perm (declaredRecords project includeTestFiles R₀))
    (hleft : leftRecords project includeTestFiles changed R R₀ = []) :
    (referenceRows (keptIds project changed R ids) (callRecords project includeTestFiles R₀)).Perm
      (referenceRows (keptIds project changed R ids)
        (callRecords project includeTestFiles R)) := by
  have huntouched : ∀ T : RecordTable,
      referenceRows (keptIds project changed R ids)
        ((callRecords project includeTestFiles T).filter fun row =>
          ! touched changed row.filePath) =
      referenceRows (keptIds project changed R ids) (callRecords project includeTestFiles T) := by
    intro T
    refine referenceRows_filter ?_
    intro row _ p hp hfile
    rw [← hfile, untouched_of_kept hids hleft hp]
    rfl
  rw [← huntouched, ← huntouched R]
  exact (hsame.filter_perm _).flatMap_right _

/-- The new references are those of the new ids. -/
theorem referenceRows_new :
    referenceRows (entityIds project changed R.records entities)
        ((recordsOf project R.records).filter fun row =>
          row.calls && row.filePath ∈ (rebuildFiles project changed R.records).toFinset &&
            row.shown includeTestFiles) =
      referenceRows (newIds project includeTestFiles changed R entities)
        (callRecords project includeTestFiles R) := by
  have hcalls : ((recordsOf project R.records).filter fun row =>
        row.calls && row.filePath ∈ (rebuildFiles project changed R.records).toFinset &&
          row.shown includeTestFiles) =
      (callRecords project includeTestFiles R).filter fun row =>
        row.filePath ∈ rebuildFiles project changed R.records := by
    rw [callRecords, List.filter_filter]
    refine List.filter_congr ?_
    intro row _
    simp only [List.mem_toFinset]
    cases row.calls <;> simp [Bool.and_comm]
  have hfiles : referenceRows (newIds project includeTestFiles changed R entities)
      ((callRecords project includeTestFiles R).filter fun row =>
        row.filePath ∈ rebuildFiles project changed R.records) =
      referenceRows (newIds project includeTestFiles changed R entities)
        (callRecords project includeTestFiles R) := by
    refine referenceRows_filter ?_
    intro row _ p hp hfile
    rw [← hfile]
    exact decide_eq_true (mem_newIds hp).2
  rw [hcalls, ← hfiles]
  refine List.flatMap_congr ?_
  intro row hrow
  congr 1
  have hshown := (List.mem_filter.mp (List.mem_filter.mp hrow).1).2
  rw [Bool.and_eq_true] at hshown
  rw [callersOf, callersOf, newIds, List.filter_filter]
  refine List.filter_congr ?_
  intro p _
  by_cases hfile : p.1.filePath = row.filePath
  · have hp : p.1.shown includeTestFiles = true := by
      rw [RecordRow.shown, hfile]
      exact hshown.2
    rw [hp, Bool.and_true]
  · simp [hfile]

/-- **The references after a run** are those of the records. -/
theorem references_rebuild (hsame : SameOutside project changed R R₀)
    (hentities : t.projectEntities project = ids.map .ofRecord)
    (hids : (ids.map (·.1)).Perm (declaredRecords project includeTestFiles R₀))
    (hleft : leftRecords project includeTestFiles changed R R₀ = [])
    (hreferences : t.references.Perm (referenceRows ids (callRecords project includeTestFiles R₀))) :
    (t.rebuild project includeTestFiles R score changed).references.Perm
      (referenceRows (nextIds project includeTestFiles changed R ids t.entities)
        (callRecords project includeTestFiles R)) := by
  have hkept := referenceRows_kept hsame hids hleft
  by_cases hnone : rebuildFiles project changed R.records = []
  · rw [rebuild_of_nil hnone, nextIds_of_nil hnone]
    rw [keptIds_of_nil hnone] at hkept
    exact hreferences.trans hkept
  · have hrows : (t.rebuild project includeTestFiles R score changed).references =
        (t.clear project (rebuildFiles project changed R.records)).references ++
          referenceRows (newIds project includeTestFiles changed R t.entities)
            (callRecords project includeTestFiles R) := by
      rw [rebuild_of_cons hnone, ← referenceRows_new]
      rfl
    have hcleared : (t.clear project (rebuildFiles project changed R.records)).references.Perm
        (referenceRows (keptIds project changed R ids)
          (callRecords project includeTestFiles R₀)) := by
      rw [clear_references, ← filter_clearedIds hentities]
      refine (hreferences.filter _).trans (List.Perm.of_eq ?_)
      exact filter_referenceRows (fun id => decide (id ∉ (t.clearedEntities project
        (rebuildFiles project changed R.records)).map (·.id))) _
    rw [hrows]
    refine ((hcleared.trans hkept).append_right _).trans ?_
    exact (referenceRows_append _ _ _).symm

end Entities

end CodeScope.Store
