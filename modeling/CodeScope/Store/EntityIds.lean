import CodeScope.Library.Ranking
import CodeScope.Store.Records
import Mathlib.Data.Prod.Lex
import Mathlib.Data.List.Dedup

/-! # The ids of the entities

The entity part of `buildGraph`: the entities of the files to rebuild are deleted, their records are
numbered above every id that is left, and the numbered rows are inserted with `INSERT OR IGNORE`.
Ids are not bounded here; SQLite has 64 bits for them. -/

namespace CodeScope.Store

open Text (Str str)

/-! ## The table -/

/-- A row of `entity`, the columns that the rebuild writes. -/
structure EntityRow where
  id : Int
  project : ℕ
  kind : ℕ
  name : Str
  qualifiedName : Str
  filePath : Str
  language : Str
  startRow : ℕ
  startCol : ℕ
  endRow : ℕ
  endCol : ℕ
  modulePath : Str
  visibility : Int
  arity : Int
deriving DecidableEq

/-- `entity`; the id is the primary key, over all projects. -/
structure EntityTable where
  rows : List EntityRow
  ids : (rows.map EntityRow.id).Nodup

/-- `DELETE FROM entity WHERE project_id = ? AND file_path = ?`, which an empty path skips. -/
def EntityTable.deleteFile (project : ℕ) (t : EntityTable) (filePath : Str) : EntityTable where
  rows := t.rows.filter fun e => filePath = [] ∨ ¬ (e.project = project ∧ e.filePath = filePath)
  ids := t.ids.sublist (List.filter_sublist.map _)

/-- `INSERT OR IGNORE INTO entity` of one row after the other. -/
def EntityTable.insertAll (t : EntityTable) (selected : List EntityRow) : EntityTable where
  rows := KeyedTable.insertAll [EntityRow.id] t.rows selected
  ids := KeyedTable.Unique.insertAll (by simpa [KeyedTable.Unique] using t.ids) selected
    EntityRow.id List.mem_cons_self

/-- `COALESCE(MAX(id), 0)` -/
def EntityTable.maxId (t : EntityTable) : Int := (t.rows.map EntityRow.id).max?.getD 0

/-! ## The numbering -/

def recordsOf (project : ℕ) (records : List RecordRow) : List RecordRow :=
  records.filter fun row => row.project = project

/-- The files to rebuild: those with records, the changed ones alone when `changed` names them. -/
def rebuildFiles (project : ℕ) (changed : Option (List Str)) (records : List RecordRow) :
    List Str :=
  ((recordsOf project records).map (·.filePath)).dedup.filter fun f => changed.all (f ∈ ·)

/-- `kR2nKinds` -/
def r2nKinds : List RecordKind :=
  [.function, .method, .class, .interface, .enum, .typeAlias, .typeDecl, .typeRef, .typeAssign]

/-- The records that stand for an entity. -/
def RecordRow.declares (row : RecordRow) : Bool :=
  row.record.kind ∈ r2nKinds && row.record.name ≠ []

/-- The records that get an id. -/
def RecordRow.eligible (files : List Str) (row : RecordRow) : Bool :=
  row.declares && row.filePath ∈ files

/-- The columns of a record's place, in the order of the key. -/
abbrev Place := Str ×ₗ ℕ ×ₗ ℕ ×ₗ ℕ ×ₗ ℕ

/-- `ORDER BY sr.file_path, sr.kind, sr.start_row, sr.start_col, sr.original_id` -/
def RecordRow.place (row : RecordRow) : Place :=
  toLex (row.filePath, toLex (row.record.kind.ctorIdx, toLex (row.record.startRow,
    toLex (row.record.startCol, row.record.id))))

/-- The entities that the deletions leave. -/
def retained (project : ℕ) (files : List Str) (entities : EntityTable) : EntityTable :=
  files.foldl (EntityTable.deleteFile project) entities

/-- `_r2n`: the eligible records with their ids. -/
def r2n (project : ℕ) (files : List Str) (records : List RecordRow) (offset : Int) :
    List (RecordRow × Int) :=
  Ranking.ranked RecordRow.place offset
    ((recordsOf project records).filter (RecordRow.eligible files))

/-! ## The rows -/

/-- `LIKE` ignores the case of ASCII letters. -/
def containsNoCase (sub s : Str) : Bool :=
  Text.contains (sub.map Char.toLower) (s.map Char.toLower)

/-- `test_file_filter` -/
def passesTestFilter (filePath : Str) : Bool :=
  [str "_test.", str "/tests/", str "_spec.", str "/benches/", str "__test__"].all
    fun part => ! containsNoCase part filePath

/-- `rtrim(s, chars)` -/
def rtrim (s chars : Str) : Str := (s.reverse.dropWhile (· ∈ chars)).reverse

/-- `rtrim(file_path, replace(file_path, '/', 'x'))` -/
def modulePathOf (filePath : Str) : Str :=
  rtrim filePath (filePath.map fun c => if c = '/' then 'x' else c)

/-- The entity kind of a record kind. -/
def entityKind : RecordKind → ℕ
  | .function => 0
  | .method => 1
  | .class => 2
  | .interface => 4
  | .enum => 3
  | .typeAlias => 3
  | _ => 7

def EntityRow.ofRecord (numbered : RecordRow × Int) : EntityRow :=
  let r := numbered.1.record
  { id := numbered.2
    project := numbered.1.project
    kind := entityKind r.kind
    name := r.name
    qualifiedName := if r.qualifiedName = [] then r.name else r.qualifiedName
    filePath := numbered.1.filePath
    language := r.language
    startRow := r.startRow
    startCol := r.startCol
    endRow := r.endRow
    endCol := r.endCol
    modulePath := modulePathOf numbered.1.filePath
    visibility := r.visibility
    arity := r.arity }

/-- The rows to insert; test files are left out unless they were asked for. -/
def entityRows (includeTestFiles : Bool) (numbered : List (RecordRow × Int)) : List EntityRow :=
  (numbered.filter fun p => includeTestFiles || passesTestFilter p.1.filePath).map
    EntityRow.ofRecord

/-! ## The entity part of `buildGraph` -/

section BuildGraph

variable (project : ℕ) (changed : Option (List Str)) (records : List RecordRow)
  (entities : EntityTable)

/-- The entities left when the ids are given. -/
def retainedEntities : EntityTable :=
  retained project (rebuildFiles project changed records) entities

/-- The ids that `buildGraph` gives. -/
def entityIds : List (RecordRow × Int) :=
  r2n project (rebuildFiles project changed records) records
    (retainedEntities project changed records entities).maxId

def buildEntities (includeTestFiles : Bool) : EntityTable :=
  if rebuildFiles project changed records = [] then entities
  else
    (retainedEntities project changed records entities).insertAll
      (entityRows includeTestFiles (entityIds project changed records entities))

end BuildGraph

/-! ## The offset -/

theorem EntityTable.le_maxId {t : EntityTable} {e : EntityRow} (he : e ∈ t.rows) :
    e.id ≤ t.maxId := by
  have hid : e.id ∈ t.rows.map EntityRow.id := List.mem_map_of_mem he
  obtain ⟨m, hm⟩ := Option.isSome_iff_exists.mp (List.isSome_max?_of_mem hid)
  rw [maxId, hm]
  exact (List.max?_eq_some_iff.mp hm).2 _ hid

/-- The offset does not depend on the order of the rows. -/
theorem EntityTable.maxId_eq_of_perm {t t' : EntityTable} (hrows : t.rows.Perm t'.rows) :
    t.maxId = t'.maxId := by
  have hids := hrows.map EntityRow.id
  have hsame : (t.rows.map EntityRow.id).max? = (t'.rows.map EntityRow.id).max? := by
    cases hmax : (t'.rows.map EntityRow.id).max? with
    | none =>
        rw [List.max?_eq_none_iff] at hmax ⊢
        rw [hmax] at hids
        exact hids.eq_nil
    | some m =>
        rw [List.max?_eq_some_iff] at hmax ⊢
        refine ⟨hids.mem_iff.mpr hmax.1, ?_⟩
        intro b hb
        exact hmax.2 b (hids.mem_iff.mp hb)
  rw [maxId, maxId, hsame]

/-! ## The numbering -/

section Numbering

variable {project : ℕ} {changed : Option (List Str)} {records : List RecordRow}
  {entities : EntityTable}

theorem mem_rebuildFiles {filePath : Str} :
    filePath ∈ rebuildFiles project changed records ↔
      (∃ row ∈ recordsOf project records, row.filePath = filePath) ∧
        ∀ files ∈ changed, filePath ∈ files := by
  rw [rebuildFiles, List.mem_filter, List.mem_dedup, List.mem_map, Option.all_eq_true]
  simp only [decide_eq_true_eq, Option.mem_def]

theorem rowsOf_ne_nil_iff {filePath : Str} :
    rowsOf project filePath records ≠ [] ↔
      ∃ row ∈ recordsOf project records, row.filePath = filePath := by
  rw [rowsOf, Ne, List.filter_eq_nil_iff]
  simp [recordsOf, and_assoc]

theorem eligible_congr {files files' : List Str} (h : ∀ f, f ∈ files ↔ f ∈ files') :
    RecordRow.eligible files = RecordRow.eligible files' := by
  funext row
  simp only [RecordRow.eligible, h row.filePath]

theorem lt_of_mem_entityIds {p : RecordRow × Int}
    (hp : p ∈ entityIds project changed records entities) {e : EntityRow}
    (he : e ∈ (retainedEntities project changed records entities).rows) : e.id < p.2 :=
  (EntityTable.le_maxId he).trans_lt (Ranking.lt_of_ranked hp)

theorem entityIds_nodup :
    ((entityIds project changed records entities).map (·.2)).Nodup :=
  Ranking.ranked_nodup _ _ _

theorem entityIds_records :
    ((entityIds project changed records entities).map (·.1)).Perm
      ((recordsOf project records).filter
        (RecordRow.eligible (rebuildFiles project changed records))) := by
  rw [entityIds, r2n, Ranking.ranked_map_fst]
  exact Ranking.sorted_perm _ _

theorem entityIds_of_nil (hnone : rebuildFiles project changed records = []) :
    entityIds project changed records entities = [] := by
  have hfilter : (recordsOf project records).filter (RecordRow.eligible []) = [] := by
    rw [List.filter_eq_nil_iff]
    intro row _
    simp [RecordRow.eligible]
  rw [entityIds, hnone, r2n, hfilter, Ranking.ranked_nil]

/-- The rows to insert repeat no id, neither among themselves nor one that was left. -/
theorem entityRows_unique (includeTestFiles : Bool) :
    KeyedTable.Unique [EntityRow.id] ((retainedEntities project changed records entities).rows ++
      entityRows includeTestFiles (entityIds project changed records entities)) := by
  rw [KeyedTable.unique_singleton, List.map_append, List.nodup_append]
  have hids : (entityRows includeTestFiles (entityIds project changed records entities)).map
      EntityRow.id =
      ((entityIds project changed records entities).filter
        fun p => includeTestFiles || passesTestFilter p.1.filePath).map (·.2) := by
    rw [entityRows, List.map_map]
    rfl
  refine ⟨EntityTable.ids _, ?_, ?_⟩
  · rw [hids]
    exact entityIds_nodup.sublist (List.filter_sublist.map _)
  · intro a ha b hb
    obtain ⟨e, he, rfl⟩ := List.mem_map.mp ha
    rw [hids] at hb
    obtain ⟨p, hp, rfl⟩ := List.mem_map.mp hb
    exact (lt_of_mem_entityIds (List.mem_of_mem_filter hp) he).ne

/-- **Nothing is ignored**: the table is what was left with all the new rows behind it. -/
theorem buildEntities_rows (includeTestFiles : Bool) :
    (buildEntities project changed records entities includeTestFiles).rows =
      (retainedEntities project changed records entities).rows ++
        entityRows includeTestFiles (entityIds project changed records entities) := by
  unfold buildEntities
  split_ifs with hnone
  · -- without a file there is nothing to delete and nothing to number
    rw [entityIds_of_nil hnone, retainedEntities, hnone]
    exact (List.append_nil _).symm
  · exact KeyedTable.insertAll_eq_append (entityRows_unique includeTestFiles)

end Numbering

/-- Two stores with the same records of the project, in any order, and the same entities left. -/
theorem entityIds_eq_of_perm {project : ℕ} {changed : Option (List Str)}
    {records records' : List RecordRow} {entities entities' : EntityTable}
    (hrecords : (recordsOf project records).Perm (recordsOf project records'))
    (hplaces : ((recordsOf project records).map RecordRow.place).Nodup)
    (hretained : (retainedEntities project changed records entities).rows.Perm
      (retainedEntities project changed records' entities').rows) :
    entityIds project changed records entities = entityIds project changed records' entities' := by
  have hfiles : ∀ f, f ∈ rebuildFiles project changed records ↔
      f ∈ rebuildFiles project changed records' := by
    intro f
    simp only [mem_rebuildFiles, hrecords.mem_iff]
  unfold entityIds r2n
  rw [EntityTable.maxId_eq_of_perm hretained, ← eligible_congr hfiles]
  exact Ranking.ranked_eq_of_perm _ (hrecords.filter _)
    (hplaces.sublist (List.filter_sublist.map _))

/-- **The ids do not depend on the order of the records, they are new, and every eligible record
    becomes an entity.** -/
theorem entity_ids_reproducible (project : ℕ) (changed : Option (List Str))
    (includeTestFiles : Bool) {records records' : List RecordRow}
    {entities entities' : EntityTable}
    (hrecords : (recordsOf project records).Perm (recordsOf project records'))
    (hplaces : ((recordsOf project records).map RecordRow.place).Nodup)
    (hretained : (retainedEntities project changed records entities).rows.Perm
      (retainedEntities project changed records' entities').rows) :
    let files := rebuildFiles project changed records
    let ids := entityIds project changed records entities
    let left := retainedEntities project changed records entities
    ids = entityIds project changed records' entities' ∧
      (∀ row ∈ recordsOf project records, row.eligible files = true →
        ∃ id, (row, id) ∈ ids ∧
          (includeTestFiles = true ∨ passesTestFilter row.filePath = true →
            EntityRow.ofRecord (row, id) ∈
                (buildEntities project changed records entities includeTestFiles).rows ∧
              EntityRow.ofRecord (row, id) ∈
                (buildEntities project changed records' entities' includeTestFiles).rows)) ∧
      (ids.map (·.2)).Nodup ∧ (∀ p ∈ ids, ∀ e ∈ left.rows, p.2 ≠ e.id) ∧
      (buildEntities project changed records entities includeTestFiles).rows =
        left.rows ++ entityRows includeTestFiles ids := by
  intro files ids left
  have hsame : ids = entityIds project changed records' entities' :=
    entityIds_eq_of_perm hrecords hplaces hretained
  refine ⟨hsame, ?_, entityIds_nodup, ?_, buildEntities_rows includeTestFiles⟩
  · intro row hrow heligible
    obtain ⟨id, hid⟩ := Ranking.exists_rank RecordRow.place left.maxId
      (List.mem_filter.mpr ⟨hrow, heligible⟩)
    refine ⟨id, hid, ?_⟩
    intro hshown
    have hnew : EntityRow.ofRecord (row, id) ∈ entityRows includeTestFiles ids := by
      refine List.mem_map_of_mem (List.mem_filter.mpr ⟨hid, ?_⟩)
      simpa using hshown
    rw [buildEntities_rows, buildEntities_rows, ← hsame]
    exact ⟨List.mem_append_right _ hnew, List.mem_append_right _ hnew⟩
  · intro p hp e he
    exact (lt_of_mem_entityIds hp he).ne'

/-- Two functions stored in either order, next to an entity of another project. -/
theorem entity_ids_reproducible_swapped :
    let f : RecordRow := ⟨1, str "a.c", functionRecord (str "f") 0⟩
    let g : RecordRow := ⟨1, str "a.c", functionRecord (str "g") 5⟩
    let other : EntityTable :=
      ⟨[⟨1, 2, 0, str "h", str "h", str "a.c", str "c", 0, 0, 1, 0, [], 1, 0⟩], by decide⟩
    entityIds 1 none [f, g] other = entityIds 1 none [g, f] other ∧
      ∀ p ∈ entityIds 1 none [f, g] other, p.2 ≠ 1 := by
  intro f g other
  have hrecords : (recordsOf 1 [f, g]).Perm (recordsOf 1 [g, f]) := List.Perm.swap g f []
  have hplaces : ((recordsOf 1 [f, g]).map RecordRow.place).Nodup := by decide
  have hretained : (retainedEntities 1 none [f, g] other).rows.Perm
      (retainedEntities 1 none [g, f] other).rows := by decide
  have hall := entity_ids_reproducible 1 none false hrecords hplaces hretained
  refine ⟨hall.1, ?_⟩
  intro p hp
  have hleft : (retainedEntities 1 none [f, g] other).rows = other.rows := by decide
  have hne := hall.2.2.2.1 p hp
  rw [hleft] at hne
  exact hne _ List.mem_cons_self

/-! ## The entities of a file -/

/-- A row without its id. -/
def EntityRow.anonymous (e : EntityRow) : EntityRow := { e with id := 0 }

/-- The entities of a file, up to their ids. -/
def entitiesOf (project : ℕ) (filePath : Str) (entities : EntityTable) : List EntityRow :=
  (entities.rows.filter fun e => e.project = project ∧ e.filePath = filePath).map
    EntityRow.anonymous

/-- The entities that records stand for. -/
def entitiesOfRecords (includeTestFiles : Bool) (rows : List RecordRow) : List EntityRow :=
  (rows.filter fun row =>
      row.declares && (includeTestFiles || passesTestFilter row.filePath)).map
    fun row => EntityRow.ofRecord (row, 0)

theorem filter_recordsOf (project : ℕ) (filePath : Str) (records : List RecordRow) :
    (recordsOf project records).filter (fun row => row.filePath = filePath) =
      rowsOf project filePath records := by
  rw [recordsOf, List.filter_filter, rowsOf]
  simp only [Bool.and_comm, Bool.decide_and]

theorem filter_entities (project : ℕ) (filePath : Str) (entities : EntityTable) :
    ((entities.rows.filter fun e => e.project = project).map EntityRow.anonymous).filter
        (fun e => e.filePath = filePath) =
      entitiesOf project filePath entities := by
  rw [List.filter_map, List.filter_filter, entitiesOf]
  congr 1
  refine List.filter_congr ?_
  intro e _
  rw [Bool.decide_and, Bool.and_comm]
  rfl

theorem retained_rows (project : ℕ) (files : List Str) (entities : EntityTable) :
    (retained project files entities).rows = entities.rows.filter fun e =>
      e.filePath = [] ∨ ¬ (e.project = project ∧ e.filePath ∈ files) := by
  induction files generalizing entities with
  | nil => simp [retained]
  | cons filePath rest ih =>
      have hstep : retained project (filePath :: rest) entities =
          retained project rest (entities.deleteFile project filePath) := rfl
      rw [hstep, ih, EntityTable.deleteFile, List.filter_filter]
      refine List.filter_congr ?_
      intro e _
      by_cases hempty : e.filePath = []
      · by_cases hpath : filePath = []
        · simp [hempty, hpath]
        · simp [hempty, Ne.symm hpath]
      · by_cases hpath : filePath = []
        · simp [hempty, hpath]
        · by_cases hproject : e.project = project
          · simp [hempty, hpath, hproject, Bool.and_comm]
          · simp [hempty, hproject]

section Files

variable (project : ℕ) (changed : Option (List Str)) (records : List RecordRow)
  (entities : EntityTable) {filePath : Str}

/-- The deletions take all the entities of the files to rebuild and no others. -/
theorem entitiesOf_retained
    (hnamed : filePath ∈ rebuildFiles project changed records → filePath ≠ []) :
    entitiesOf project filePath (retainedEntities project changed records entities) =
      if filePath ∈ rebuildFiles project changed records then []
      else entitiesOf project filePath entities := by
  rw [entitiesOf, retainedEntities, retained_rows, List.filter_filter]
  split_ifs with hfile
  · rw [List.map_eq_nil_iff, List.filter_eq_nil_iff]
    intro e _ htest
    simp only [Bool.and_eq_true, decide_eq_true_eq] at htest
    obtain ⟨⟨hproject, hpath⟩, hkept⟩ := htest
    rcases hkept with hempty | hother
    · exact hnamed hfile (hpath.symm.trans hempty)
    · exact hother ⟨hproject, hpath ▸ hfile⟩
  · rw [entitiesOf]
    congr 1
    refine List.filter_congr ?_
    intro e _
    by_cases hpath : e.project = project ∧ e.filePath = filePath
    · simp [hpath.1, hpath.2, hfile]
    · simp [hpath]

/-- The new rows of a file are those of its records. -/
theorem entityRows_of_file (includeTestFiles : Bool) (filePath : Str) :
    (((entityRows includeTestFiles (entityIds project changed records entities)).filter
        fun e => e.project = project ∧ e.filePath = filePath).map EntityRow.anonymous).Perm
      (if filePath ∈ rebuildFiles project changed records then
        entitiesOfRecords includeTestFiles (rowsOf project filePath records)
      else []) := by
  let shown : RecordRow → Bool := fun row =>
    decide (row.project = project ∧ row.filePath = filePath) &&
      (includeTestFiles || passesTestFilter row.filePath)
  have hrows : ((entityRows includeTestFiles (entityIds project changed records entities)).filter
        fun e => e.project = project ∧ e.filePath = filePath).map EntityRow.anonymous =
      (((entityIds project changed records entities).map (·.1)).filter shown).map
        fun row => EntityRow.ofRecord (row, 0) := by
    rw [entityRows, List.filter_map, List.map_map, List.filter_filter, List.filter_map,
      List.map_map]
    rfl
  have hselected : ((recordsOf project records).filter
        (RecordRow.eligible (rebuildFiles project changed records))).filter shown =
      if filePath ∈ rebuildFiles project changed records then
        (rowsOf project filePath records).filter fun row =>
          row.declares && (includeTestFiles || passesTestFilter row.filePath)
      else [] := by
    rw [recordsOf, List.filter_filter, List.filter_filter]
    split_ifs with hfile
    · rw [rowsOf, List.filter_filter]
      refine List.filter_congr ?_
      intro row _
      by_cases hplace : row.project = project ∧ row.filePath = filePath
      · simp [shown, RecordRow.eligible, hplace.1, hplace.2, hfile, Bool.and_comm]
      · simp [shown, hplace]
    · rw [List.filter_eq_nil_iff]
      intro row _ htest
      simp only [shown, RecordRow.eligible, Bool.and_eq_true, decide_eq_true_eq] at htest
      obtain ⟨⟨⟨⟨_, hpath⟩, _⟩, _, hmem⟩, _⟩ := htest
      exact hfile (hpath ▸ hmem)
  rw [hrows]
  refine ((entityIds_records.filter shown).map _).trans ?_
  rw [hselected]
  split_ifs with hfile
  · rfl
  · rfl

/-- **The entities of a file after the rebuild**: new ones when it is rebuilt, else the old ones. -/
theorem entitiesOf_buildEntities (includeTestFiles : Bool)
    (hnamed : filePath ∈ rebuildFiles project changed records → filePath ≠ []) :
    (entitiesOf project filePath
        (buildEntities project changed records entities includeTestFiles)).Perm
      (if filePath ∈ rebuildFiles project changed records then
        entitiesOfRecords includeTestFiles (rowsOf project filePath records)
      else entitiesOf project filePath entities) := by
  have hleft := entitiesOf_retained project changed records entities hnamed
  have hnew := entityRows_of_file project changed records entities includeTestFiles filePath
  rw [entitiesOf, buildEntities_rows, List.filter_append, List.map_append]
  refine (List.Perm.append (List.Perm.of_eq hleft) hnew).trans ?_
  split_ifs with hfile
  · rfl
  · rw [List.append_nil]

end Files

end CodeScope.Store
