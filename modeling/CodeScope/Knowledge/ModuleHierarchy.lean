import CodeScope.Library.Traces
import CodeScope.Store.ModuleTree

/-! # The hierarchy of modules

`populateModulesHierarchy` adds a row for every directory that holds entities, and a placeholder for
its parent when that has no row: a root whose name is the whole path. Rows are never revisited. The
result is the directory forest exactly as long as no placeholder stands below another directory and
no directory disappears. -/

namespace CodeScope.Knowledge

open Text JsonText Util CallTree ParentForest Store

/-! ## One run -/

/-- What a run reads of a row of `entity`. -/
structure EntityModule where
  project : ℕ
  modulePath : Str
  language : Str

/-- `GROUP BY language ORDER BY COUNT(*) DESC LIMIT 1`: one of the most frequent. -/
structure Majority where
  pick : List Str → Str
  pick_spec : ∀ l, l ≠ [] → pick l ∈ l ∧ ∀ s, l.count s ≤ l.count (pick l)

/-- A run: its project, `projects.root_path`, the entities and the choice among languages. -/
structure HierarchyRun where
  project : ℕ
  rootPath : Str
  entities : List EntityModule
  majority : Majority

/-- `ModRow` of the source. -/
structure ModRow where
  relPath : Str
  name : Str
  language : Str
  fileCount : ℕ

namespace HierarchyRun

/-- The languages of the entities in a directory. -/
def languagesIn (run : HierarchyRun) (modulePath : Str) : List Str :=
  (run.entities.filter fun e => e.project = run.project && e.modulePath = modulePath).map
    EntityModule.language

/-- `GROUP BY module_path ORDER BY module_path` -/
def modulePaths (run : HierarchyRun) : List Str :=
  Ranking.sorted id ((run.entities.filter fun e =>
    e.project = run.project && e.modulePath ≠ []).map EntityModule.modulePath).dedup

/-- The root with a slash at its end. -/
def root (run : HierarchyRun) : Str :=
  if run.rootPath ≠ [] ∧ run.rootPath.getLast? ≠ some '/' then run.rootPath ++ ['/']
  else run.rootPath

/-- A path relative to the root, without a slash at its end. -/
def relativePath (run : HierarchyRun) (abs : Str) : Str :=
  let rel := if run.root ≠ [] ∧ run.root <+: abs then abs.drop run.root.length else abs
  if rel.getLast? = some '/' then rel.dropLast else rel

/-- The rows in the order in which they are inserted. -/
def rows (run : HierarchyRun) : List ModRow :=
  run.modulePaths.filterMap fun abs =>
    if run.relativePath abs = [] then none
    else some {
      relPath := run.relativePath abs
      name := afterLast '/' (run.relativePath abs)
      language := run.majority.pick (run.languagesIn abs)
      fileCount := (run.languagesIn abs).length }

/-- The module directories of the entities. -/
def directories (run : HierarchyRun) : List Str := run.rows.map ModRow.relPath

end HierarchyRun

/-- The id of the parent of a path, which is added when it is missing. -/
def insertParent (t : ModuleTable) (project : ℕ) (relPath : Str) : ModuleTable × ℕ :=
  match splitLast '/' relPath with
  | none => (t, 0)
  | some (parentPath, _) =>
    let (t, parentId) := insertModule t project 0 parentPath parentPath []
    if parentId = 0 ∧ parentPath ≠ [] then insertModule t project 0 parentPath parentPath []
    else (t, parentId)

/-- One turn of the loop over the rows. -/
def insertRow (project : ℕ) (t : ModuleTable) (r : ModRow) : ModuleTable :=
  let (t, parentId) := insertParent t project r.relPath
  let (t, mid) := insertModule t project parentId r.name r.relPath r.language
  if mid = 0 then t else setCounts t mid r.fileCount r.language

def populateModulesHierarchy (t : ModuleTable) (run : HierarchyRun) : ModuleTable :=
  run.rows.foldl (insertRow run.project) t

/-! ## The directory forest -/

/-- The first path is the second or a directory above it. -/
def Above (path dir : Str) : Prop :=
  Relation.ReflTransGen (fun p d => ∃ q, splitLast '/' d = some (p, q)) path dir

/-- The modules of a project are the given directories and the directories above them, each in one
    row under its parent, and the tree has each row once. -/
structure IsDirectoryForest (t : ModuleTable) (project : ℕ) (dirs : List Str) : Prop where
  one_row : ((projectModules t project).map ModuleRow.path).Nodup
  linked : ∀ r ∈ projectModules t project, ∀ p q, splitLast '/' r.path = some (p, q) →
    r.name = q ∧ ∃ s ∈ projectModules t project, s.path = p ∧ r.parentId = some s.id
  roots : ∀ r ∈ projectModules t project, splitLast '/' r.path = none → r.parentId = none
  exactly : ∀ path, (∃ r ∈ projectModules t project, r.path = path) ↔ ∃ d ∈ dirs, Above path d
  rendered : ∃ forest, RendersForest (projectModules t project) forest ∧
    getModuleTreeJson t project = render (moduleDocument forest)

/-- The table, and for every project the directories of its latest run. -/
structure HierarchyState where
  modules : ModuleTable
  directories : ℕ → List Str

def HierarchyState.empty : HierarchyState := ⟨[], fun _ => []⟩

def HierarchyState.run (s : HierarchyState) (r : HierarchyRun) : HierarchyState where
  modules := populateModulesHierarchy s.modules r
  directories := Function.update s.directories r.project r.directories

/-- The modules of every project are the directory forest of its entities. -/
def AllDirectoryForests (s : HierarchyState) : Prop :=
  ∀ project, IsDirectoryForest s.modules project (s.directories project)

def HasPath (t : ModuleTable) (project : ℕ) (path : Str) : Prop :=
  ∃ r ∈ projectModules t project, r.path = path

/-- No placeholder is needed below another directory, and no directory has disappeared. -/
structure StepOk (s : HierarchyState) (run : HierarchyRun) : Prop where
  parents_known : ∀ before r after, run.rows = before ++ r :: after →
    ∀ p q, splitLast '/' r.relPath = some (p, q) →
      '/' ∉ p ∨ HasPath s.modules run.project p ∨ p ∈ before.map ModRow.relPath
  none_lost : ∀ path, HasPath s.modules run.project path → ∃ d ∈ run.directories, Above path d

/-! ## Places of the rows -/

section Places

variable {t t' : ModuleTable} {project : ℕ}

theorem exists_place (h : t'.map ModuleRow.place = t.map ModuleRow.place) {r : ModuleRow}
    (hr : r ∈ t') : ∃ s ∈ t, s.id = r.id ∧ s.project = r.project ∧ s.parentId = r.parentId ∧
      s.name = r.name ∧ s.path = r.path := by
  have hmem : r.place ∈ t.map ModuleRow.place := h ▸ List.mem_map_of_mem hr
  obtain ⟨s, hs, heq⟩ := List.mem_map.mp hmem
  simp only [ModuleRow.place, Prod.mk.injEq] at heq
  exact ⟨s, hs, heq⟩

theorem map_projectModules {β : Type} (f : ℕ × ℕ × Option ℕ × Str × Str → β)
    (h : t'.map ModuleRow.place = t.map ModuleRow.place) :
    (projectModules t' project).map (fun r => f r.place) =
      (projectModules t project).map fun r => f r.place := by
  have hfilter : ∀ u : ModuleTable, (projectModules u project).map (fun r => f r.place) =
      ((u.map ModuleRow.place).filter fun x => x.2.1 = project).map f := by
    intro u
    rw [List.filter_map, List.map_map]
    rfl
  rw [hfilter, hfilter, h]

theorem sound_of_places (h : t'.map ModuleRow.place = t.map ModuleRow.place)
    (hs : SoundModules t) : SoundModules t' := by
  have hids : t'.map ModuleRow.id = t.map ModuleRow.id := by
    have hfst := congrArg (List.map Prod.fst) h
    rw [List.map_map, List.map_map] at hfst
    exact hfst
  refine ⟨hids ▸ hs.ids_nodup, fun r hr => ?_, fun r hr i hi => ?_, fun q => ?_⟩
  · obtain ⟨s, hs', hid, _⟩ := exists_place h hr
    exact hid ▸ hs.ids_pos s hs'
  · obtain ⟨s, hs', hid, hproject, hparent, _⟩ := exists_place h hr
    obtain ⟨hlt, u, hu, huid, husame⟩ := hs.parents s hs' i (hparent.trans hi)
    obtain ⟨u', hu', hid', hproject', _⟩ := exists_place h.symm hu
    exact ⟨hid ▸ hlt, u', hu', hid'.trans huid, by rw [hproject', husame, hproject]⟩
  · have hpaths := @map_projectModules _ _ q _ (fun x => x.2.2.2.2) h
    exact hpaths ▸ hs.paths q

/-- The row stands under its parent, with its own name. -/
structure Placed (t : ModuleTable) (project : ℕ) (r : ModuleRow) : Prop where
  under : ∀ p q, splitLast '/' r.path = some (p, q) →
    r.name = q ∧ ∃ s ∈ projectModules t project, s.path = p ∧ r.parentId = some s.id
  root : splitLast '/' r.path = none → r.parentId = none

def AllPlaced (t : ModuleTable) (project : ℕ) : Prop :=
  ∀ r ∈ projectModules t project, Placed t project r

theorem allPlaced_of_places (h : t'.map ModuleRow.place = t.map ModuleRow.place)
    (hp : AllPlaced t project) : AllPlaced t' project := by
  intro r hr
  obtain ⟨hmem, hproject⟩ := mem_projectModules.mp hr
  obtain ⟨s, hs, _, hsame, hparent, hname, hpath⟩ := exists_place h hmem
  have hplaced := hp s (mem_projectModules.mpr ⟨hs, hsame.trans hproject⟩)
  refine ⟨fun p q hsplit => ?_, fun hsplit => ?_⟩
  · obtain ⟨hq, u, hu, hup, hid⟩ := hplaced.under p q (by rw [hpath, hsplit])
    obtain ⟨hu, huproject⟩ := mem_projectModules.mp hu
    obtain ⟨u', hu', hid', hproject', _, _, hpath'⟩ := exists_place h.symm hu
    refine ⟨hname ▸ hq, u', mem_projectModules.mpr ⟨hu', hproject'.trans huproject⟩,
      hpath'.trans hup, ?_⟩
    rw [← hparent, hid, hid']
  · exact hparent ▸ hplaced.root (by rw [hpath, hsplit])

theorem hasPath_of_places (h : t'.map ModuleRow.place = t.map ModuleRow.place) {path : Str}
    (hpath : HasPath t project path) : HasPath t' project path := by
  obtain ⟨r, hr, rfl⟩ := hpath
  obtain ⟨hmem, hproject⟩ := mem_projectModules.mp hr
  obtain ⟨s, hs, _, hsame, _, _, hsamePath⟩ := exists_place h.symm hmem
  exact ⟨s, mem_projectModules.mpr ⟨hs, hsame.trans hproject⟩, hsamePath⟩

end Places

/-! ## One row -/

section Rows

variable {t : ModuleTable} {project : ℕ}

theorem Placed.mono {t' : ModuleTable}
    (hsub : ∀ s ∈ projectModules t project, s ∈ projectModules t' project) {r : ModuleRow}
    (h : Placed t project r) : Placed t' project r := by
  refine ⟨fun p q hsplit => ?_, h.root⟩
  obtain ⟨hname, s, hs, hpath, hid⟩ := h.under p q hsplit
  exact ⟨hname, s, hsub s hs, hpath, hid⟩

theorem hasPath_inserted {t' : ModuleTable} {parentId id : ℕ} {name path language : Str}
    (h : Inserted t t' project parentId name path language id) (q : Str) :
    HasPath t' project q ↔ HasPath t project q ∨ q = path := by
  constructor
  · rintro ⟨r, hr, rfl⟩
    obtain ⟨hmem, hproject⟩ := mem_projectModules.mp hr
    rcases h.new r hmem with hold | rfl
    · exact Or.inl ⟨r, mem_projectModules.mpr ⟨hold, hproject⟩, rfl⟩
    · exact Or.inr rfl
  · rintro (⟨r, hr, rfl⟩ | rfl)
    · obtain ⟨hmem, hproject⟩ := mem_projectModules.mp hr
      exact ⟨r, mem_projectModules.mpr ⟨h.kept r hmem, hproject⟩, rfl⟩
    · obtain ⟨r, hr, hproject, hpath, _⟩ := h.row
      exact ⟨r, mem_projectModules.mpr ⟨hr, hproject⟩, hpath⟩

/-- A row that is placed right where it is added keeps all rows placed. -/
theorem allPlaced_insertModule (hp : AllPlaced t project) {parentId : ℕ} {name path : Str}
    (language : Str) (hids : ∀ s ∈ t, 0 < s.id)
    (hunder : ∀ p q, splitLast '/' path = some (p, q) →
      name = q ∧ ∃ s ∈ projectModules t project, s.path = p ∧ s.id = parentId)
    (hroot : splitLast '/' path = none → parentId = 0) :
    AllPlaced (insertModule t project parentId name path language).1 project := by
  have hins := insertModule_inserted t project parentId name path language
  have hsub : ∀ s ∈ projectModules t project,
      s ∈ projectModules (insertModule t project parentId name path language).1 project := by
    intro s hs
    obtain ⟨hmem, hproject⟩ := mem_projectModules.mp hs
    exact mem_projectModules.mpr ⟨hins.kept s hmem, hproject⟩
  intro r hr
  obtain ⟨hmem, hproject⟩ := mem_projectModules.mp hr
  rcases hins.new r hmem with hold | rfl
  · exact (hp r (mem_projectModules.mpr ⟨hold, hproject⟩)).mono hsub
  · refine ⟨fun p q hsplit => ?_, fun hsplit => ?_⟩
    · obtain ⟨hname, s, hs, hpath, hid⟩ := hunder p q hsplit
      refine ⟨hname, s, hsub s hs, hpath, ?_⟩
      have hpos := hids s (mem_projectModules.mp hs).1
      exact (if_pos (hid ▸ hpos)).trans (congrArg some hid.symm)
    · show (if 0 < parentId then some parentId else none) = none
      rw [hroot hsplit, if_neg (Nat.lt_irrefl 0)]

theorem insertModule_of_hasPath {path : Str} (h : HasPath t project path) (parentId : ℕ)
    (name language : Str) : (insertModule t project parentId name path language).1 = t := by
  rcases insertModule_cases t project parentId name path language with
    ⟨_, _, _, _, heq⟩ | ⟨hfresh, _⟩
  · rw [heq]
  · obtain ⟨r, hr, hpath⟩ := h
    obtain ⟨hmem, hproject⟩ := mem_projectModules.mp hr
    exact absurd hpath (hfresh r hmem hproject)

theorem insertModule_id_pos (hs : SoundModules t) (parentId : ℕ)
    (hparent : parentId = 0 ∨ ∃ s ∈ t, s.project = project ∧ s.id = parentId)
    (name path language : Str) : 0 < (insertModule t project parentId name path language).2 := by
  obtain ⟨r, hr, _, _, hid⟩ := (insertModule_inserted t project parentId name path language).row
  exact hid ▸ (hs.insertModule hparent name path language).ids_pos r hr

variable {relPath : Str}

theorem insertParent_of_split (hs : SoundModules t) {p q : Str}
    (h : splitLast '/' relPath = some (p, q)) :
    insertParent t project relPath = insertModule t project 0 p p [] := by
  have hpos : 0 < (insertModule t project 0 p p []).2 :=
    insertModule_id_pos hs 0 (Or.inl rfl) p p []
  rw [insertParent, h]
  simp only
  rw [if_neg fun hzero => absurd hzero.1 hpos.ne']

theorem insertParent_of_root (h : splitLast '/' relPath = none) :
    insertParent t project relPath = (t, 0) := by
  rw [insertParent, h]

/-- What looking up the parent of a path does. -/
structure ParentFound (t t' : ModuleTable) (project : ℕ) (relPath : Str) (id : ℕ) : Prop where
  sound : SoundModules t'
  kept : ∀ r ∈ t, r ∈ t'
  none_id : splitLast '/' relPath = none → id = 0
  row : ∀ p q, splitLast '/' relPath = some (p, q) →
    ∃ s ∈ projectModules t' project, s.path = p ∧ s.id = id
  paths : ∀ path, HasPath t' project path ↔
    HasPath t project path ∨ ∃ q, splitLast '/' relPath = some (path, q)
  new : ∀ r ∈ t', r ∈ t ∨ r.name = r.path
  others : ∀ q, q ≠ project → projectModules t' q = projectModules t q

theorem insertParent_found (hs : SoundModules t) (relPath : Str) :
    ParentFound t (insertParent t project relPath).1 project relPath
      (insertParent t project relPath).2 := by
  cases hsplit : splitLast '/' relPath with
  | none =>
      rw [insertParent_of_root hsplit]
      exact ⟨hs, fun _ h => h, fun _ => rfl, fun p q h => absurd (hsplit.symm.trans h) (by simp),
        fun path => by simp [hsplit], fun _ h => Or.inl h, fun _ _ => rfl⟩
  | some pq =>
      obtain ⟨p, q⟩ := pq
      have hins := insertModule_inserted t project 0 p p []
      rw [insertParent_of_split hs hsplit]
      refine ⟨hs.insertModule (Or.inl rfl) p p [], hins.kept, fun h => ?_, fun p' q' h => ?_,
        fun path => ?_, fun r hr => ?_, hins.others⟩
      · exact absurd (hsplit.symm.trans h) (by simp)
      · have heq : (p, q) = (p', q') := Option.some.inj (hsplit.symm.trans h)
        obtain ⟨r, hr, hproject, hpath, hid⟩ := hins.row
        exact ⟨r, mem_projectModules.mpr ⟨hr, hproject⟩, hpath.trans (Prod.mk.inj heq).1, hid⟩
      · rw [hasPath_inserted hins, hsplit]
        refine or_congr_right ⟨fun h => ⟨q, by rw [h]⟩, fun ⟨q', h⟩ => ?_⟩
        exact (Prod.mk.inj (Option.some.inj h)).1.symm
      · refine (hins.new r hr).imp_right fun h => ?_
        rw [h]
        rfl

/-- What one turn of the loop does to the modules of the project and of the others. -/
structure RowDone (t t' : ModuleTable) (project : ℕ) (r : ModRow) : Prop where
  sound : SoundModules t'
  paths : ∀ path, HasPath t' project path ↔ HasPath t project path ∨ path = r.relPath ∨
    ∃ q, splitLast '/' r.relPath = some (path, q)
  kept : ∀ m ∈ projectModules t project,
    ∃ m' ∈ projectModules t' project, m'.name = m.name ∧ m'.path = m.path
  new : ∀ m ∈ projectModules t' project,
    HasPath t project m.path ∨ m.path = r.relPath ∨ m.name = m.path
  placed : AllPlaced t project → r.name = afterLast '/' r.relPath →
    (∀ p q, splitLast '/' r.relPath = some (p, q) → '/' ∉ p ∨ HasPath t project p) →
    AllPlaced t' project
  others : ∀ q, q ≠ project → projectModules t' q = projectModules t q

theorem ParentFound.parent_ok {t' : ModuleTable} {id : ℕ} (h : ParentFound t t' project relPath id) :
    id = 0 ∨ ∃ s ∈ t', s.project = project ∧ s.id = id := by
  cases hsplit : splitLast '/' relPath with
  | none => exact Or.inl (h.none_id hsplit)
  | some pq =>
      obtain ⟨s, hs, _, hid⟩ := h.row pq.1 pq.2 hsplit
      obtain ⟨hmem, hproject⟩ := mem_projectModules.mp hs
      exact Or.inr ⟨s, hmem, hproject, hid⟩

/-- A parent that is there, or is a single segment, is placed right. -/
theorem allPlaced_insertParent (hs : SoundModules t) (hp : AllPlaced t project)
    (hknown : ∀ p q, splitLast '/' relPath = some (p, q) → '/' ∉ p ∨ HasPath t project p) :
    AllPlaced (insertParent t project relPath).1 project := by
  cases hsplit : splitLast '/' relPath with
  | none =>
      rw [insertParent_of_root hsplit]
      exact hp
  | some pq =>
      obtain ⟨p, q⟩ := pq
      rw [insertParent_of_split hs hsplit]
      rcases hknown p q hsplit with hflat | hthere
      · have hnone : splitLast '/' p = none := splitLast_none.mpr hflat
        refine allPlaced_insertModule hp [] hs.ids_pos (fun p' q' h => ?_) fun _ => rfl
        exact absurd (hnone.symm.trans h) (by simp)
      · rw [insertModule_of_hasPath hthere]
        exact hp

theorem insertRow_eq (hs : SoundModules t) (r : ModRow) :
    insertRow project t r =
      let parent := insertParent t project r.relPath
      let inserted := insertModule parent.1 project parent.2 r.name r.relPath r.language
      setCounts inserted.1 inserted.2 r.fileCount r.language := by
  have hfound : ParentFound t _ project r.relPath _ := insertParent_found hs r.relPath
  have hpos := insertModule_id_pos hfound.sound _ hfound.parent_ok r.name r.relPath r.language
  rw [insertRow]
  simp only
  rw [if_neg hpos.ne']

theorem insertRow_done (hs : SoundModules t) (r : ModRow) :
    RowDone t (insertRow project t r) project r := by
  rw [insertRow_eq hs]
  have hfound : ParentFound t _ project r.relPath _ := insertParent_found hs r.relPath
  set parent := insertParent t project r.relPath
  have hins := insertModule_inserted parent.1 project parent.2 r.name r.relPath r.language
  have hsound := hfound.sound.insertModule hfound.parent_ok r.name r.relPath r.language
  set inserted := insertModule parent.1 project parent.2 r.name r.relPath r.language
  have hplaces := map_place_setCounts inserted.1 inserted.2 r.fileCount r.language
  refine ⟨sound_of_places hplaces hsound, fun path => ?_, fun m hm => ?_, fun m hm => ?_,
    fun hp hname hknown => ?_, fun q hq => ?_⟩
  · have hiff : HasPath (setCounts _ _ r.fileCount r.language) project path ↔
        HasPath inserted.1 project path :=
      ⟨hasPath_of_places hplaces.symm, hasPath_of_places hplaces⟩
    rw [hiff, hasPath_inserted hins, hfound.paths, or_assoc]
    exact or_congr_right or_comm
  · obtain ⟨hmem, hproject⟩ := mem_projectModules.mp hm
    obtain ⟨m', hm', _, hproject', _, hname, hpath⟩ :=
      exists_place hplaces.symm (hins.kept m (hfound.kept m hmem))
    exact ⟨m', mem_projectModules.mpr ⟨hm', hproject'.trans hproject⟩, hname, hpath⟩
  · obtain ⟨hmem, hproject⟩ := mem_projectModules.mp hm
    obtain ⟨m', hm', _, hproject', _, hname, hpath⟩ := exists_place hplaces hmem
    rw [← hname, ← hpath]
    rcases hins.new m' hm' with hold | rfl
    · rcases hfound.new m' hold with hold | hsame
      · exact Or.inl ⟨m', mem_projectModules.mpr ⟨hold, hproject'.trans hproject⟩, rfl⟩
      · exact Or.inr (Or.inr hsame)
    · exact Or.inr (Or.inl rfl)
  · refine allPlaced_of_places hplaces (allPlaced_insertModule
      (allPlaced_insertParent hs hp hknown) r.language hfound.sound.ids_pos (fun p q hsplit => ?_)
      hfound.none_id)
    refine ⟨?_, hfound.row p q hsplit⟩
    rw [hname, afterLast, hsplit]
  · -- the updated row is one of the project
    obtain ⟨m, hm, hproject, _, hid⟩ := hins.row
    rw [← hfound.others q hq, ← hins.others q hq]
    refine projectModules_setCounts (fun s hs' hsid => ?_) _ _
    have hsame : s = m := List.inj_on_of_nodup_map hsound.ids_nodup hs' hm (hsid.trans hid.symm)
    rw [hsame, hproject]
    exact hq.symm

end Rows

/-! ## A whole run -/

section Loop

variable {t : ModuleTable} {project : ℕ}

/-- The parent of every row is a single segment, or it has a row when it is looked up. -/
def ParentsKnown (t : ModuleTable) (project : ℕ) (rows : List ModRow) : Prop :=
  ∀ before r after, rows = before ++ r :: after → ∀ p q, splitLast '/' r.relPath = some (p, q) →
    '/' ∉ p ∨ HasPath t project p ∨ p ∈ before.map ModRow.relPath

/-- The same for one row. -/
def ParentKnown (t : ModuleTable) (project : ℕ) (r : ModRow) : Prop :=
  ∀ p q, splitLast '/' r.relPath = some (p, q) → '/' ∉ p ∨ HasPath t project p

theorem parentsKnown_cons (hs : SoundModules t) (r : ModRow) (rows : List ModRow) :
    ParentsKnown t project (r :: rows) ↔
      ParentKnown t project r ∧ ParentsKnown (insertRow project t r) project rows := by
  have hdone : RowDone t (insertRow project t r) project r := insertRow_done hs r
  constructor
  · intro h
    refine ⟨fun p q hsplit => ?_, fun before s after heq p q hsplit => ?_⟩
    · rcases h [] r rows rfl p q hsplit with hflat | hthere | hnone
      · exact Or.inl hflat
      · exact Or.inr hthere
      · exact absurd hnone List.not_mem_nil
    · have hcons : r :: rows = (r :: before) ++ s :: after := by rw [heq, List.cons_append]
      rcases h (r :: before) s after hcons p q hsplit with hflat | hthere | hbefore
      · exact Or.inl hflat
      · exact Or.inr (Or.inl ((hdone.paths p).mpr (Or.inl hthere)))
      · rcases List.mem_cons.mp hbefore with rfl | hbefore
        · exact Or.inr (Or.inl ((hdone.paths _).mpr (Or.inr (Or.inl rfl))))
        · exact Or.inr (Or.inr hbefore)
  · intro ⟨hfirst, hrest⟩ before s after heq p q hsplit
    cases before with
    | nil =>
        obtain ⟨rfl, rfl⟩ := List.cons.inj heq
        exact (hfirst p q hsplit).imp_right Or.inl
    | cons b before =>
        obtain ⟨rfl, rfl⟩ := List.cons.inj heq
        rcases hrest before s after rfl p q hsplit with hflat | hthere | hbefore
        · exact Or.inl hflat
        · rcases (hdone.paths p).mp hthere with hold | rfl | ⟨q', hparent⟩
          · exact Or.inr (Or.inl hold)
          · exact Or.inr (Or.inr List.mem_cons_self)
          · exact (hfirst p q' hparent).imp_right Or.inl
        · exact Or.inr (Or.inr (List.mem_cons_of_mem _ hbefore))

/-- What the whole loop does. -/
structure LoopDone (t t' : ModuleTable) (project : ℕ) (rows : List ModRow) : Prop where
  sound : SoundModules t'
  paths : ∀ path, HasPath t' project path ↔ HasPath t project path ∨
    ∃ r ∈ rows, path = r.relPath ∨ ∃ q, splitLast '/' r.relPath = some (path, q)
  kept : ∀ m ∈ projectModules t project,
    ∃ m' ∈ projectModules t' project, m'.name = m.name ∧ m'.path = m.path
  placed : AllPlaced t project → (∀ r ∈ rows, r.name = afterLast '/' r.relPath) →
    ParentsKnown t project rows → AllPlaced t' project
  others : ∀ q, q ≠ project → projectModules t' q = projectModules t q

theorem loop_done (hs : SoundModules t) (rows : List ModRow) :
    LoopDone t (rows.foldl (insertRow project) t) project rows := by
  induction rows generalizing t with
  | nil =>
      exact ⟨hs, fun path => by simp, fun m hm => ⟨m, hm, rfl, rfl⟩, fun hp _ _ => hp,
        fun _ _ => rfl⟩
  | cons r rows ih =>
      have hdone : RowDone t (insertRow project t r) project r := insertRow_done hs r
      have hrest := ih hdone.sound
      rw [List.foldl_cons]
      refine ⟨hrest.sound, fun path => ?_, fun m hm => ?_, fun hp hnames hknown => ?_,
        fun q hq => (hrest.others q hq).trans (hdone.others q hq)⟩
      · rw [hrest.paths, hdone.paths, or_assoc]
        simp only [List.mem_cons, exists_eq_or_imp]
      · obtain ⟨m', hm', hname, hpath⟩ := hdone.kept m hm
        obtain ⟨m'', hm'', hname', hpath'⟩ := hrest.kept m' hm'
        exact ⟨m'', hm'', hname'.trans hname, hpath'.trans hpath⟩
      · obtain ⟨hfirst, hlater⟩ := (parentsKnown_cons hs r rows).mp hknown
        exact hrest.placed (hdone.placed hp (hnames r List.mem_cons_self) hfirst)
          (fun s hs' => hnames s (List.mem_cons_of_mem _ hs')) hlater

theorem ne_of_split {path p q : Str} (h : splitLast '/' path = some (p, q)) : p ≠ path := by
  intro heq
  have hlen := congrArg List.length (splitLast_some.mp h).1
  rw [List.length_append, List.length_cons, ← heq] at hlen
  omega

/-- **A parent that is not known leaves a row that is named by its whole path.** -/
theorem exists_misnamed (hs : SoundModules t) {rows : List ModRow}
    (h : ¬ ParentsKnown t project rows) :
    ∃ m ∈ projectModules (rows.foldl (insertRow project) t) project,
      m.name = m.path ∧ '/' ∈ m.path := by
  induction rows generalizing t with
  | nil =>
      refine absurd (fun before r after heq => ?_) h
      exact absurd heq (by simp)
  | cons r rows ih =>
      have hdone : RowDone t (insertRow project t r) project r := insertRow_done hs r
      rw [List.foldl_cons]
      by_cases hfirst : ParentKnown t project r
      · exact ih hdone.sound fun hrest => h ((parentsKnown_cons hs r rows).mpr ⟨hfirst, hrest⟩)
      · -- the placeholder is added for this row and stays to the end
        simp only [ParentKnown, not_forall, not_or, not_not] at hfirst
        obtain ⟨p, q, hsplit, hslash, hmissing⟩ := hfirst
        obtain ⟨m, hm, hpath⟩ := (hdone.paths p).mpr (Or.inr (Or.inr ⟨q, hsplit⟩))
        have hname : m.name = m.path := by
          rcases hdone.new m hm with hold | hself | hname
          · exact absurd (hpath ▸ hold) hmissing
          · exact absurd (hpath.symm.trans hself) (ne_of_split hsplit)
          · exact hname
        obtain ⟨m', hm', hname', hpath'⟩ := (loop_done hdone.sound rows).kept m hm
        refine ⟨m', hm', by rw [hname', hpath', hname], ?_⟩
        rw [hpath', hpath]
        exact hslash

theorem not_allPlaced_of_misnamed {m : ModuleRow} (hm : m ∈ projectModules t project)
    (hname : m.name = m.path) (hslash : '/' ∈ m.path) : ¬ AllPlaced t project := by
  intro hp
  cases hsplit : splitLast '/' m.path with
  | none => exact splitLast_none.mp hsplit hslash
  | some pq =>
      obtain ⟨hq, _⟩ := (hp m hm).under pq.1 pq.2 hsplit
      refine (splitLast_some.mp hsplit).2 ?_
      rw [← hq, hname]
      exact hslash

end Loop

/-! ## Histories of runs -/

theorem name_of_mem_rows {run : HierarchyRun} {r : ModRow} (hr : r ∈ run.rows) :
    r.name = afterLast '/' r.relPath := by
  obtain ⟨abs, _, habs⟩ := List.mem_filterMap.mp hr
  by_cases hempty : run.relativePath abs = []
  · rw [if_pos hempty] at habs
    exact absurd habs (by simp)
  · rw [if_neg hempty, Option.some.injEq] at habs
    rw [← habs]

variable {project : ℕ}

/-- The forest of a project depends on its rows alone. -/
theorem IsDirectoryForest.congr {t t' : ModuleTable} {dirs : List Str}
    (h : IsDirectoryForest t project dirs)
    (hsame : projectModules t' project = projectModules t project) :
    IsDirectoryForest t' project dirs := by
  have htext : getModuleTreeJson t' project = getModuleTreeJson t project := by
    rw [getModuleTreeJson, getModuleTreeJson, modulesOf, modulesOf, hsame]
  refine ⟨?_, ?_, ?_, ?_, ?_⟩
  · rw [hsame]
    exact h.one_row
  · rw [hsame]
    exact h.linked
  · rw [hsame]
    exact h.roots
  · rw [hsame]
    exact h.exactly
  · rw [hsame, htext]
    exact h.rendered

theorem allPlaced_of_forest {t : ModuleTable} {dirs : List Str}
    (h : IsDirectoryForest t project dirs) : AllPlaced t project :=
  fun r hr => ⟨h.linked r hr, h.roots r hr⟩

theorem hasPath_of_above {t : ModuleTable} (hp : AllPlaced t project) {path dir : Str}
    (habove : Above path dir) (hdir : HasPath t project dir) : HasPath t project path := by
  induction habove with
  | refl => exact hdir
  | tail _ hparent ih =>
      obtain ⟨q, hsplit⟩ := hparent
      obtain ⟨r, hr, rfl⟩ := hdir
      obtain ⟨_, s, hs, hpath, _⟩ := (hp r hr).under _ q hsplit
      exact ih ⟨s, hs, hpath⟩

/-- **After a run whose parents are known and that loses no directory, the modules of the project are
    its directory forest.** -/
theorem forest_of_stepOk {s : HierarchyState} (hs : SoundModules s.modules)
    (hforests : AllDirectoryForests s) {run : HierarchyRun} (hok : StepOk s run) :
    SoundModules (s.run run).modules ∧ AllDirectoryForests (s.run run) := by
  have hloop : LoopDone s.modules (populateModulesHierarchy s.modules run) run.project run.rows :=
    loop_done hs run.rows
  refine ⟨hloop.sound, fun project => ?_⟩
  by_cases hproject : project = run.project
  · subst hproject
    have hplaced : AllPlaced (populateModulesHierarchy s.modules run) run.project :=
      hloop.placed (allPlaced_of_forest (hforests run.project)) (fun r hr => name_of_mem_rows hr)
        hok.parents_known
    have hdirs : (s.run run).directories run.project = run.directories := Function.update_self ..
    rw [hdirs]
    refine ⟨hloop.sound.paths _, fun r hr => (hplaced r hr).under, fun r hr => (hplaced r hr).root,
      fun path => ?_, ?_⟩
    · show HasPath (populateModulesHierarchy s.modules run) run.project path ↔ _
      constructor
      · intro hpath
        rcases (hloop.paths path).mp hpath with hold | ⟨r, hr, rfl | ⟨q, hsplit⟩⟩
        · exact hok.none_lost path hold
        · exact ⟨r.relPath, List.mem_map_of_mem hr, Relation.ReflTransGen.refl⟩
        · exact ⟨r.relPath, List.mem_map_of_mem hr, Relation.ReflTransGen.single ⟨q, hsplit⟩⟩
      · intro ⟨d, hd, habove⟩
        obtain ⟨r, hr, rfl⟩ := List.mem_map.mp hd
        exact hasPath_of_above hplaced habove
          ((hloop.paths r.relPath).mpr (Or.inr ⟨r, hr, Or.inl rfl⟩))
    · obtain ⟨hrenders, htext, _⟩ := module_tree_rendered (hloop.sound.linked run.project)
      exact ⟨_, hrenders, htext⟩
  · have hdirs : (s.run run).directories project = s.directories project :=
      Function.update_of_ne hproject _ _
    rw [hdirs]
    exact (hforests project).congr (hloop.others project hproject)

theorem not_forest_of_not_stepOk {s : HierarchyState} (hs : SoundModules s.modules)
    {run : HierarchyRun} (hok : ¬ StepOk s run) : ¬ AllDirectoryForests (s.run run) := by
  intro hforests
  have hforest := hforests run.project
  have hdirs : (s.run run).directories run.project = run.directories := Function.update_self ..
  rw [hdirs] at hforest
  have hloop : LoopDone s.modules (populateModulesHierarchy s.modules run) run.project run.rows :=
    loop_done hs run.rows
  have hknown : ParentsKnown s.modules run.project run.rows := by
    by_contra hunknown
    obtain ⟨m, hm, hname, hslash⟩ := exists_misnamed hs hunknown
    exact not_allPlaced_of_misnamed hm hname hslash (allPlaced_of_forest hforest)
  refine hok ⟨hknown, fun path hpath => ?_⟩
  exact (hforest.exactly path).mp ((hloop.paths path).mpr (Or.inl hpath))

theorem soundModules_nil : SoundModules [] :=
  ⟨List.nodup_nil, by simp, by simp, fun _ => List.nodup_nil⟩

theorem forests_empty : AllDirectoryForests .empty := by
  intro project
  have hrendered := module_tree_rendered (soundModules_nil.linked project)
  refine ⟨List.nodup_nil, fun r hr => absurd hr List.not_mem_nil,
    fun r hr => absurd hr List.not_mem_nil, fun path => ?_, ⟨_, hrendered.1, hrendered.2.1⟩⟩
  exact iff_of_false (fun ⟨r, hr, _⟩ => List.not_mem_nil hr) fun ⟨d, hd, _⟩ => List.not_mem_nil hd

/-- **Along a history of runs the modules are the directory forest exactly when every run finds the
    parents it needs and loses no directory.** -/
theorem module_hierarchy_iff (runs : List HierarchyRun) :
    Traces.Along (fun s run => some (HierarchyState.run s run)) AllDirectoryForests .empty runs ↔
      Traces.Meets (fun s run => some (HierarchyState.run s run)) StepOk .empty runs := by
  have hQP : ∀ s, SoundModules s.modules ∧ AllDirectoryForests s → AllDirectoryForests s :=
    fun _ h => h.2
  refine Traces.along_iff_meets hQP (fun s run s' hQ hok hs' => ?_) (fun s run s' hQ hbad hs' => ?_)
    ⟨soundModules_nil, forests_empty⟩ runs
  · rw [← Option.some.inj hs']
    exact forest_of_stepOk hQ.1 hQ.2 hok
  · rw [← Option.some.inj hs']
    exact not_forest_of_not_stepOk hQ.1 hbad

/-! ## A directory without files -/

/-- A choice among languages: one of the most frequent. -/
def firstMajority : Majority where
  pick l := (l.argmax fun s => l.count s).getD []
  pick_spec l hl := by
    cases hmax : l.argmax fun s => l.count s with
    | none => exact absurd (List.argmax_eq_none.mp hmax) hl
    | some s =>
        refine ⟨List.argmax_mem hmax, fun s' => ?_⟩
        by_cases hs' : s' ∈ l
        · exact List.le_of_mem_argmax hs' hmax
        · rw [List.count_eq_zero_of_not_mem hs']
          exact Nat.zero_le _

/-- A project whose only source file is `a/b/c/main.c`. -/
def deepRun : HierarchyRun where
  project := 1
  rootPath := str "/p"
  entities := [⟨1, str "/p/a/b/c", str "c"⟩]
  majority := firstMajority

theorem modulePaths_deepRun : deepRun.modulePaths = [str "/p/a/b/c"] := by
  simp [HierarchyRun.modulePaths, deepRun, Ranking.sorted]

/-- `a/b` becomes a root of that name, and there is no row for `a`. -/
theorem deep_directory_breaks_forest :
    ¬ Traces.Along (fun s run => some (HierarchyState.run s run)) AllDirectoryForests .empty
      [deepRun] := by
  intro h
  have hafter : AllDirectoryForests (HierarchyState.empty.run deepRun) := h.2 _ rfl
  refine not_forest_of_not_stepOk soundModules_nil (fun hok => ?_) hafter
  have hrows : deepRun.rows.map ModRow.relPath = [str "a/b/c"] := by
    rw [HierarchyRun.rows, modulePaths_deepRun]
    rfl
  obtain ⟨r, hr⟩ := List.length_eq_one_iff.mp (by simpa using congrArg List.length hrows)
  have hpath : r.relPath = str "a/b/c" := by simpa [hr] using hrows
  rcases hok.parents_known [] r [] hr (str "a/b") (str "c") (by rw [hpath]; decide) with
    hflat | ⟨m, hm, _⟩ | hbefore
  · exact absurd hflat (by decide)
  · exact absurd hm List.not_mem_nil
  · exact absurd hbefore List.not_mem_nil

end CodeScope.Knowledge
