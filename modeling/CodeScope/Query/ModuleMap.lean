import CodeScope.Library.SqlText
import CodeScope.Query.Entities

/-! # The module map

`getModuleMap` collects the directories of the files of a project and lists, for each of them, the
functions and methods whose path matches the pattern made of the directory. The pattern is looked
for with `LIKE`, so it also matches the paths below the directories inside it, and `%`, `_` and
letters of the other case in the name of a directory match more than themselves. -/

namespace CodeScope.Query

open Text (Str str)
open SqlText (like InitialLike like_plain_any initialLike_of_initial mem_of_language)

/-- The columns of `files` that the queries read. -/
structure FileRow where
  projectId : ℕ
  path : Str

/-- A row of `entity` with the metrics that the map shows. -/
structure MeasuredEntity extends Entity where
  cyclomatic : Int
  cognitive : Int
  nestingDepth : Int
deriving DecidableEq

/-- `files` and `entity`; the ids are the primary key of `entity`. -/
structure MapTables where
  files : List FileRow
  entities : List MeasuredEntity
  ids_nodup : (entities.map (·.id)).Nodup

/-- An element of `modules`: a directory and what is listed for it. -/
structure MappedModule where
  path : Str
  files : List MeasuredEntity

/-! ## The map -/

/-- `SELECT path FROM files WHERE project_id = ? ORDER BY path` -/
def selectPaths (t : MapTables) (project : ℕ) : List Str :=
  ((t.files.filter fun f => f.projectId = project).map (·.path)).mergeSort

/-- What is taken for the directory of a file: a path without a slash itself. -/
def moduleDir (path : Str) : Str :=
  match Text.splitLast '/' path with
  | some (dir, _) => dir
  | none => path

/-- `dirs` -/
def moduleDirs (t : MapTables) (project : ℕ) : List Str :=
  (selectPaths t project).foldl (fun dirs path =>
    if moduleDir path ∈ dirs then dirs else dirs ++ [moduleDir path]) []

/-- `e.kind IN (0,1)` in the project. -/
def isMapped (project : ℕ) (e : MeasuredEntity) : Bool :=
  e.projectId = project && (e.kind = 0 || e.kind = 1)

/-- The functions of one directory. -/
def selectFunctions (t : MapTables) (project : ℕ) (dir : Str) : List MeasuredEntity :=
  (t.entities.filter fun e => isMapped project e && like none (dir ++ str "/%") e.filePath).mergeSort
    fun a b => decide (a.filePath ≤ b.filePath)

/-- `getModuleMap`: the modules, and `total_modules`. -/
def getModuleMap (t : MapTables) (project : ℕ) : List MappedModule × ℕ :=
  let dirs := moduleDirs t project
  (dirs.map fun dir => ⟨dir, selectFunctions t project dir⟩, dirs.length)

/-! ## The directories -/

variable {project : ℕ} {path : Str}

theorem mem_selectPaths {t : MapTables} :
    path ∈ selectPaths t project ↔ ∃ f ∈ t.files, f.projectId = project ∧ f.path = path := by
  simp only [selectPaths, List.mem_mergeSort, List.mem_map, List.mem_filter, decide_eq_true_eq,
    and_assoc]

/-- Collecting keeps what is there and adds what is missing once. -/
theorem collect_dirs (paths dirs : List Str) (h : dirs.Nodup) :
    (paths.foldl (fun dirs path =>
        if moduleDir path ∈ dirs then dirs else dirs ++ [moduleDir path]) dirs).Nodup ∧
      ∀ d, d ∈ paths.foldl (fun dirs path =>
        if moduleDir path ∈ dirs then dirs else dirs ++ [moduleDir path]) dirs ↔
          d ∈ dirs ∨ ∃ path ∈ paths, moduleDir path = d := by
  induction paths generalizing dirs with
  | nil => exact ⟨h, by simp⟩
  | cons path paths ih =>
      rw [List.foldl_cons]
      by_cases hin : moduleDir path ∈ dirs
      · rw [if_pos hin]
        refine ⟨(ih dirs h).1, fun d => ?_⟩
        rw [(ih dirs h).2, List.exists_mem_cons_iff, or_left_comm]
        refine ⟨Or.inr, fun hor => ?_⟩
        rcases hor with rfl | hor
        · exact Or.inl hin
        · exact hor
      · have hnew : (dirs ++ [moduleDir path]).Nodup :=
          List.nodup_append.mpr ⟨h, List.nodup_singleton _, fun a ha b hb heq =>
            hin (List.mem_singleton.mp hb ▸ heq ▸ ha)⟩
        rw [if_neg hin]
        refine ⟨(ih _ hnew).1, fun d => ?_⟩
        rw [(ih _ hnew).2, List.exists_mem_cons_iff, List.mem_append, List.mem_singleton, or_assoc,
          eq_comm (a := d)]

theorem moduleDirs_nodup (t : MapTables) (project : ℕ) : (moduleDirs t project).Nodup :=
  (collect_dirs (selectPaths t project) [] List.nodup_nil).1

theorem mem_moduleDirs {t : MapTables} {d : Str} :
    d ∈ moduleDirs t project ↔
      ∃ f ∈ t.files, f.projectId = project ∧ moduleDir f.path = d := by
  show d ∈ (selectPaths t project).foldl _ [] ↔ _
  rw [(collect_dirs (selectPaths t project) [] List.nodup_nil).2]
  simp only [List.not_mem_nil, false_or, mem_selectPaths]
  constructor
  · intro ⟨_, ⟨f, hf, hproject, rfl⟩, hd⟩
    exact ⟨f, hf, hproject, hd⟩
  · intro ⟨f, hf, hproject, hd⟩
    exact ⟨f.path, ⟨f, hf, hproject, rfl⟩, hd⟩

/-! ## The functions of a directory -/

theorem dir_pattern (dir : Str) : dir ++ str "/%" = (dir ++ str "/") ++ ['%'] :=
  (List.append_assoc dir (str "/") ['%']).symm

theorem mem_selectFunctions {t : MapTables} {dir : Str} {e : MeasuredEntity} :
    e ∈ selectFunctions t project dir ↔
      e ∈ t.entities ∧ isMapped project e = true ∧ InitialLike (dir ++ str "/") e.filePath := by
  rw [selectFunctions, List.mem_mergeSort, List.mem_filter, Bool.and_eq_true,
    dir_pattern, like_plain_any]

theorem selectFunctions_nodup (t : MapTables) (project : ℕ) (dir : Str) :
    (selectFunctions t project dir).Nodup :=
  (List.mergeSort_perm _ _).nodup_iff.mpr (t.ids_nodup.of_map.filter _)

/-- The directory part of a path: what stands before the last slash. -/
def directoryPart (path : Str) : Str := Text.beforeLast '/' path

theorem directoryPart_of_slash (h : '/' ∈ path) :
    directoryPart path = moduleDir path ∧ directoryPart path ++ str "/" <+: path := by
  cases hsplit : Text.splitLast '/' path with
  | none => exact absurd h (Text.splitLast_none.mp hsplit)
  | some cut =>
      obtain ⟨dir, base⟩ := cut
      have hshape := (Text.splitLast_some.mp hsplit).1
      have hdir : directoryPart path = dir := by rw [directoryPart, Text.beforeLast, hsplit]
      refine ⟨by rw [hdir, moduleDir, hsplit], ?_⟩
      rw [hdir, hshape]
      exact ⟨base, List.append_assoc dir (str "/") base⟩

theorem moduleDir_of_no_slash (h : '/' ∉ path) :
    moduleDir path = path ∧ directoryPart path = [] := by
  have hsplit := Text.splitLast_none.mpr h
  exact ⟨by rw [moduleDir, hsplit], by rw [directoryPart, Text.beforeLast, hsplit]⟩

theorem initialLike_of_prefix {p s : Str} (h : p <+: s) : InitialLike p s :=
  initialLike_of_initial (h.map Char.toLower)

theorem initialLike_directoryPart (h : '/' ∈ path) :
    InitialLike (directoryPart path ++ str "/") path :=
  initialLike_of_prefix (directoryPart_of_slash h).2

theorem slash_of_initialLike {dir : Str} (h : InitialLike (dir ++ str "/") path) : '/' ∈ path := by
  refine mem_of_language (by decide) h (List.mem_append_left _ ?_)
  rw [List.map_append]
  exact List.mem_append_right _ List.mem_cons_self

/-! ## What is listed where -/

/-- The directories under which an entity is listed, one for each time. -/
def listedUnder (modules : List MappedModule) (e : MeasuredEntity) : List Str :=
  modules.flatMap fun m => (m.files.filter fun e' => e' = e).map fun _ => m.path

/-- An entity is listed once under each directory whose pattern matches its path. -/
theorem listedUnder_map {t : MapTables} {e : MeasuredEntity} (he : e ∈ t.entities)
    (hmapped : isMapped project e = true) :
    listedUnder (getModuleMap t project).1 e =
      (moduleDirs t project).filter fun dir => like none (dir ++ str "/%") e.filePath := by
  show List.flatMap _ ((moduleDirs t project).map _) = _
  induction moduleDirs t project with
  | nil => rfl
  | cons dir dirs ih =>
      rw [List.map_cons, List.flatMap_cons, ih]
      by_cases hlike : like none (dir ++ str "/%") e.filePath = true
      · have hmem : e ∈ selectFunctions t project dir := by
          rw [selectFunctions, List.mem_mergeSort, List.mem_filter, hmapped, hlike]
          exact ⟨he, rfl⟩
        have hone : (selectFunctions t project dir).filter (fun e' => e' = e) = [e] := by
          rw [List.filter_eq, List.count_eq_one_of_mem (selectFunctions_nodup t project dir) hmem]
          rfl
        rw [List.filter_cons, if_pos hlike, hone]
        rfl
      · have hnone : (selectFunctions t project dir).filter (fun e' => e' = e) = [] := by
          refine List.filter_eq_nil_iff.mpr fun e' he' heq => hlike ?_
          rw [selectFunctions, List.mem_mergeSort, List.mem_filter, Bool.and_eq_true] at he'
          have heq : e' = e := of_decide_eq_true heq
          rw [← heq]
          exact he'.2.2
        rw [List.filter_cons, if_neg hlike, hnone]
        rfl

/-- A list without repetition keeps one element exactly if that is the only one that passes. -/
theorem filter_eq_singleton {l : List Str} (hl : l.Nodup) (p : Str → Bool) (x : Str) :
    l.filter p = [x] ↔ x ∈ l ∧ p x = true ∧ ∀ y ∈ l, p y = true → y = x := by
  constructor
  · intro h
    have hx : x ∈ l.filter p := by rw [h]; exact List.mem_singleton_self x
    refine ⟨(List.mem_filter.mp hx).1, (List.mem_filter.mp hx).2, fun y hy hpy => ?_⟩
    have hy : y ∈ l.filter p := List.mem_filter.mpr ⟨hy, hpy⟩
    rw [h] at hy
    exact List.mem_singleton.mp hy
  · intro ⟨hx, hpx, honly⟩
    refine List.perm_singleton.mp ((List.perm_ext_iff_of_nodup (hl.filter p)
      (List.nodup_singleton x)).mpr fun y => ?_)
    rw [List.mem_filter, List.mem_singleton]
    constructor
    · intro ⟨hy, hpy⟩
      exact honly y hy hpy
    · rintro rfl
      exact ⟨hx, hpx⟩

/-- The map lists every directory of a file once, and every function or method of the project once,
    under the directory part of its path, and nothing else. -/
structure PartitionsFunctions (t : MapTables) (project : ℕ) : Prop where
  once : ((getModuleMap t project).1.map (·.path)).Nodup
  directories : ∀ d, d ∈ (getModuleMap t project).1.map (·.path) ↔
    ∃ f ∈ t.files, f.projectId = project ∧ directoryPart f.path = d
  functions : ∀ e ∈ t.entities, isMapped project e = true →
    listedUnder (getModuleMap t project).1 e = [directoryPart e.filePath]
  only : ∀ m ∈ (getModuleMap t project).1, ∀ e ∈ m.files,
    e ∈ t.entities ∧ isMapped project e = true

/-- Every function lies in a directory, and no other directory with a file, read as a pattern,
    begins its path: none that the directory lies in, and none that `%`, `_` or letters of the other
    case make match. A file that lies in no directory has the path of one that has files, and some
    file lies in the root. -/
structure DirectoriesApart (t : MapTables) (project : ℕ) : Prop where
  located : ∀ e ∈ t.entities, isMapped project e = true → '/' ∈ e.filePath
  apart : ∀ e ∈ t.entities, isMapped project e = true → ∀ f ∈ t.files, f.projectId = project →
    InitialLike (directoryPart f.path ++ str "/") e.filePath →
      directoryPart f.path = directoryPart e.filePath
  bare : ∀ f ∈ t.files, f.projectId = project → '/' ∉ f.path → f.path ≠ [] →
    (∃ g ∈ t.files, g.projectId = project ∧ '/' ∈ g.path ∧ directoryPart g.path = f.path) ∧
    ∃ g ∈ t.files, g.projectId = project ∧ ('/' ∈ g.path ∨ g.path = []) ∧ directoryPart g.path = []

/-- What is taken for the directories are the directories. -/
theorem directories_iff (t : MapTables) (project : ℕ) :
    (∀ d, d ∈ moduleDirs t project ↔
      ∃ f ∈ t.files, f.projectId = project ∧ directoryPart f.path = d) ↔
    ∀ f ∈ t.files, f.projectId = project → '/' ∉ f.path → f.path ≠ [] →
      (∃ g ∈ t.files, g.projectId = project ∧ '/' ∈ g.path ∧ directoryPart g.path = f.path) ∧
      ∃ g ∈ t.files, g.projectId = project ∧ ('/' ∈ g.path ∨ g.path = []) ∧
        directoryPart g.path = [] := by
  simp only [mem_moduleDirs]
  constructor
  · intro h f hf hproject hslash hne
    obtain ⟨hdir, hpart⟩ := moduleDir_of_no_slash hslash
    constructor
    · obtain ⟨g, hg, hgproject, hgpart⟩ := (h f.path).mp ⟨f, hf, hproject, hdir⟩
      refine ⟨g, hg, hgproject, ?_, hgpart⟩
      by_contra hno
      rw [(moduleDir_of_no_slash hno).2] at hgpart
      exact hne hgpart.symm
    · obtain ⟨g, hg, hgproject, hgdir⟩ := (h []).mpr ⟨f, hf, hproject, hpart⟩
      by_cases hgslash : '/' ∈ g.path
      · exact ⟨g, hg, hgproject, Or.inl hgslash,
          (directoryPart_of_slash hgslash).1.trans hgdir⟩
      · obtain ⟨hself, hgpart⟩ := moduleDir_of_no_slash hgslash
        exact ⟨g, hg, hgproject, Or.inr (hself.symm.trans hgdir), hgpart⟩
  · intro h d
    constructor
    · intro ⟨f, hf, hproject, hdir⟩
      by_cases hslash : '/' ∈ f.path
      · exact ⟨f, hf, hproject, (directoryPart_of_slash hslash).1.trans hdir⟩
      · obtain ⟨hself, hpart⟩ := moduleDir_of_no_slash hslash
        rw [hself] at hdir
        by_cases hne : f.path = []
        · exact ⟨f, hf, hproject, by rw [hpart, ← hdir, hne]⟩
        · obtain ⟨⟨g, hg, hgproject, _, hgpart⟩, -⟩ := h f hf hproject hslash hne
          exact ⟨g, hg, hgproject, hgpart.trans hdir⟩
    · intro ⟨f, hf, hproject, hpart⟩
      by_cases hslash : '/' ∈ f.path
      · exact ⟨f, hf, hproject, (directoryPart_of_slash hslash).1.symm.trans hpart⟩
      · obtain ⟨hself, hroot⟩ := moduleDir_of_no_slash hslash
        rw [hroot] at hpart
        by_cases hne : f.path = []
        · exact ⟨f, hf, hproject, by rw [hself, hne, hpart]⟩
        · obtain ⟨-, g, hg, hgproject, hor, hgpart⟩ := h f hf hproject hslash hne
          refine ⟨g, hg, hgproject, ?_⟩
          rcases hor with hgslash | hempty
          · rw [← (directoryPart_of_slash hgslash).1, hgpart, hpart]
          · rw [hempty, ← hpart]
            rfl

/-- **The map partitions the functions exactly if no directory reaches into another.** -/
theorem module_map_partitions_iff (t : MapTables) (project : ℕ)
    (hlisted : ∀ e ∈ t.entities, ∃ f ∈ t.files, f.projectId = e.projectId ∧ f.path = e.filePath) :
    PartitionsFunctions t project ↔ DirectoriesApart t project := by
  have hpaths : (getModuleMap t project).1.map (·.path) = moduleDirs t project := by
    show ((moduleDirs t project).map _).map _ = _
    rw [List.map_map]
    exact List.map_id _
  -- An entity's own directory is among the listed ones.
  have hown : ∀ e ∈ t.entities, isMapped project e = true →
      ∃ f ∈ t.files, f.projectId = project ∧ directoryPart f.path = directoryPart e.filePath := by
    intro e he hmapped
    obtain ⟨f, hf, hproject, hpath⟩ := hlisted e he
    rw [isMapped, Bool.and_eq_true, decide_eq_true_eq] at hmapped
    exact ⟨f, hf, hproject.trans hmapped.1, by rw [hpath]⟩
  have hplaces : ∀ e ∈ t.entities, isMapped project e = true →
      (listedUnder (getModuleMap t project).1 e = [directoryPart e.filePath] ↔
        directoryPart e.filePath ∈ moduleDirs t project ∧
        InitialLike (directoryPart e.filePath ++ str "/") e.filePath ∧
        ∀ dir ∈ moduleDirs t project, InitialLike (dir ++ str "/") e.filePath →
          dir = directoryPart e.filePath) := by
    intro e he hmapped
    rw [listedUnder_map he hmapped, filter_eq_singleton (moduleDirs_nodup t project)]
    simp only [dir_pattern, like_plain_any]
  constructor
  · intro h
    have hdirs := h.directories
    rw [hpaths] at hdirs
    refine ⟨fun e he hmapped => ?_, fun e he hmapped f hf hproject hlike => ?_,
      (directories_iff t project).mp hdirs⟩
    · obtain ⟨-, hlike, -⟩ := (hplaces e he hmapped).mp (h.functions e he hmapped)
      exact slash_of_initialLike hlike
    · obtain ⟨-, -, honly⟩ := (hplaces e he hmapped).mp (h.functions e he hmapped)
      exact honly _ ((hdirs _).mpr ⟨f, hf, hproject, rfl⟩) hlike
  · intro h
    have hdirs := (directories_iff t project).mpr h.bare
    refine ⟨by rw [hpaths]; exact moduleDirs_nodup t project, by rw [hpaths]; exact hdirs,
      fun e he hmapped => (hplaces e he hmapped).mpr ⟨(hdirs _).mpr (hown e he hmapped),
        initialLike_directoryPart (h.located e he hmapped), fun dir hdir hlike => ?_⟩,
      fun m hm e he => ?_⟩
    · obtain ⟨f, hf, hproject, hpart⟩ := (hdirs dir).mp hdir
      rw [← hpart] at hlike ⊢
      exact h.apart e he hmapped f hf hproject hlike
    · obtain ⟨dir, -, rfl⟩ := List.mem_map.mp hm
      obtain ⟨hmem, hmapped, -⟩ := mem_selectFunctions.mp he
      exact ⟨hmem, hmapped⟩

/-! ## Two projects -/

def functionIn (id : ℕ) (path : String) : MeasuredEntity where
  id := id
  projectId := 1
  kind := 0
  name := str "run"
  qualifiedName := []
  filePath := str path
  language := str "c"
  cyclomatic := 1
  cognitive := 1
  nestingDepth := 0

/-- A directory with a file, and a directory inside it with a function. -/
def nestedTables : MapTables where
  files := [⟨1, str "/p/a.c"⟩, ⟨1, str "/p/sub/b.c"⟩]
  entities := [functionIn 1 "/p/sub/b.c"]
  ids_nodup := by decide

/-- Two directories side by side. -/
def separateTables : MapTables where
  files := [⟨1, str "/p/a.c"⟩, ⟨1, str "/q/b.c"⟩]
  entities := [functionIn 1 "/p/a.c", functionIn 2 "/q/b.c"]
  ids_nodup := by decide

/-- The function of the inner directory is listed for the outer one too. -/
theorem nested_function_listed_twice :
    ¬ ∀ (t : MapTables) (project : ℕ),
      (∀ e ∈ t.entities, ∃ f ∈ t.files, f.projectId = e.projectId ∧ f.path = e.filePath) →
        PartitionsFunctions t project := by
  intro hall
  have hlisted : ∀ e ∈ nestedTables.entities,
      ∃ f ∈ nestedTables.files, f.projectId = e.projectId ∧ f.path = e.filePath := by
    intro e he
    obtain rfl := List.mem_singleton.mp he
    exact ⟨⟨1, str "/p/sub/b.c"⟩, List.mem_cons_of_mem _ List.mem_cons_self, rfl, rfl⟩
  have hone := (hall nestedTables 1 hlisted).functions (functionIn 1 "/p/sub/b.c")
    List.mem_cons_self (by decide)
  rw [listedUnder_map List.mem_cons_self (by decide),
    filter_eq_singleton (moduleDirs_nodup nestedTables 1)] at hone
  have houter : str "/p" ∈ moduleDirs nestedTables 1 :=
    mem_moduleDirs.mpr ⟨⟨1, str "/p/a.c"⟩, List.mem_cons_self, rfl, by decide⟩
  exact absurd (hone.2.2 (str "/p") houter (by decide)) (by decide)

theorem separate_directories_partition : PartitionsFunctions separateTables 1 := by
  refine (module_map_partitions_iff separateTables 1 ?_).mpr ⟨?_, ?_, ?_⟩
  · decide
  · decide
  · decide
  · decide

end CodeScope.Query
