import CodeScope.Library.PathText
import CodeScope.Filter.ExcludePatterns
import CodeScope.Filter.Discover

/-! # Quarantining a crasher

The scheduler turns the path of a crashing file into a pattern `**/<path>`, joins it to the patterns
found before and runs the module's worker again with the value in its environment. The file names
are not escaped as patterns, so the retry also loses every file that ends in an instance of the
crasher's path; it can lose the crasher's pattern itself; and setting the variable replaces a value
the worker would have inherited. -/

namespace CodeScope.Filter

open Text (Str str)
open PathText (PlainPath)

/-! ## The module worker -/

structure ModuleWorker where
  isRootModule : Bool
  moduleDir : Str
  /-- the directories directly in the module's directory -/
  subdirectories : List Str
  /-- the exclude variable of the scheduler's own environment -/
  inherited : Option Str

def makeRelativeGlob (absPath moduleDir : Str) : Str :=
  let rel := (PathText.stripPrefix absPath moduleDir).getD absPath
  let relStr := normalize rel
  if relStr = [] then absPath else str "**/" ++ relStr

/-- The patterns of `subdirectory_excludes`. -/
def subdirectoryPatterns (subdirectories : List Str) : List Str :=
  (subdirectories.map (· ++ str "/**")).mergeSort fun a b => a ≤ b

def subdirectoryExcludes (subdirectories : List Str) : Str :=
  joinExcludePatterns (subdirectoryPatterns subdirectories)

namespace ModuleWorker

variable (w : ModuleWorker)

def rootExclude : Str := if w.isRootModule then subdirectoryExcludes w.subdirectories else []

def rootPatterns : List Str := if w.isRootModule then subdirectoryPatterns w.subdirectories else []

/-- The exclude variable of a worker: what `run_module_worker` sets, else what it inherits. -/
def excludeEnv (quarantineExclude : Option Str) : Option Str :=
  match w.rootExclude.isEmpty, quarantineExclude with
  | false, some q => some (w.rootExclude ++ ',' :: q)
  | false, none => some w.rootExclude
  | true, some q => some q
  | true, none => w.inherited

/-- The variable of the run with these crashers quarantined; the first run has none. -/
def envOf (quarantined : List Str) : Option Str :=
  w.excludeEnv (if quarantined = [] then none else some (joinExcludePatterns quarantined))

def crasherGlob (f : PlainPath) : Str :=
  makeRelativeGlob (PathText.join w.moduleDir f.path) w.moduleDir

/-- The files of the module that its worker indexes. -/
def indexedFiles (policy : FilterPolicy) (firstLine : Str → Option Str) (files : List PlainPath)
    (quarantined : List Str) : List PlainPath :=
  files.filter fun g =>
    (policy.loadExcludeEnv (w.envOf quarantined)).collects firstLine w.moduleDir g.path

end ModuleWorker

/-! ## What exclude patterns do to the walk -/

/-- An exclude pattern matches the path or a directory above it. -/
def hides (patterns : List Str) (relPath : Str) : Bool :=
  (relPath :: ancestors relPath).any fun h => patterns.any (globMatch · (normalize h))

theorem shouldSkipEntry_loadExcludeEnv (policy : FilterPolicy) (firstLine : Str → Option Str)
    (env : Option Str) {relPath : Str} (isDir : Bool) (hpath : relPath ≠ []) :
    (policy.loadExcludeEnv env).shouldSkipEntry firstLine relPath isDir =
      (policy.shouldSkipEntry firstLine relPath isDir ||
        (excludeEnvPatterns env).any (globMatch · (normalize relPath))) := by
  have hexcl : (policy.loadExcludeEnv env).excludes (normalize relPath) =
      (policy.excludes (normalize relPath) ||
        (excludeEnvPatterns env).any (globMatch · (normalize relPath))) :=
    List.any_append
  unfold FilterPolicy.shouldSkipEntry
  rw [if_neg hpath, if_neg hpath]
  dsimp only
  rw [hexcl, ← Bool.or_assoc]
  rfl

theorem ancestors_ne_nil {path d : Str} (hplain : PathText.IsPlain path) (h : d ∈ ancestors path) :
    d ≠ [] := by
  cases path with
  | nil => simp [ancestors] at h
  | cons c rest =>
      rw [ancestors, List.mem_append] at h
      rcases h with hhere | hbelow
      · -- a path that starts with a separator has an empty segment
        split_ifs at hhere with hc
        · have hvac := hplain [] (by rw [hc]; simp [Text.segments])
          exact absurd hvac (by decide)
        · simp at hhere
      · obtain ⟨d', _, rfl⟩ := List.mem_map.mp hbelow
        simp

theorem reaches_loadExcludeEnv (policy : FilterPolicy) (firstLine : Str → Option Str)
    (env : Option Str) (g : PlainPath) :
    (policy.loadExcludeEnv env).reaches firstLine g.path = true ↔
      policy.reaches firstLine g.path = true ∧
        ∀ h ∈ ancestors g.path, (excludeEnvPatterns env).any (globMatch · (normalize h)) = false := by
  rw [FilterPolicy.reaches, FilterPolicy.reaches, List.all_eq_true, List.all_eq_true,
    ← forall₂_and]
  refine forall₂_congr fun d hd => ?_
  rw [shouldSkipEntry_loadExcludeEnv policy firstLine env true (ancestors_ne_nil g.plain hd)]
  simp

/-- **The walk under exclude patterns keeps what it kept before and the patterns do not hide.** -/
theorem collects_loadExcludeEnv (policy : FilterPolicy) (firstLine : Str → Option Str)
    (env : Option Str) (dir : Str) (g : PlainPath) :
    (policy.loadExcludeEnv env).collects firstLine dir g.path = true ↔
      policy.collects firstLine dir g.path = true ∧
        hides (excludeEnvPatterns env) g.path = false := by
  have hreach := reaches_loadExcludeEnv policy firstLine env g
  have hskip := shouldSkipEntry_loadExcludeEnv policy firstLine env false g.plain.ne_nil
  have hlang : (policy.loadExcludeEnv env).langFilter = policy.langFilter := rfl
  have hhides : hides (excludeEnvPatterns env) g.path = false ↔
      (excludeEnvPatterns env).any (globMatch · (normalize g.path)) = false ∧
        ∀ h ∈ ancestors g.path, (excludeEnvPatterns env).any (globMatch · (normalize h)) = false := by
    rw [hides, List.any_cons, Bool.or_eq_false_iff, List.any_eq_false]
    simp
  unfold FilterPolicy.collects
  dsimp only
  rw [hskip, hlang, hhides]
  simp only [Bool.and_eq_true, hreach, Bool.not_eq_true', Bool.or_eq_false_iff]
  tauto

/-! ## The patterns of the retry -/

/-- What the worker reads of the crasher's path: blanks at its end are trimmed off. -/
def decodedName (path : Str) : Str := (normalize path).rdropWhile isBlank

theorem crasherGlob_eq (w : ModuleWorker) (f : PlainPath) :
    w.crasherGlob f = str "**/" ++ normalize f.path := by
  have hne : normalize f.path ≠ [] := by
    intro hempty
    exact f.plain.ne_nil (List.map_eq_nil_iff.mp hempty)
  rw [ModuleWorker.crasherGlob, makeRelativeGlob, PathText.stripPrefix_join _ f.plain,
    Option.getD_some, if_neg hne]

theorem trim_glob (name : Str) :
    Text.trim isBlank (str "**/" ++ name) = str "**/" ++ name.rdropWhile isBlank := by
  have hfront : (str "**/" ++ name).dropWhile isBlank = str "**/" ++ name := rfl
  have htrim : Text.trim isBlank (str "**/" ++ name) = (str "**/" ++ name).rdropWhile isBlank := by
    rw [Text.trim, hfront]
    rfl
  rw [htrim]
  clear hfront htrim
  induction name using List.reverseRecOn with
  | nil => rfl
  | append_singleton stem c ih =>
      rw [← List.append_assoc]
      by_cases hc : isBlank c = true
      · rw [List.rdropWhile_concat_pos _ _ _ hc, List.rdropWhile_concat_pos _ _ _ hc, ih]
      · rw [List.rdropWhile_concat_neg _ _ _ hc, List.rdropWhile_concat_neg _ _ _ hc,
          List.append_assoc]

theorem flush_crasherGlob (w : ModuleWorker) (f : PlainPath) :
    flush (w.crasherGlob f) = [str "**/" ++ decodedName f.path] := by
  have hall : (str "**/" ++ normalize f.path).all isBlank = false := rfl
  rw [flush, crasherGlob_eq, hall, trim_glob]
  rfl

theorem rootExclude_eq (w : ModuleWorker) : w.rootExclude = joinExcludePatterns w.rootPatterns := by
  rw [ModuleWorker.rootExclude, ModuleWorker.rootPatterns]
  split_ifs
  · rfl
  · rfl

/-- A variable the scheduler sets carries the root module's patterns and the quarantined ones. -/
theorem excludeEnvPatterns_envOf (w : ModuleWorker) (quarantined : List Str)
    (hset : w.rootExclude ≠ [] ∨ quarantined ≠ []) :
    excludeEnvPatterns (w.envOf quarantined) =
      w.rootPatterns.flatMap flush ++ quarantined.flatMap flush := by
  have hroot := excludeEnvPatterns_join w.rootPatterns
  rw [← rootExclude_eq] at hroot
  rw [ModuleWorker.envOf]
  unfold ModuleWorker.excludeEnv
  by_cases hempty : w.rootExclude = []
  · have hquar : quarantined ≠ [] := hset.resolve_left (by simp [hempty])
    rw [hempty] at hroot
    rw [hempty, if_neg hquar, ← hroot]
    exact excludeEnvPatterns_join quarantined
  · have hfalse : w.rootExclude.isEmpty = false := by simpa using hempty
    rw [hfalse]
    split_ifs with hquar
    · rw [hquar, List.flatMap_nil, List.append_nil]
      exact hroot
    · have hpats : w.rootPatterns ≠ [] := by
        intro hnil
        rw [rootExclude_eq, hnil] at hempty
        exact hempty rfl
      have hne : w.rootExclude ++ ',' :: joinExcludePatterns quarantined ≠ [] := by simp
      dsimp only
      rw [excludeEnvPatterns, if_neg hne, rootExclude_eq, splitExcludes_join_append hpats, splitExcludes_join]

/-- One more quarantined crasher adds its pattern to those of the run before, unless that run took
    its patterns from the inherited variable. -/
theorem excludeEnvPatterns_retry (w : ModuleWorker) (earlier : List Str) (f : PlainPath) :
    excludeEnvPatterns (w.envOf (earlier ++ [w.crasherGlob f])) =
      (if w.rootExclude = [] ∧ earlier = [] then [] else excludeEnvPatterns (w.envOf earlier)) ++
        [str "**/" ++ decodedName f.path] := by
  rw [excludeEnvPatterns_envOf w _ (Or.inr (by simp)), List.flatMap_append,
    List.flatMap_singleton, flush_crasherGlob, ← List.append_assoc]
  congr 1
  split_ifs with hlost
  · have hroot := excludeEnvPatterns_join w.rootPatterns
    rw [← rootExclude_eq, hlost.1] at hroot
    rw [hlost.2, ← hroot]
    rfl
  · rw [not_and_or] at hlost
    exact (excludeEnvPatterns_envOf w earlier hlost).symm

/-! ## The files the crasher's pattern reaches -/

/-- A path, or a directory above it, ends in an instance of the crasher's path with `*`, `**` and
    `?` read as wildcards. -/
def Shadows (crasher path : Str) : Prop :=
  ∃ h ∈ path :: ancestors path, ∃ pre rest, normalize h = pre ++ rest ∧
    Glob.Matches '/' (Glob.parse (decodedName crasher)) rest

/-- How many `**` the crasher's path spells. -/
def doubleStars (crasher : Str) : ℕ := Glob.crossings (Glob.parse (decodedName crasher))

def EndsInBlank (path : Str) : Prop := ∃ stem c, normalize path = stem ++ [c] ∧ isBlank c = true

theorem hides_append (l m : List Str) (path : Str) :
    hides (l ++ m) path = (hides l path || hides m path) := by
  rw [Bool.eq_iff_iff, Bool.or_eq_true]
  simp only [hides, List.any_append, List.any_eq_true, Bool.or_eq_true]
  constructor
  · rintro ⟨h, hmem, hl | hm⟩
    · exact Or.inl ⟨h, hmem, hl⟩
    · exact Or.inr ⟨h, hmem, hm⟩
  · rintro (⟨h, hmem, hl⟩ | ⟨h, hmem, hm⟩)
    · exact ⟨h, hmem, Or.inl hl⟩
    · exact ⟨h, hmem, Or.inr hm⟩

theorem hides_crasherGlob (crasher path : Str) :
    hides [str "**/" ++ decodedName crasher] path = true ↔
      doubleStars crasher ≤ 7 ∧ Shadows crasher path := by
  have hparse : Glob.parse (str "**/" ++ decodedName crasher) =
      .everything :: Glob.parse (decodedName crasher) := Glob.parse.eq_2 _
  have hone : ∀ h, globMatch (str "**/" ++ decodedName crasher) h = true ↔
      doubleStars crasher ≤ 7 ∧ ∃ pre rest, h = pre ++ rest ∧
        Glob.Matches '/' (Glob.parse (decodedName crasher)) rest := by
    intro h
    rw [globMatch_iff, hparse, Glob.crossings, ← doubleStars, kGlobDoubleStarMaxDepth,
      Nat.succ_le_succ_iff]
    rfl
  rw [hides, List.any_eq_true]
  constructor
  · rintro ⟨h, hmem, hany⟩
    rw [List.any_cons, List.any_nil, Bool.or_false, hone] at hany
    exact ⟨hany.1, h, hmem, hany.2⟩
  · rintro ⟨hstars, h, hmem, hsplit⟩
    refine ⟨h, hmem, ?_⟩
    rw [List.any_cons, List.any_nil, Bool.or_false, hone]
    exact ⟨hstars, hsplit⟩

theorem shadows_self {crasher : Str} (h : ¬ EndsInBlank crasher) : Shadows crasher crasher := by
  have hname : decodedName crasher = normalize crasher := by
    rw [decodedName, List.rdropWhile_eq_self_iff]
    intro hne hblank
    exact h ⟨_, _, (List.dropLast_append_getLast hne).symm, hblank⟩
  refine ⟨crasher, List.mem_cons_self, [], normalize crasher, rfl, ?_⟩
  rw [hname]
  exact Glob.matches_self _

/-! ## When quarantine is exact -/

/-- What the crasher's path, the other files and the inherited variable must satisfy. -/
structure QuarantineFits (w : ModuleWorker) (policy : FilterPolicy)
    (firstLine : Str → Option Str) (files : List PlainPath) (earlier : List Str)
    (f : PlainPath) : Prop where
  /-- the crasher, if it is still indexed, is within reach of its own pattern -/
  caught : ∀ g ∈ w.indexedFiles policy firstLine files earlier, g.path = f.path →
    doubleStars f.path ≤ 7 ∧ (EndsInBlank f.path → Shadows f.path f.path)
  /-- no other indexed file ends in an instance of the crasher's path -/
  spared : doubleStars f.path ≤ 7 →
    ∀ g ∈ w.indexedFiles policy firstLine files earlier, g.path ≠ f.path →
      ¬ Shadows f.path g.path
  /-- a first retry does not bring back what the inherited variable kept out -/
  remembered : w.rootExclude = [] → earlier = [] → ∀ g ∈ files,
    policy.collects firstLine w.moduleDir g.path = true →
    hides (excludeEnvPatterns w.inherited) g.path = true →
      doubleStars f.path ≤ 7 ∧ Shadows f.path g.path

theorem mem_indexedFiles {w : ModuleWorker} {policy : FilterPolicy}
    {firstLine : Str → Option Str} {files : List PlainPath} {quarantined : List Str}
    {g : PlainPath} :
    g ∈ w.indexedFiles policy firstLine files quarantined ↔
      g ∈ files ∧ policy.collects firstLine w.moduleDir g.path = true ∧
        hides (excludeEnvPatterns (w.envOf quarantined)) g.path = false := by
  rw [ModuleWorker.indexedFiles, List.mem_filter, collects_loadExcludeEnv]

theorem filter_eq_filter_iff {l : List PlainPath} {p q : PlainPath → Bool} :
    l.filter p = l.filter q ↔ ∀ g ∈ l, (p g = true ↔ q g = true) := by
  constructor
  · intro heq g hg
    have hp : g ∈ l.filter p ↔ p g = true := by simp [hg]
    have hq : g ∈ l.filter q ↔ q g = true := by simp [hg]
    rw [← hp, ← hq, heq]
  · intro hall
    exact List.filter_congr fun g hg => Bool.eq_iff_iff.mpr (hall g hg)

theorem envOf_first {w : ModuleWorker} (hroot : w.rootExclude = []) :
    w.envOf [] = w.inherited := by
  rw [ModuleWorker.envOf, if_pos rfl]
  unfold ModuleWorker.excludeEnv
  rw [hroot]
  rfl

/-- What the retry hides: what the crasher's path shadows, and what the run before hid unless that
    run had only the inherited variable. -/
theorem hides_retry (w : ModuleWorker) (earlier : List Str) (f : PlainPath) (path : Str) :
    hides (excludeEnvPatterns (w.envOf (earlier ++ [w.crasherGlob f]))) path = true ↔
      (¬ (w.rootExclude = [] ∧ earlier = []) ∧
          hides (excludeEnvPatterns (w.envOf earlier)) path = true) ∨
        (doubleStars f.path ≤ 7 ∧ Shadows f.path path) := by
  rw [excludeEnvPatterns_retry, hides_append, Bool.or_eq_true, hides_crasherGlob]
  split_ifs with hlost
  · have hnone : hides [] path = false := by simp [hides]
    rw [hnone]
    simp [hlost]
  · simp [hlost]

/-- **The retry indexes the files of the run before minus the crasher exactly when the crasher's
    path, read as a pattern, reaches the crasher and no other indexed file, and no inherited
    exclude is forgotten.** -/
theorem quarantine_exact_iff (w : ModuleWorker) (policy : FilterPolicy)
    (firstLine : Str → Option Str) (files : List PlainPath) (earlier : List Str)
    (f : PlainPath) :
    w.indexedFiles policy firstLine files (earlier ++ [w.crasherGlob f]) =
        (w.indexedFiles policy firstLine files earlier).filter (fun g => g.path ≠ f.path) ↔
      QuarantineFits w policy firstLine files earlier f := by
  have hmem : w.indexedFiles policy firstLine files (earlier ++ [w.crasherGlob f]) =
        (w.indexedFiles policy firstLine files earlier).filter (fun g => g.path ≠ f.path) ↔
      ∀ g ∈ files, policy.collects firstLine w.moduleDir g.path = true →
        (hides (excludeEnvPatterns (w.envOf (earlier ++ [w.crasherGlob f]))) g.path = false ↔
          hides (excludeEnvPatterns (w.envOf earlier)) g.path = false ∧ g.path ≠ f.path) := by
    rw [ModuleWorker.indexedFiles, ModuleWorker.indexedFiles, List.filter_filter,
      filter_eq_filter_iff]
    refine forall₂_congr fun g _ => ?_
    rw [Bool.and_eq_true, collects_loadExcludeEnv, collects_loadExcludeEnv, decide_eq_true_iff]
    tauto
  rw [hmem]
  constructor
  · intro hexact
    -- among the files of the run before, exactly the crasher is shadowed
    have hkept : ∀ g ∈ w.indexedFiles policy firstLine files earlier,
        (doubleStars f.path ≤ 7 ∧ Shadows f.path g.path ↔ g.path = f.path) := by
      intro g hg
      obtain ⟨hfile, hcollects, hvisible⟩ := mem_indexedFiles.mp hg
      have hg := hexact g hfile hcollects
      have hretry := hides_retry w earlier f g.path
      rw [hvisible] at hg hretry
      rw [← Bool.not_eq_true, hretry] at hg
      tauto
    refine ⟨?_, ?_, ?_⟩
    · intro g hg hpath
      obtain ⟨hstars, hshadow⟩ := (hkept g hg).mpr hpath
      rw [hpath] at hshadow
      exact ⟨hstars, fun _ => hshadow⟩
    · intro hstars g hg hpath hshadow
      exact hpath ((hkept g hg).mp ⟨hstars, hshadow⟩)
    · intro hroot hearlier g hfile hcollects hhidden
      have hg := hexact g hfile hcollects
      have hretry := hides_retry w earlier f g.path
      subst hearlier
      rw [envOf_first hroot, hhidden] at hg hretry
      rw [← Bool.not_eq_true, hretry] at hg
      tauto
  · intro hfits g hfile hcollects
    have hretry := hides_retry w earlier f g.path
    cases hvisible : hides (excludeEnvPatterns (w.envOf earlier)) g.path with
    | false =>
        have hg := mem_indexedFiles.mpr ⟨hfile, hcollects, hvisible⟩
        rw [hvisible] at hretry
        have hshadow : doubleStars f.path ≤ 7 ∧ Shadows f.path g.path ↔ g.path = f.path := by
          constructor
          · rintro ⟨hstars, hshadow⟩
            by_contra hpath
            exact hfits.spared hstars g hg hpath hshadow
          · intro hpath
            obtain ⟨hstars, hblank⟩ := hfits.caught g hg hpath
            refine ⟨hstars, ?_⟩
            rw [hpath]
            by_cases hend : EndsInBlank f.path
            · exact hblank hend
            · exact shadows_self hend
        rw [← Bool.not_eq_true, hretry, hshadow]
        simp
    | true =>
        -- a hidden file stays hidden: by its old pattern, or because the crasher shadows it
        have hhidden : hides (excludeEnvPatterns (w.envOf (earlier ++ [w.crasherGlob f]))) g.path =
            true := by
          rw [hretry]
          by_cases hlost : w.rootExclude = [] ∧ earlier = []
          · obtain ⟨hroot, hearlier⟩ := hlost
            rw [hearlier, envOf_first hroot] at hvisible
            exact Or.inr (hfits.remembered hroot hearlier g hfile hcollects hvisible)
          · exact Or.inl ⟨hlost, hvisible⟩
        rw [hhidden]
        simp

/-! ## A healthy file lost -/

/-- The crasher `foo.cpp` of the module `/p/app` takes the healthy `c/foo.cpp` with it. -/
theorem quarantine_drops_namesake :
    let w : ModuleWorker := ⟨false, str "/p/app", [], none⟩
    let policy : FilterPolicy := ⟨.fast, none, [], [], [], [], []⟩
    let f : PlainPath := ⟨str "foo.cpp", by decide⟩
    let g : PlainPath := ⟨str "c/foo.cpp", by decide⟩
    w.indexedFiles policy (fun _ => none) [f, g] ([] ++ [w.crasherGlob f]) ≠
      (w.indexedFiles policy (fun _ => none) [f, g] []).filter (fun h => h.path ≠ f.path) := by
  intro w policy f g heq
  have hcollects : policy.collects (fun _ => none) w.moduleDir g.path = true := by
    delta FilterPolicy.collects FilterPolicy.reaches FilterPolicy.shouldSkipEntry FilterPolicy.shouldSkipPath FilterPolicy.shouldSkipFileEntry
      FilterPolicy.shouldSkipDir FilterPolicy.isTopOnlyDir FilterPolicy.shouldSkipFile
      FilterPolicy.shouldSkipSuffix activeSkipDirs
    rw [spelledSkipDirs.2, spelledSuffixes.2, spelledFilenames.2, spelledTopOnly.2]
    decide +kernel
  have hkept : g ∈ w.indexedFiles policy (fun _ => none) [f, g] [] :=
    mem_indexedFiles.mpr ⟨by simp, hcollects, rfl⟩
  have hretry : g ∈ w.indexedFiles policy (fun _ => none) [f, g] ([] ++ [w.crasherGlob f]) := by
    rw [heq]
    exact List.mem_filter.mpr ⟨hkept, by decide⟩
  have hvisible := (mem_indexedFiles.mp hretry).2.2
  revert hvisible
  decide +kernel

end CodeScope.Filter
