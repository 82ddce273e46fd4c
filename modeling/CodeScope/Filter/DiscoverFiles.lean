import CodeScope.Filter.Discover
import CodeScope.Library.PathText
import CodeScope.Library.TreeWalk

/-! # The files the scheduler discovers

`discover_files` walks a project for the scheduler and asks the engine about every entry; the
indexer walks the same root and asks its own policy. Both find the Java context first, from the
whole tree. But the engine answers the scheduler with a policy that has no index mode and reads a
file's language off its bare name, while the indexer's policy has the mode of the environment, reads
the language off the whole path, leaves the READMEs of the root out, and turns to Java in the
middle of its walk. -/

namespace CodeScope.Filter

open Text (Str str lower)
open TreeWalk (Forest Reorders walk kept)

/-- A name in a directory. -/
structure IsName (name : Str) : Prop where
  named : PathText.isVacuous name = false
  noSlash : '/' ∉ name

/-- A project without symbolic links, and the environment it is walked in. -/
structure SourceTree where
  /-- the root, without separators at its end -/
  dir : Str
  proper : ∃ c, dir.getLast? = some c ∧ c ≠ '/' ∧ c ≠ '\\'
  /-- the separators the spelling of the root ends in -/
  slashes : ℕ
  tree : Forest Str
  names : ∀ q ∈ tree.leaves, ∀ name ∈ q, IsName name
  /-- `CODESCOPE_INDEX_MODE` -/
  mode : Mode
  ignorePatterns : List Str
  gitignoreRules : List GitignoreRule
  excludePatterns : List Str
  firstLine : Str → Option Str

namespace SourceTree

variable (s : SourceTree)

/-- The root as it is spelled. -/
def root : Str := s.dir ++ List.replicate s.slashes '/'

/-- The path below the root. -/
def relPath (q : List Str) : Str := ['/'].intercalate q

/-- The file's own name. -/
def baseName (q : List Str) : Str := q.getLastD []

/-! ## The language context -/

/-- `path.extension() == ".java"` -/
def hasJavaExtension (name : Str) : Bool :=
  match Text.splitLast '.' name with
  | some (before, ext) => before ≠ [] && ext = str "java"
  | none => false

/-- `applyProjectLanguageContext`: the whole tree is searched, skipped or not. -/
def isJava : Bool := s.tree.leaves.any fun q => hasJavaExtension (baseName q)

/-- The policy of an index mode with the language context as it is. -/
def policy (mode : Mode) (java : Bool) : FilterPolicy where
  mode := mode
  langFilter := none
  langContext := if java then str "java" else []
  ignorePatterns := s.ignorePatterns
  scanPrefix := []
  gitignoreRules := s.gitignoreRules
  excludePatterns := s.excludePatterns

/-! ## `discover_files` -/

def relTo (root path : Str) : Str := (PathText.stripPrefix path root).getD path

/-- `engine_path_is_skipped`: the policy of the root has no index mode. -/
def pathIsSkipped (relPath : Str) (isDir : Bool) : Bool :=
  (s.policy .normal s.isJava).shouldSkipEntry s.firstLine relPath isDir

/-- `engine_is_indexable_source` -/
def isIndexableSource (name : Str) : Bool := (detectLanguage s.firstLine name).isSome

/-- The path of an entry of the scheduler's walk. -/
def entryPath (q : List Str) : Str := PathText.join s.root (relPath q)

def discoverEnters (q : List Str) : Bool := !s.pathIsSkipped (relTo s.root (s.entryPath q)) true

def discoverTakes (q : List Str) : Bool :=
  s.isIndexableSource (baseName q) && !s.pathIsSkipped (relTo s.root (s.entryPath q)) false

/-- `discover_files`, of a listing of the tree. -/
def discoverFiles (listing : Forest Str) : List (List Str) :=
  (walk (fun _ => s.discoverEnters) (fun _ => s.discoverTakes) (fun _ => false) s.isJava []
    listing).2

/-! ## `collectFileJobs` -/

/-- The directory `engine_index_project` walks. -/
def scanDir : Str := s.root.rdropWhile fun c => c = '/' || c = '\\'

/-- The path of an entry of the indexer's walk. -/
def scanPath (q : List Str) : Str := s.scanDir ++ '/' :: relPath q

/-- The path the indexer's policy is asked about. -/
def scanRel (path : Str) : Str :=
  if path.length > s.scanDir.length + 1 then path.drop (s.scanDir.length + 1) else []

/-- The file goes to the documents of the project. -/
def isRootReadme (q : List Str) : Bool :=
  isReadmeName (fileName (s.scanPath q)) && parentDir (s.scanPath q) = s.scanDir

def jobLanguage (q : List Str) : Option Str := detectLanguage s.firstLine (s.scanPath q)

def indexEnters (java : Bool) (q : List Str) : Bool :=
  !(s.policy s.mode java).shouldSkipEntry s.firstLine (s.scanRel (s.scanPath q)) true

def indexTakes (java : Bool) (q : List Str) : Bool :=
  !s.isRootReadme q &&
    !(s.policy s.mode java).shouldSkipEntry s.firstLine (s.scanRel (s.scanPath q)) false &&
    (match s.jobLanguage q with
      | some lang => isLanguageAccepted none lang
      | none => false)

/-- The jobs of a walk that starts from an empty scan state; a job in Java sets the context. -/
def collectFileJobs (listing : Forest Str) : List (List Str) :=
  (walk s.indexEnters s.indexTakes (fun q => s.jobLanguage q = some (str "java")) s.isJava []
    listing).2

/-- What the scheduler discovers is what the indexer indexes, in whatever orders the two of them
    come across the entries. -/
def DiscoversIndexed : Prop :=
  ∀ found indexed, Reorders s.tree found → Reorders s.tree indexed →
    ∀ q, q ∈ s.discoverFiles found ↔ q ∈ s.collectFileJobs indexed

/-! ## What the mode adds

A mode only adds checks of its own to those of the normal mode, and they do not look at the language
context. -/

/-- The checks on an entry that the index mode adds. -/
def modeSkips (relPath : Str) (isDir : Bool) : Bool :=
  let normalized := normalize relPath
  let base := Text.afterLast '/' normalized
  match s.mode with
  | .normal => false
  | .fast =>
      (components normalized).any (fun comp => lower comp ∈ fastExtraSkipDirs) ||
        !isDir && (lower base ∈ fastExtraFilenames ||
          (match Text.splitLast '.' base with
            | some (_, ext) => lower ('.' :: ext) ∈ fastExtraSuffixes
            | none => false))
  | .strict => !isDir && (detectLanguage s.firstLine normalized).isNone

end SourceTree

theorem not_protected_of_fastExtra {name : Str} (h : name ∈ fastExtraSkipDirs) :
    name ∉ javaProtectedSkipDirs := by
  revert name
  decide +kernel

theorem normal_or_topOnly_of_protected {name : Str} (h : name ∈ javaProtectedSkipDirs) :
    name ∈ normalSkipDirs ∨ name ∈ topOnlySkipDirs := by
  revert name
  rw [spelledProtected.2, spelledSkipDirs.2, spelledTopOnly.2]
  decide +kernel

theorem normal_subset_active (mode : Mode) : normalSkipDirs ⊆ activeSkipDirs mode := by
  rw [activeSkipDirs]
  split
  · exact List.subset_append_left _ _
  · exact List.Subset.refl _

namespace SourceTree

variable {s : SourceTree} {java : Bool} {rel : Str} {isDir : Bool}

theorem shouldSkipDir_fast (comp : Str) : (s.policy .fast java).shouldSkipDir comp =
    ((s.policy .normal java).shouldSkipDir comp || decide (lower comp ∈ fastExtraSkipDirs)) := by
  simp only [FilterPolicy.shouldSkipDir, activeSkipDirs, policy, if_pos, reduceCtorEq, if_false,
    List.mem_append]
  by_cases hfast : lower comp ∈ fastExtraSkipDirs
  · have hfree := not_protected_of_fastExtra hfast
    simp [hfast, hfree]
  · simp [hfast]

theorem shouldSkipPath_fast (path : Str) : (s.policy .fast java).shouldSkipPath path isDir =
    ((s.policy .normal java).shouldSkipPath path isDir ||
      (components path).any fun comp => lower comp ∈ fastExtraSkipDirs) := by
  by_cases hempty : path = []
  · rw [hempty]
    rfl
  · have hdirs : (components path).any (s.policy .fast java).shouldSkipDir =
        ((components path).any (s.policy .normal java).shouldSkipDir ||
          (components path).any fun comp => lower comp ∈ fastExtraSkipDirs) := by
      rw [List.any_congr rfl shouldSkipDir_fast]
      induction components path with
      | nil => rfl
      | cons comp comps ih =>
          rw [List.any_cons, List.any_cons, List.any_cons, ih, Bool.or_assoc, Bool.or_assoc]
          exact congrArg _ (Bool.or_left_comm _ _ _)
    have htop : (s.policy .fast java).isTopOnlyDir = (s.policy .normal java).isTopOnlyDir := rfl
    have hrules : (s.policy .fast java).gitignoreRules = (s.policy .normal java).gitignoreRules :=
      rfl
    have hpatterns :
        (s.policy .fast java).ignorePatterns = (s.policy .normal java).ignorePatterns := rfl
    have hroot : (s.policy .fast java).rulePath = (s.policy .normal java).rulePath := rfl
    rw [FilterPolicy.shouldSkipPath, FilterPolicy.shouldSkipPath, if_neg hempty, if_neg hempty,
      hdirs, htop, hrules, hpatterns, hroot]
    simp only [Bool.or_assoc, Bool.or_comm, Bool.or_left_comm]

theorem shouldSkipFileEntry_fast (normalized : Str) :
    (s.policy .fast java).shouldSkipFileEntry s.firstLine normalized =
      ((s.policy .normal java).shouldSkipFileEntry s.firstLine normalized ||
        (decide (lower (Text.afterLast '/' normalized) ∈ fastExtraFilenames) ||
          (match Text.splitLast '.' (Text.afterLast '/' normalized) with
            | some (_, ext) => lower ('.' :: ext) ∈ fastExtraSuffixes
            | none => false))) := by
  have hprefixes : fastExtraFilenamePrefixes = [] := rfl
  simp only [FilterPolicy.shouldSkipFileEntry, FilterPolicy.shouldSkipFile,
    FilterPolicy.shouldSkipSuffix, policy, hprefixes]
  cases Text.splitLast '.' (Text.afterLast '/' normalized) with
  | none | some cut => simp [Bool.or_assoc, Bool.or_comm, Bool.or_left_comm]

theorem shouldSkipFileEntry_strict (normalized : Str) :
    (s.policy .strict java).shouldSkipFileEntry s.firstLine normalized =
      ((s.policy .normal java).shouldSkipFileEntry s.firstLine normalized ||
        (detectLanguage s.firstLine normalized).isNone) := by
  simp [FilterPolicy.shouldSkipFileEntry, FilterPolicy.shouldSkipFile,
    FilterPolicy.shouldSkipSuffix, policy]

/-- **A mode skips what the normal mode skips, and what its own checks skip.** -/
theorem shouldSkipEntry_mode (hrel : rel ≠ []) :
    (s.policy s.mode java).shouldSkipEntry s.firstLine rel isDir =
      ((s.policy .normal java).shouldSkipEntry s.firstLine rel isDir || s.modeSkips rel isDir) := by
  have hexcludes (mode : Mode) :
      (s.policy mode java).excludes = (s.policy .normal java).excludes := rfl
  rw [FilterPolicy.shouldSkipEntry, FilterPolicy.shouldSkipEntry, if_neg hrel, if_neg hrel,
    modeSkips]
  dsimp only
  rw [hexcludes s.mode]
  cases hmode : s.mode with
  | normal => rw [Bool.or_false]
  | fast =>
      rw [shouldSkipPath_fast]
      cases isDir with
      | true => simp [Bool.or_assoc, Bool.or_comm, Bool.or_left_comm]
      | false =>
          rw [if_neg Bool.false_ne_true, if_neg Bool.false_ne_true, shouldSkipFileEntry_fast]
          simp only [Bool.not_false, Bool.true_and, Bool.or_assoc, Bool.or_comm, Bool.or_left_comm]
  | strict =>
      have hpath : (s.policy .strict java).shouldSkipPath = (s.policy .normal java).shouldSkipPath :=
        rfl
      rw [hpath]
      cases isDir with
      | true => simp
      | false =>
          rw [if_neg Bool.false_ne_true, if_neg Bool.false_ne_true, shouldSkipFileEntry_strict]
          simp only [Bool.not_false, Bool.true_and, Bool.or_assoc, Bool.or_comm, Bool.or_left_comm]

/-! ## The paths the two walks ask about -/

theorem scanRel_scanPath (q : List Str) : s.scanRel (s.scanPath q) = relPath q := by
  rw [scanRel, scanPath]
  by_cases hempty : relPath q = []
  · rw [hempty, if_neg (by simp)]
  · have hpos := List.length_pos_of_ne_nil hempty
    rw [if_pos (by rw [List.length_append, List.length_cons]; omega), List.append_cons,
      List.drop_left' (by simp)]

theorem relPath_plain {q : List Str} (hne : q ≠ []) (h : ∀ name ∈ q, IsName name) :
    PathText.IsPlain (relPath q) := by
  have hsegs : Text.segments '/' (relPath q) = q :=
    Text.segments_intercalate hne fun name hname => (h name hname).noSlash
  rw [PathText.IsPlain, hsegs]
  exact fun name hname => (h name hname).named

theorem relTo_entryPath {q : List Str} (hne : q ≠ []) (h : ∀ name ∈ q, IsName name) :
    relTo s.root (s.entryPath q) = relPath q := by
  rw [relTo, entryPath, PathText.stripPrefix_join s.root (relPath_plain hne h)]
  rfl

theorem relPath_concat (q : List Str) (name : Str) :
    relPath (q ++ [name]) = (if q = [] then [] else relPath q ++ ['/']) ++ name := by
  cases q with
  | nil => simp [relPath, List.intercalate]
  | cons first q =>
      rw [if_neg (List.cons_ne_nil _ _), relPath, relPath]
      induction q generalizing first with
      | nil => simp [List.intercalate, List.intersperse]
      | cons next q ih =>
          have hcons (l : List Str) : ['/'].intercalate (first :: next :: l) =
              first ++ '/' :: ['/'].intercalate (next :: l) := rfl
          rw [List.cons_append, List.cons_append, hcons, ← List.cons_append, ih, hcons]
          simp

/-! ## The languages the two walks see -/

theorem scanPath_concat (q : List Str) (name : Str) :
    ∃ front, s.scanPath (q ++ [name]) = front ++ '/' :: name := by
  rw [scanPath, relPath_concat]
  by_cases hq : q = []
  · exact ⟨s.scanDir, by rw [if_pos hq, List.nil_append]⟩
  · exact ⟨s.scanDir ++ '/' :: relPath q, by rw [if_neg hq]; simp⟩

/-- The language of a file that has an extension is read off its name. -/
theorem detectLanguage_dotted (firstLine : Str → Option Str) (front : Str) {name : Str}
    (h : '.' ∈ name) :
    detectLanguage firstLine (front ++ '/' :: name) = detectLanguage firstLine name := by
  have hne : name ≠ [] := List.ne_nil_of_mem h
  have hfile : fileName (front ++ '/' :: name) = fileName name := by
    rw [fileName, fileName, Text.afterLast_append_sep]
  rw [detectLanguage, detectLanguage, if_neg (by simp), if_neg hne, hfile]
  cases hsplit : Text.splitLast '.' name with
  | none => exact absurd h (Text.splitLast_none.mp hsplit)
  | some cut =>
      obtain ⟨hshape, hnot⟩ := Text.splitLast_some.mp hsplit
      have hwhole : Text.splitLast '.' (front ++ '/' :: name) =
          some (front ++ '/' :: cut.1, cut.2) :=
        Text.splitLast_some.mpr ⟨by rw [hshape, List.append_assoc, List.cons_append], hnot⟩
      rw [hwhole]

theorem extensionLanguage_slash {ext : Str} (h : '/' ∈ ext) : extensionLanguage ext = none := by
  have hne {known : Str} (hknown : '/' ∉ known) : ext ≠ known := by
    rintro rfl
    exact hknown h
  have hall {knowns : List Str} (hknowns : ∀ known ∈ knowns, '/' ∉ known) : ext ∉ knowns :=
    fun hmem => hknowns ext hmem h
  simp only [extensionLanguage]
  repeat rw [if_neg (by first | exact hne (by decide) | exact hall (by decide))]

/-- A file without an extension has the language of its first line, where the path has no `.`. -/
theorem detectLanguage_undotted (firstLine : Str → Option Str) (front : Str) {name : Str}
    (h : '.' ∉ name) : (detectLanguage firstLine (front ++ '/' :: name)).isSome = true ↔
      '.' ∉ front ++ '/' :: name ∧
        ((firstLine (front ++ '/' :: name)).bind shebangLanguage).isSome = true := by
  rw [detectLanguage, if_neg (by simp)]
  cases hsplit : Text.splitLast '.' (front ++ '/' :: name) with
  | none => exact (and_iff_right (Text.splitLast_none.mp hsplit)).symm
  | some cut =>
      obtain ⟨hshape, hnot⟩ := Text.splitLast_some.mp hsplit
      have hmem : '.' ∈ front ++ '/' :: name := by
        rw [hshape]
        exact List.mem_append_right _ List.mem_cons_self
      have hslash : '/' ∈ cut.2 := by
        rcases List.append_eq_append_iff.mp hshape with ⟨l, hl, hname⟩ | ⟨l, hfront, hname⟩
        · -- the `.` would stand in the name
          cases l with
          | nil => exact absurd (List.cons.inj hname).1 (by decide)
          | cons c l =>
              rw [List.cons_append] at hname
              have hin := (List.cons.inj hname).2
              exact absurd (by rw [hin]; simp) h
        · cases l with
          | nil => exact absurd (List.cons.inj hname).1 (by decide)
          | cons c l =>
              rw [List.cons_append] at hname
              rw [(List.cons.inj hname).2]
              simp
      have hlower : '/' ∈ lower ('.' :: cut.2) :=
        List.mem_map.mpr ⟨'/', List.mem_cons_of_mem _ hslash, rfl⟩
      refine iff_of_false (fun hsome => ?_) fun hboth => hboth.1 hmem
      dsimp only at hsome
      rw [extensionLanguage_slash hlower, ite_self] at hsome
      exact absurd hsome Bool.false_ne_true

/-! ## When the two walks agree -/

variable (s)

/-- The rules of the normal mode keep the file and every directory above it. -/
def normallyKept (java : Bool) (q : List Str) : Bool :=
  kept (fun java q => !(s.policy .normal java).shouldSkipEntry s.firstLine (relPath q) true)
    (fun java q => !(s.policy .normal java).shouldSkipEntry s.firstLine (relPath q) false) java [] q

/-- The checks that the index mode adds keep the file and every directory above it. -/
def modeKeeps (q : List Str) : Bool :=
  kept (fun _ q => !s.modeSkips (relPath q) true) (fun _ q => !s.modeSkips (relPath q) false) false
    [] q

/-- The first line of the file at this path names a known interpreter. -/
def isScript (path : Str) : Bool := ((s.firstLine path).bind shebangLanguage).isSome

/-- The mode keeps the file, and it is no README of the root. -/
def staysSource (q : List Str) : Bool := s.modeKeeps q && !s.isRootReadme q

/-- What has to hold of the files the normal rules keep. -/
structure Aligned : Prop where
  /-- a file with the extension of a language stays for the indexer -/
  spelled : ∀ q ∈ s.tree.leaves, s.normallyKept s.isJava q = true → '.' ∈ baseName q →
    (detectLanguage s.firstLine (baseName q)).isSome = true → s.staysSource q = true
  /-- of a file without an extension, its bare name and its path say the same -/
  script : ∀ q ∈ s.tree.leaves, s.normallyKept s.isJava q = true → '.' ∉ baseName q →
    (s.isScript (baseName q) = true ↔
      '.' ∉ s.scanPath q ∧ s.isScript (s.scanPath q) = true ∧ s.staysSource q = true)
  /-- the indexer meets no Java that the search for the context missed, or nothing depends on it -/
  settled : s.isJava = false → ∀ f ∈ s.tree.leaves, s.normallyKept false f = true →
    s.staysSource f = true → s.jobLanguage f = some (str "java") →
      ∀ q ∈ s.tree.leaves, s.normallyKept true q = true → s.staysSource q = true →
        (s.jobLanguage q).isSome = true → s.normallyKept false q = true

variable {s} {q : List Str}

theorem names_of_mem (h : q ∈ s.tree.leaves) {p : List Str} (hp : p <+: q) :
    ∀ name ∈ p, IsName name :=
  fun name hname => s.names q h name (hp.subset hname)

theorem kept_discover (h : q ∈ s.tree.leaves) :
    kept (fun _ => s.discoverEnters) (fun _ => s.discoverTakes) s.isJava [] q =
      (s.normallyKept s.isJava q && s.isIndexableSource (baseName q)) := by
  have hne := TreeWalk.ne_nil_of_mem_leaves h
  have hsplit : kept (fun _ => s.discoverEnters) (fun _ => s.discoverTakes) s.isJava [] q =
      kept (fun java q => !(s.policy .normal java).shouldSkipEntry s.firstLine (relPath q) true &&
          true)
        (fun java q => !(s.policy .normal java).shouldSkipEntry s.firstLine (relPath q) false &&
          s.isIndexableSource (baseName q)) s.isJava [] q := by
    apply TreeWalk.kept_congr
    · intro p hp hpfx
      rw [discoverEnters, relTo_entryPath hp (names_of_mem h hpfx), Bool.and_true]
      rfl
    · intro _
      rw [List.nil_append, discoverTakes, relTo_entryPath hne (s.names q h), Bool.and_comm]
      rfl
  rw [hsplit, TreeWalk.kept_and, TreeWalk.kept_unguarded hne]
  rfl

theorem kept_index (h : q ∈ s.tree.leaves) (java : Bool) :
    kept s.indexEnters s.indexTakes java [] q =
      (s.normallyKept java q && (s.staysSource q && (s.jobLanguage q).isSome)) := by
  have hne := TreeWalk.ne_nil_of_mem_leaves h
  have hrel {p : List Str} (hp : p ≠ []) (hpfx : p <+: q) : relPath p ≠ [] :=
    (relPath_plain hp (names_of_mem h hpfx)).ne_nil
  have hsplit : kept s.indexEnters s.indexTakes java [] q =
      kept (fun java q => !(s.policy .normal java).shouldSkipEntry s.firstLine (relPath q) true &&
          (!s.modeSkips (relPath q) true && true))
        (fun java q => !(s.policy .normal java).shouldSkipEntry s.firstLine (relPath q) false &&
          (!s.modeSkips (relPath q) false && (!s.isRootReadme q && (s.jobLanguage q).isSome)))
        java [] q := by
    apply TreeWalk.kept_congr
    · intro p hp hpfx
      rw [indexEnters, scanRel_scanPath, shouldSkipEntry_mode (hrel hp hpfx), Bool.not_or,
        Bool.and_true]
    · intro _
      have haccepted : (match s.jobLanguage q with
          | some lang => isLanguageAccepted none lang
          | none => false) = (s.jobLanguage q).isSome := by
        cases s.jobLanguage q <;> rfl
      rw [List.nil_append, indexTakes, scanRel_scanPath,
        shouldSkipEntry_mode (hrel hne (List.prefix_refl q)), Bool.not_or, haccepted]
      simp only [Bool.and_assoc, Bool.and_comm, Bool.and_left_comm]
  rw [hsplit, TreeWalk.kept_and, TreeWalk.kept_and, TreeWalk.kept_unguarded hne,
    TreeWalk.kept_flag _ _ java false, List.nil_append, staysSource, Bool.and_assoc]
  rfl

/-- What a file with an extension, and one without, has to meet. -/
theorem agree_iff (h : q ∈ s.tree.leaves) :
    ((s.normallyKept s.isJava q && s.isIndexableSource (baseName q)) = true ↔
        (s.normallyKept s.isJava q && (s.staysSource q && (s.jobLanguage q).isSome)) = true) ↔
      (s.normallyKept s.isJava q = true → '.' ∈ baseName q →
          (detectLanguage s.firstLine (baseName q)).isSome = true → s.staysSource q = true) ∧
        (s.normallyKept s.isJava q = true → '.' ∉ baseName q →
          (s.isScript (baseName q) = true ↔
            '.' ∉ s.scanPath q ∧ s.isScript (s.scanPath q) = true ∧ s.staysSource q = true)) := by
  have hne := TreeWalk.ne_nil_of_mem_leaves h
  obtain ⟨above, name, rfl⟩ : ∃ above name, q = above ++ [name] :=
    ⟨q.dropLast, q.getLast hne, (List.dropLast_append_getLast hne).symm⟩
  obtain ⟨front, hpath⟩ := scanPath_concat (s := s) above name
  have hbase : baseName (above ++ [name]) = name := by simp [baseName]
  have hname : name ≠ [] := by
    rintro rfl
    exact absurd (s.names _ h [] (by simp)).named (by decide)
  rw [hbase, isIndexableSource, jobLanguage, hpath]
  cases s.normallyKept s.isJava (above ++ [name]) with
  | false => simp
  | true =>
      simp only [Bool.true_and, forall_const]
      by_cases hdot : '.' ∈ name
      · rw [detectLanguage_dotted s.firstLine front hdot]
        simp only [hdot, not_true_eq_false, false_imp_iff, and_true, forall_const]
        rw [Bool.and_eq_true]
        exact ⟨fun hiff hlang => (hiff.mp hlang).1, fun himp => ⟨fun hlang => ⟨himp hlang, hlang⟩,
          fun hboth => hboth.2⟩⟩
      · have hbare : (detectLanguage s.firstLine name).isSome = s.isScript name := by
          rw [detectLanguage, if_neg hname, Text.splitLast_none.mpr hdot]
          rfl
        rw [hbare, Bool.and_eq_true, detectLanguage_undotted s.firstLine front hdot]
        simp only [hdot, not_false_eq_true, false_imp_iff, true_and, forall_const, isScript]
        refine iff_congr Iff.rfl ?_
        rw [and_comm, and_assoc]

theorem shouldSkipDir_policy (mode : Mode) (java : Bool) (comp : Str) :
    (s.policy mode java).shouldSkipDir comp =
      if lower comp ∈ activeSkipDirs mode then !(java && lower comp ∈ javaProtectedSkipDirs)
      else FilterPolicy.shouldSkipDirPrefix (lower comp) := by
  cases java with
  | false => rfl
  | true => rfl

theorem isTopOnlyDir_policy (mode : Mode) (java : Bool) (comp : Str) :
    (s.policy mode java).isTopOnlyDir comp =
      (lower comp ≠ [] && (lower comp ∈ topOnlySkipDirs ||
        (java && lower comp ∈ javaProtectedSkipDirs))) := by
  cases java with
  | false => rfl
  | true => rfl

/-- The Java context only lets more pass. -/
theorem shouldSkipEntry_java {mode : Mode}
    (h : (s.policy mode true).shouldSkipEntry s.firstLine rel isDir = true) :
    (s.policy mode false).shouldSkipEntry s.firstLine rel isDir = true := by
  have hdir (comp : Str) (hskip : (s.policy mode true).shouldSkipDir comp = true) :
      (s.policy mode false).shouldSkipDir comp = true := by
    rw [shouldSkipDir_policy] at hskip ⊢
    by_cases hactive : lower comp ∈ activeSkipDirs mode
    · rw [if_pos hactive, Bool.false_and]
      rfl
    · rw [if_neg hactive] at hskip ⊢
      exact hskip
  have htop (comp : Str) (hskip : (s.policy mode true).isTopOnlyDir comp = true) :
      (s.policy mode false).isTopOnlyDir comp = true ∨
        (s.policy mode false).shouldSkipDir comp = true := by
    rw [isTopOnlyDir_policy] at hskip ⊢
    simp only [Bool.and_eq_true, Bool.or_eq_true, decide_eq_true_eq] at hskip
    obtain ⟨hne, hknown | ⟨_, hin⟩⟩ := hskip
    · exact Or.inl (by simp [hne, hknown])
    · rcases normal_or_topOnly_of_protected hin with hnormal | hknown
      · right
        rw [shouldSkipDir_policy, if_pos (normal_subset_active mode hnormal), Bool.false_and]
        rfl
      · exact Or.inl (by simp [hne, hknown])
  have hpath {path : Str} (hskip : (s.policy mode true).shouldSkipPath path isDir = true) :
      (s.policy mode false).shouldSkipPath path isDir = true := by
    simp only [FilterPolicy.shouldSkipPath] at hskip ⊢
    by_cases hempty : path = []
    · rw [if_pos hempty] at hskip
      exact absurd hskip Bool.false_ne_true
    · rw [if_neg hempty] at hskip ⊢
      simp only [Bool.or_eq_true, List.any_eq_true] at hskip ⊢
      rcases hskip with ((⟨comp, hcomp, hone⟩ | ⟨comp, hcomp, hone⟩) | hgit) | hpattern
      · exact Or.inl (Or.inl (Or.inl ⟨comp, hcomp, hdir comp hone⟩))
      · rcases htop comp hone with htop | hdir
        · exact Or.inl (Or.inl (Or.inr ⟨comp, hcomp, htop⟩))
        · exact Or.inl (Or.inl (Or.inl ⟨comp, List.mem_of_mem_take hcomp, hdir⟩))
      · exact Or.inl (Or.inr hgit)
      · exact Or.inr hpattern
  simp only [FilterPolicy.shouldSkipEntry] at h ⊢
  by_cases hempty : rel = []
  · rw [if_pos hempty] at h
    exact absurd h Bool.false_ne_true
  · rw [if_neg hempty] at h ⊢
    simp only [Bool.or_eq_true] at h ⊢
    rcases h with (hskip | hname) | hexclude
    · exact Or.inl (Or.inl (hpath hskip))
    · exact Or.inl (Or.inr hname)
    · exact Or.inr hexclude

theorem index_widening (s : SourceTree) : TreeWalk.Widening s.indexEnters s.indexTakes := by
  have hkeeps {isDir : Bool} {rel : Str}
      (h : (!(s.policy s.mode false).shouldSkipEntry s.firstLine rel isDir) = true) :
      (!(s.policy s.mode true).shouldSkipEntry s.firstLine rel isDir) = true := by
    rw [Bool.not_eq_true'] at h ⊢
    exact Bool.eq_false_iff.mpr fun hskip => (Bool.eq_false_iff.mp h) (shouldSkipEntry_java hskip)
  constructor
  · intro p h
    exact hkeeps h
  · intro p h
    simp only [indexTakes, Bool.and_eq_true] at h ⊢
    exact ⟨⟨h.1.1, hkeeps h.1.2⟩, h.2⟩

theorem mem_discoverFiles {found : Forest Str} (h : Reorders s.tree found) :
    q ∈ s.discoverFiles found ↔
      q ∈ s.tree.leaves ∧ (s.normallyKept s.isJava q && s.isIndexableSource (baseName q)) = true := by
  rw [discoverFiles, (TreeWalk.walk_quiet fun _ _ _ => Bool.or_false _).2, ← h.mem_leaves]
  exact and_congr_right fun hq => by rw [kept_discover hq]

/-- A shell script without an extension, in the root. -/
def scriptTree : SourceTree where
  dir := str "/repo"
  proper := ⟨'o', rfl, by decide, by decide⟩
  slashes := 0
  tree := .leaf (str "run") .nil
  names := by
    intro q hq name hname
    rw [List.mem_singleton.mp hq] at hname
    rw [List.mem_singleton.mp hname]
    exact ⟨by decide, by decide⟩
  mode := .normal
  ignorePatterns := []
  gitignoreRules := []
  excludePatterns := []
  firstLine := fun path => if path = str "/repo/run" then some (str "#!/bin/bash") else none

end SourceTree

end CodeScope.Filter
