import CodeScope.Filter.Quarantine

/-! # The root module's share of a project

The files directly in the project's root are a module of their own: its worker walks the whole
project with `<name>/**` excluded for every subdirectory, and every other module's worker walks its
own directory. The names are not escaped as patterns and the worker trims blanks off them, so the
root worker can walk into a subdirectory and can lose a file of the root. -/

namespace CodeScope.Filter

open Text (Str str)
open PathText (PlainPath)

/-- A directory directly in the project's root; `utf8` says that its name is valid UTF-8. -/
structure Subdirectory where
  name : Str
  utf8 : Bool
  noSlash : '/' ∉ name

/-- A project with a root module. `rootPolicy` is the root worker's policy before it reads the
    exclude list. -/
structure ModuleSplit where
  projectDir : Str
  subdirectories : List Subdirectory
  distinct : (subdirectories.map (·.name)).Nodup
  /-- the subdirectories that discovery makes a module of -/
  modules : List Subdirectory
  discovered : modules ⊆ subdirectories
  files : List PlainPath
  rootPolicy : FilterPolicy
  modulePolicy : Subdirectory → FilterPolicy
  firstLine : Str → Option Str

namespace ModuleSplit

variable (s : ModuleSplit)

/-- The names `subdirectory_excludes` makes patterns of. -/
def excludedNames : List Str := (s.subdirectories.filter (·.utf8)).map (·.name)

/-- The root worker's policy keeps the file, the exclude list apart. -/
def rootKeeps (path : Str) : Bool := s.rootPolicy.collects s.firstLine s.projectDir path

/-- The policy of the module's worker keeps the file, given below the module. -/
def moduleKeeps (d : Subdirectory) (rest : Str) : Bool :=
  (s.modulePolicy d).collects s.firstLine (PathText.join s.projectDir d.name) rest

/-- The root worker indexes the file. -/
def rootIndexes (f : PlainPath) : Bool :=
  (s.rootPolicy.loadExcludeEnv (some (subdirectoryExcludes s.excludedNames))).collects
    s.firstLine s.projectDir f.path

/-- The worker of the module indexes the file. A name that is not UTF-8 reaches the worker with
    replacement characters, as a directory that does not exist. -/
def moduleIndexes (d : Subdirectory) (f : PlainPath) : Bool :=
  d.utf8 &&
    match f.path.dropPrefix? (d.name ++ ['/']) with
    | some rest => s.moduleKeeps d rest
    | none => false

/-- The workers of the run; the root's has no directory of its own. -/
def workers : List (Option Subdirectory) := none :: s.modules.map some

def indexes : Option Subdirectory → PlainPath → Bool
  | none => s.rootIndexes
  | some d => s.moduleIndexes d

end ModuleSplit

/-- The file lies directly in the root. -/
def IsRootFile (f : PlainPath) : Prop := '/' ∉ f.path

/-- The file lies below the directory, as `rest`. -/
def LiesBelow (d : Subdirectory) (f : PlainPath) (rest : Str) : Prop :=
  f.path = d.name ++ '/' :: rest

/-- The module the file belongs to keeps it. -/
def ModuleSplit.OwnerKeeps (s : ModuleSplit) (f : PlainPath) : Prop :=
  (IsRootFile f ∧ s.rootKeeps f.path = true) ∨
    ∃ d ∈ s.modules, ∃ rest, LiesBelow d f rest ∧ s.moduleKeeps d rest = true

/-- What the split is for. -/
structure SplitsExactly (s : ModuleSplit) : Prop where
  /-- the root worker skips what lies below a module -/
  skipped : ∀ f ∈ s.files, ∀ d ∈ s.modules, ∀ rest, LiesBelow d f rest → s.rootIndexes f = false
  /-- the list costs no file of the root -/
  spared : ∀ f ∈ s.files, IsRootFile f → s.rootIndexes f = s.rootKeeps f.path
  /-- a file its module keeps is indexed by one worker -/
  single : ∀ f ∈ s.files, s.OwnerKeeps f → ∃! w, w ∈ s.workers ∧ s.indexes w f = true

/-! ## What the list hides -/

/-- What the worker reads of a directory name: blanks at its front are trimmed off. -/
def readName (name : Str) : Str := name.dropWhile isBlank

/-- How many `**` the name spells, the separator behind it included. -/
def nameStars (name : Str) : ℕ := Glob.crossings (Glob.parse (readName name ++ ['/']))

/-- The path starts with an instance of the name and a separator, `*`, `**` and `?` read as
    wildcards. -/
def StartsWithName (name path : Str) : Prop :=
  ∃ front rest, normalize path = front ++ rest ∧
    Glob.Matches '/' (Glob.parse (readName name ++ ['/'])) front

/-- Some subdirectory's pattern reaches the path. -/
def ModuleSplit.Hidden (s : ModuleSplit) (path : Str) : Prop :=
  ∃ d ∈ s.subdirectories, d.utf8 = true ∧ nameStars d.name ≤ 7 ∧ StartsWithName d.name path

theorem flush_subdirectoryPattern (name : Str) :
    flush (name ++ str "/**") = [readName name ++ str "/**"] := by
  have hall : (name ++ str "/**").all isBlank = false := by
    rw [List.all_append]
    exact Bool.and_false _
  have hfront : (name ++ str "/**").dropWhile isBlank = readName name ++ str "/**" := by
    rw [readName, List.dropWhile_append]
    split_ifs with hempty
    · rw [List.isEmpty_iff.mp hempty]
      rfl
    · rfl
  have hback : (readName name ++ str "/**").reverse.dropWhile isBlank =
      (readName name ++ str "/**").reverse := by
    rw [List.reverse_append]
    rfl
  have hne : readName name ++ str "/**" ≠ [] := by simp [str]
  have htrim : (if (name ++ str "/**").all isBlank then name ++ str "/**"
      else Text.trim isBlank (name ++ str "/**")) = readName name ++ str "/**" := by
    rw [hall, if_neg (by simp), Text.trim, hfront, hback, List.reverse_reverse]
  rw [flush, htrim, if_neg hne]

theorem globMatch_subdirectoryPattern (name path : Str) :
    globMatch (readName name ++ str "/**") path = true ↔
      nameStars name ≤ 7 ∧ ∃ front rest, path = front ++ rest ∧
        Glob.Matches '/' (Glob.parse (readName name ++ ['/'])) front := by
  have hparse : Glob.parse (readName name ++ str "/**") =
      Glob.parse (readName name ++ ['/']) ++ [.everything] :=
    Glob.parse_append_sep (readName name) ['*', '*']
  have hany : ∀ rest, Glob.Matches '/' [Glob.Token.everything] rest :=
    fun rest => ⟨rest, [], (List.append_nil rest).symm, rfl⟩
  rw [globMatch_iff, hparse, Glob.crossings_append, ← nameStars, Glob.matches_append,
    kGlobDoubleStarMaxDepth]
  simp only [hany, and_true]
  exact and_congr_left fun _ => Nat.succ_le_succ_iff

theorem normalize_append (a b : Str) : normalize (a ++ b) = normalize a ++ normalize b :=
  List.map_append

theorem mem_excludeEnvPatterns (s : ModuleSplit) (pat : Str) :
    pat ∈ excludeEnvPatterns (some (subdirectoryExcludes s.excludedNames)) ↔
      ∃ d ∈ s.subdirectories, d.utf8 = true ∧ pat = readName d.name ++ str "/**" := by
  rw [subdirectoryExcludes, excludeEnvPatterns_join, List.mem_flatMap]
  simp only [subdirectoryPatterns, List.mem_mergeSort, ModuleSplit.excludedNames, List.mem_map,
    List.mem_filter]
  constructor
  · rintro ⟨_, ⟨_, ⟨d, ⟨hd, hutf8⟩, rfl⟩, rfl⟩, hpat⟩
    rw [flush_subdirectoryPattern, List.mem_singleton] at hpat
    exact ⟨d, hd, hutf8, hpat⟩
  · rintro ⟨d, hd, hutf8, rfl⟩
    refine ⟨_, ⟨_, ⟨d, ⟨hd, hutf8⟩, rfl⟩, rfl⟩, ?_⟩
    rw [flush_subdirectoryPattern]
    exact List.mem_singleton_self _

/-- A pattern that reaches a directory above the path also reaches the path. -/
theorem hides_excludes_iff (s : ModuleSplit) (path : Str) :
    hides (excludeEnvPatterns (some (subdirectoryExcludes s.excludedNames))) path = true ↔
      s.Hidden path := by
  rw [hides, List.any_eq_true]
  simp only [List.any_eq_true, mem_excludeEnvPatterns]
  constructor
  · rintro ⟨h, hmem, _, ⟨d, hd, hutf8, rfl⟩, hmatch⟩
    obtain ⟨hstars, front, rest, hsplit, hfront⟩ := (globMatch_subdirectoryPattern _ _).mp hmatch
    rcases List.mem_cons.mp hmem with rfl | habove
    · exact ⟨d, hd, hutf8, hstars, front, rest, hsplit, hfront⟩
    · obtain ⟨more, rfl⟩ := mem_ancestors.mp habove
      refine ⟨d, hd, hutf8, hstars, front, rest ++ normalize ('/' :: more), ?_, hfront⟩
      rw [normalize_append, hsplit, List.append_assoc]
  · rintro ⟨d, hd, hutf8, hstars, hstart⟩
    exact ⟨path, List.mem_cons_self, _, ⟨d, hd, hutf8, rfl⟩,
      (globMatch_subdirectoryPattern _ _).mpr ⟨hstars, hstart⟩⟩

theorem rootIndexes_iff (s : ModuleSplit) (f : PlainPath) :
    s.rootIndexes f = true ↔ s.rootKeeps f.path = true ∧ ¬ s.Hidden f.path := by
  rw [ModuleSplit.rootIndexes, collects_loadExcludeEnv, ← hides_excludes_iff, Bool.not_eq_true]
  rfl

/-! ## When the split is exact -/

/-- The name's own pattern may not reach the files below it: it is left out of the list, it loses
    blanks to the trimming, its backslashes are separators in the path but not in the pattern, or it
    spells more `**` than the matcher follows. -/
def NameEscapes (d : Subdirectory) : Prop :=
  d.utf8 = false ∨ d.name.head?.any isBlank = true ∨ '\\' ∈ d.name ∨ 7 < nameStars d.name

/-- What the names of the directories and the files must satisfy. -/
structure SplitFits (s : ModuleSplit) : Prop where
  /-- a module with files of its own has a name in UTF-8 -/
  readable : ∀ f ∈ s.files, ∀ d ∈ s.modules, ∀ rest, LiesBelow d f rest →
    s.moduleKeeps d rest = true → d.utf8 = true
  /-- a file below a module whose name escapes its pattern starts with an instance of another -/
  caught : ∀ f ∈ s.files, ∀ d ∈ s.modules, ∀ rest, LiesBelow d f rest →
    s.rootKeeps f.path = true → NameEscapes d → s.Hidden f.path
  /-- a file of the root starts with an instance of no name, which only a backslash in its own name
      or a directory name that ends in `**` can bring about -/
  missed : ∀ f ∈ s.files, IsRootFile f → s.rootKeeps f.path = true →
    ('\\' ∈ f.path ∨ ∃ d ∈ s.subdirectories, ['*', '*'] <:+ d.name) → ¬ s.Hidden f.path

variable {d : Subdirectory} {f : PlainPath} {s : ModuleSplit}

/-- A name that does not escape its pattern starts the paths below it. -/
theorem startsWithName_of_below {rest : Str} (hbelow : LiesBelow d f rest)
    (hblank : d.name.head?.any isBlank = false) (hslash : '\\' ∉ d.name) :
    StartsWithName d.name f.path := by
  have hread : readName d.name = d.name := by
    rw [readName]
    cases hname : d.name with
    | nil => rfl
    | cons c more =>
        rw [hname] at hblank
        have hc : isBlank c = false := hblank
        rw [List.dropWhile_cons_of_neg (by simp [hc])]
  refine ⟨d.name ++ ['/'], normalize rest, ?_, ?_⟩
  · rw [hbelow, normalize_append, normalize_of_not_mem hslash, List.append_assoc]
    rfl
  · rw [hread]
    exact Glob.matches_self _

theorem hidden_of_below (hd : d ∈ s.modules) {rest : Str} (hbelow : LiesBelow d f rest)
    (hname : ¬ NameEscapes d) : s.Hidden f.path := by
  rw [NameEscapes] at hname
  push Not at hname
  obtain ⟨hutf8, hblank, hslash, hstars⟩ := hname
  refine ⟨d, s.discovered hd, by simpa using hutf8, hstars, ?_⟩
  exact startsWithName_of_below hbelow (by simpa using hblank) hslash

/-- A file of the root without a backslash starts with no name that ends in anything but `**`. -/
theorem not_hidden_of_root (hroot : IsRootFile f) (hslash : '\\' ∉ f.path)
    (hnames : ∀ d ∈ s.subdirectories, ¬ ['*', '*'] <:+ d.name) : ¬ s.Hidden f.path := by
  rintro ⟨d, hd, _, _, front, rest, hsplit, hfront⟩
  have hread : readName d.name <:+ d.name := List.dropWhile_suffix _
  have hmem : '/' ∈ front :=
    Glob.sep_mem_of_matches (fun h => d.noSlash (hread.subset h))
      (fun h => hnames d hd (h.trans hread)) hfront
  apply hroot
  rw [normalize_of_not_mem hslash] at hsplit
  rw [hsplit]
  exact List.mem_append_left rest hmem

theorem moduleIndexes_iff (s : ModuleSplit) (d : Subdirectory) (f : PlainPath) :
    s.moduleIndexes d f = true ↔
      d.utf8 = true ∧ ∃ rest, LiesBelow d f rest ∧ s.moduleKeeps d rest = true := by
  have hdrop : ∀ rest, f.path.dropPrefix? (d.name ++ ['/']) = some rest ↔ LiesBelow d f rest := by
    intro rest
    rw [List.dropPrefix?_eq_some_iff, LiesBelow]
    constructor
    · rintro ⟨p, hsplit, hp⟩
      rw [hsplit, eq_of_beq hp, List.append_assoc, List.singleton_append]
    · intro hsplit
      exact ⟨d.name ++ ['/'], by rw [hsplit]; simp, beq_self_eq_true _⟩
  rw [ModuleSplit.moduleIndexes, Bool.and_eq_true]
  refine and_congr_right fun _ => ?_
  split
  · rename_i rest hrest
    have hbelow := (hdrop rest).mp hrest
    constructor
    · intro hkeeps
      exact ⟨rest, hbelow, hkeeps⟩
    · rintro ⟨rest', hbelow', hkeeps⟩
      rw [(hdrop rest').mpr hbelow'] at hrest
      rwa [Option.some.inj hrest] at hkeeps
  · rename_i hnone
    constructor
    · intro h
      exact absurd h (by simp)
    · rintro ⟨rest, hbelow, _⟩
      rw [(hdrop rest).mpr hbelow] at hnone
      exact absurd hnone (by simp)

/-- A file lies below one subdirectory at most. -/
theorem below_unique {e : Subdirectory} (hd : d ∈ s.modules) (he : e ∈ s.modules) {rest more : Str}
    (hrest : LiesBelow d f rest) (hmore : LiesBelow e f more) : d = e := by
  have hname : d.name = e.name := by
    have htake : ∀ {g : Subdirectory} {tail : Str}, LiesBelow g f tail →
        f.path.takeWhile (fun c => decide (c ≠ '/')) = g.name := by
      intro g tail hg
      rw [hg, List.takeWhile_append_of_pos]
      · simp
      · intro c hc
        have hne : c ≠ '/' := by
          rintro rfl
          exact g.noSlash hc
        simpa using hne
    rw [← htake hrest, htake hmore]
  exact List.inj_on_of_nodup_map s.distinct (s.discovered hd) (s.discovered he) hname

theorem not_below_of_root (hroot : IsRootFile f) (d : Subdirectory) (rest : Str) :
    ¬ LiesBelow d f rest := by
  intro hbelow
  rw [IsRootFile, hbelow] at hroot
  simp at hroot

theorem mem_workers : some d ∈ s.workers ↔ d ∈ s.modules := by
  simp [ModuleSplit.workers]

/-- When the root worker keeps out of the modules and the list costs it nothing, a file its module
    keeps has one worker. -/
theorem single_worker
    (hskip : ∀ d ∈ s.modules, ∀ rest, LiesBelow d f rest → s.rootIndexes f = false)
    (hspare : IsRootFile f → s.rootIndexes f = s.rootKeeps f.path)
    (hread : ∀ d ∈ s.modules, ∀ rest, LiesBelow d f rest → s.moduleKeeps d rest = true → d.utf8 = true)
    (hkept : s.OwnerKeeps f) : ∃! w, w ∈ s.workers ∧ s.indexes w f = true := by
  rcases hkept with ⟨hroot, hkeeps⟩ | ⟨d, hd, rest, hbelow, hkeeps⟩
  · refine ⟨none, ⟨List.mem_cons_self, (hspare hroot).trans hkeeps⟩, ?_⟩
    rintro w ⟨_, hw⟩
    cases w with
    | none => rfl
    | some e =>
        obtain ⟨_, more, hmore, _⟩ := (moduleIndexes_iff s e f).mp hw
        exact absurd hmore (not_below_of_root hroot e more)
  · have hindexes : s.moduleIndexes d f = true :=
      (moduleIndexes_iff s d f).mpr ⟨hread d hd rest hbelow hkeeps, rest, hbelow, hkeeps⟩
    refine ⟨some d, ⟨mem_workers.mpr hd, hindexes⟩, ?_⟩
    rintro w ⟨hmem, hw⟩
    cases w with
    | none =>
        have hnot := hskip d hd rest hbelow
        exact absurd (hw.symm.trans hnot) (by simp)
    | some e =>
        obtain ⟨_, more, hmore, _⟩ := (moduleIndexes_iff s e f).mp hw
        rw [below_unique hd (mem_workers.mp hmem) hbelow hmore]

/-- **The root module's split is exact exactly when no name escapes its pattern without another one
    to catch its files, and no file of the root looks like one below a subdirectory.** -/
theorem root_split_exact_iff (s : ModuleSplit) : SplitsExactly s ↔ SplitFits s := by
  constructor
  · intro hsplit
    refine ⟨?_, ?_, ?_⟩
    · intro f hf d hd rest hbelow hkeeps
      obtain ⟨w, ⟨hmem, hw⟩, _⟩ := hsplit.single f hf (Or.inr ⟨d, hd, rest, hbelow, hkeeps⟩)
      cases w with
      | none =>
          have hnot := hsplit.skipped f hf d hd rest hbelow
          exact absurd (hw.symm.trans hnot) (by simp)
      | some e =>
          obtain ⟨hutf8, more, hmore, _⟩ := (moduleIndexes_iff s e f).mp hw
          rw [below_unique hd (mem_workers.mp hmem) hbelow hmore]
          exact hutf8
    · intro f hf d hd rest hbelow hkeeps _
      by_contra hvisible
      have hnot := hsplit.skipped f hf d hd rest hbelow
      rw [(rootIndexes_iff s f).mpr ⟨hkeeps, hvisible⟩] at hnot
      exact absurd hnot (by simp)
    · intro f hf hroot hkeeps _
      have hindexes := (hsplit.spared f hf hroot).trans hkeeps
      exact ((rootIndexes_iff s f).mp hindexes).2
  · intro hfits
    have hskip : ∀ f ∈ s.files, ∀ d ∈ s.modules, ∀ rest, LiesBelow d f rest →
        s.rootIndexes f = false := by
      intro f hf d hd rest hbelow
      rw [← Bool.not_eq_true, rootIndexes_iff]
      rintro ⟨hkeeps, hvisible⟩
      by_cases hname : NameEscapes d
      · exact hvisible (hfits.caught f hf d hd rest hbelow hkeeps hname)
      · exact hvisible (hidden_of_below hd hbelow hname)
    have hspare : ∀ f ∈ s.files, IsRootFile f → s.rootIndexes f = s.rootKeeps f.path := by
      intro f hf hroot
      rw [Bool.eq_iff_iff, rootIndexes_iff]
      refine ⟨fun h => h.1, fun hkeeps => ⟨hkeeps, ?_⟩⟩
      by_cases hodd : '\\' ∈ f.path ∨ ∃ d ∈ s.subdirectories, ['*', '*'] <:+ d.name
      · exact hfits.missed f hf hroot hkeeps hodd
      · push Not at hodd
        exact not_hidden_of_root hroot hodd.1 hodd.2
    exact ⟨hskip, hspare, fun f hf hkept =>
      single_worker (hskip f hf) (hspare f hf) (hfits.readable f hf) hkept⟩

/-! ## A file indexed twice -/

/-- The blank in front of the directory ` lib` is trimmed off its pattern: the root worker indexes
    its file too. -/
theorem root_split_trims_name :
    let d : Subdirectory := ⟨str " lib", true, by decide⟩
    let policy : FilterPolicy := ⟨.fast, none, [], [], [], [], []⟩
    let f : PlainPath := ⟨str " lib/x.c", by decide⟩
    let s : ModuleSplit :=
      ⟨str "/p", [d], List.nodup_singleton _, [d], fun _ h => h, [f], policy, fun _ => policy,
        fun _ => none⟩
    ¬ SplitsExactly s := by
  intro d policy f s hsplit
  have hskipped := hsplit.skipped f (by simp [s]) d (by simp [s]) (str "x.c") rfl
  revert hskipped
  delta ModuleSplit.rootIndexes FilterPolicy.collects FilterPolicy.reaches
    FilterPolicy.shouldSkipEntry FilterPolicy.shouldSkipPath FilterPolicy.shouldSkipFileEntry
    FilterPolicy.shouldSkipDir FilterPolicy.isTopOnlyDir FilterPolicy.shouldSkipFile
    FilterPolicy.shouldSkipSuffix activeSkipDirs
  rw [spelledSkipDirs.2, spelledSuffixes.2, spelledFilenames.2, spelledTopOnly.2]
  decide +kernel

end CodeScope.Filter
