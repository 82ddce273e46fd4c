import CodeScope.Filter.SkipTables
import CodeScope.Filter.DetectLanguage
import CodeScope.Filter.GlobMatch

/-! # The filter policy

The checks of `FilterPolicy` on one entry of the walk: directory names, top-only names, the rules of
`.gitignore`, the patterns of `.codescopeignore`, file names, suffixes, the strict gate and the
exclude patterns. Only the rules of the ignore files see the path with the scan prefix in front. -/

namespace CodeScope.Filter

open Text (Str str lower)

structure GitignoreRule where
  pattern : Str
  negate : Bool
  dirOnly : Bool
  anchored : Bool
  hasStar : Bool

structure FilterPolicy where
  mode : Mode
  langFilter : Option (List Str)
  langContext : Str
  ignorePatterns : List Str
  scanPrefix : Str
  gitignoreRules : List GitignoreRule
  excludePatterns : List Str

/-! ## Paths -/

/-- The components `std::getline` reads off a path: no empty one is reported at its end. -/
def components (path : Str) : List Str :=
  let segs := Text.segments '/' path
  if segs.getLast? = some [] then segs.dropLast else segs

/-- The paths of the directories above an entry: the text before each `/`. -/
def ancestors : Str → List Str
  | [] => []
  | c :: rest => (if c = '/' then [[]] else []) ++ (ancestors rest).map (c :: ·)

/-- Windows separators become `/`. -/
def normalize (path : Str) : Str := path.map fun c => if c = '\\' then '/' else c

/-- The directories above an entry are what stands before its separators. -/
theorem mem_ancestors {path d : Str} : d ∈ ancestors path ↔ ∃ rest, path = d ++ '/' :: rest := by
  induction path generalizing d with
  | nil => simp [ancestors]
  | cons c path ih =>
      rw [ancestors, List.mem_append]
      constructor
      · rintro (hhere | hbelow)
        · split_ifs at hhere with hc
          · rw [List.mem_singleton.mp hhere, hc]
            exact ⟨path, rfl⟩
          · exact absurd hhere List.not_mem_nil
        · obtain ⟨d', hd', rfl⟩ := List.mem_map.mp hbelow
          obtain ⟨rest, rfl⟩ := ih.mp hd'
          exact ⟨rest, rfl⟩
      · rintro ⟨rest, hsplit⟩
        cases d with
        | nil => exact Or.inl (by rw [(List.cons.inj hsplit).1]; simp)
        | cons c' d =>
            obtain ⟨rfl, htail⟩ := List.cons.inj hsplit
            exact Or.inr (List.mem_map.mpr ⟨d, ih.mpr ⟨rest, htail⟩, rfl⟩)

theorem normalize_of_not_mem {path : Str} (h : '\\' ∉ path) : normalize path = path := by
  rw [normalize]
  refine (List.map_congr_left fun c hc => ?_).trans (List.map_id _)
  have hne : c ≠ '\\' := by
    rintro rfl
    exact h hc
  rw [if_neg hne]
  rfl

/-! ## `.gitignore` -/

/-- The pattern occurs in the candidate between component boundaries. -/
def occursAtBoundary (pattern candidate : Str) : Bool :=
  (List.range (candidate.length + 1)).any fun pos =>
    let after := pos + pattern.length
    pattern.isPrefixOf (candidate.drop pos) &&
      (pos = 0 || candidate[pos - 1]? = some '/') &&
      (after = candidate.length || candidate[after]? = some '/')

def GitignoreRule.matchesOne (r : GitignoreRule) (candidate : Str) : Bool :=
  if r.hasStar then
    -- without a `/` the pattern is matched against the last component only
    if !r.anchored && '/' ∉ r.pattern then globMatch r.pattern (Text.afterLast '/' candidate)
    else globMatch r.pattern candidate
  else if r.anchored then candidate = r.pattern
  else occursAtBoundary r.pattern candidate

/-- A directory-only rule reaches a file through the directories above it. -/
def GitignoreRule.applies (r : GitignoreRule) (relPath : Str) (isDir : Bool) : Bool :=
  if r.dirOnly && !isDir then (ancestors relPath).any r.matchesOne
  else r.matchesOne relPath || (r.dirOnly && (ancestors relPath).any r.matchesOne)

/-- The rules in order; the first positive match ends the search. -/
def gitignoreLoop (relPath : Str) (isDir : Bool) : Bool → List GitignoreRule → Bool
  | ignored, [] => ignored
  | ignored, r :: rules =>
    if r.applies relPath isDir then
      if r.negate then gitignoreLoop relPath isDir false rules else true
    else gitignoreLoop relPath isDir ignored rules

def gitignoreMatches (rules : List GitignoreRule) (relPath : Str) (isDir : Bool) : Bool :=
  gitignoreLoop relPath isDir false rules

/-! ## `.codescopeignore` -/

def ignorePatternMatches (rulePath pat : Str) : Bool :=
  let dirOnly := pat.getLast? = some '/'
  if dirOnly && pat.length ≤ 1 then false
  else
    let normalized := if dirOnly then pat.dropLast else pat
    if pat.head? = some '/' then
      rulePath = normalized.drop 1 || (normalized.drop 1 ++ ['/']).isPrefixOf rulePath
    else normalized ∈ components rulePath

namespace FilterPolicy

variable (policy : FilterPolicy)

/-! ## Names -/

def shouldSkipDirPrefix (dirName : Str) : Bool :=
  skipDirPrefixes.any fun pfx => pfx.isPrefixOf dirName

/-- The names of a Java project's packages are left to the top-only check. -/
def shouldSkipDir (dirName : Str) : Bool :=
  let name := lower dirName
  if name ∈ activeSkipDirs policy.mode then
    !(policy.langContext = str "java" && name ∈ javaProtectedSkipDirs)
  else shouldSkipDirPrefix name

/-- The check on one of the first three components. -/
def isTopOnlyDir (comp : Str) : Bool :=
  let name := lower comp
  name ≠ [] && (name ∈ topOnlySkipDirs ||
    (policy.langContext = str "java" && name ∈ javaProtectedSkipDirs))

def shouldSkipDirSuffix (dirName : Str) : Bool :=
  skipDirSuffixes.any fun sfx =>
    dirName.length ≥ sfx.length && lower (dirName.drop (dirName.length - sfx.length)) = sfx

def shouldSkipFile (filename : Str) : Bool :=
  let name := lower filename
  name ∈ skipFilenames ||
    (policy.mode = .fast && (name ∈ fastExtraFilenames ||
      fastExtraFilenamePrefixes.any fun pfx => pfx.isPrefixOf name)) ||
    skipFilenamePrefixes.any (fun pfx => pfx.isPrefixOf name) ||
    name.getLast? = some '~'

def shouldSkipSuffix (ext : Str) : Bool :=
  let name := lower ext
  name ∈ skipSuffixes || (policy.mode = .fast && name ∈ fastExtraSuffixes)

/-! ## Entries -/

/-- The path as the root of the ignore files sees it. -/
def rulePath (relPath : Str) : Str := policy.scanPrefix ++ relPath

def shouldSkipPath (relPath : Str) (isDir : Bool) : Bool :=
  if relPath = [] then false
  else
    (components relPath).any policy.shouldSkipDir ||
      ((components relPath).take 3).any policy.isTopOnlyDir ||
      gitignoreMatches policy.gitignoreRules (policy.rulePath relPath) isDir ||
      policy.ignorePatterns.any (ignorePatternMatches (policy.rulePath relPath))

/-- The checks on a file's own name. -/
def shouldSkipFileEntry (firstLine : Str → Option Str) (normalized : Str) : Bool :=
  let base := Text.afterLast '/' normalized
  policy.shouldSkipFile base ||
    (match Text.splitLast '.' base with
      | some (_, ext) => policy.shouldSkipSuffix ('.' :: ext)
      | none => false) ||
    (policy.mode = .strict && (detectLanguage firstLine normalized).isNone)

/-- Some exclude pattern matches the path. -/
def excludes (normalized : Str) : Bool := policy.excludePatterns.any (globMatch · normalized)

def shouldSkipEntry (firstLine : Str → Option Str) (relPath : Str) (isDir : Bool) : Bool :=
  if relPath = [] then false
  else
    let normalized := normalize relPath
    policy.shouldSkipPath normalized isDir ||
      (if isDir then shouldSkipDirSuffix (Text.afterLast '/' normalized)
        else policy.shouldSkipFileEntry firstLine normalized) ||
      policy.excludes normalized

end FilterPolicy

end CodeScope.Filter
