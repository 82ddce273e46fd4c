import CodeScope.Filter.FilterPolicy

/-! # Directory rules and file names

`shouldSkipPath` runs the directory tables over every component of a path, and the last component of
a file's path is the file's own name. So a file is skipped for a name that is meant for a directory,
next to a file of the same kind that is kept. -/

namespace CodeScope.Filter

open Text (Str str)

/-- A path in a directory; the root itself is the empty directory. -/
def inDir (d name : Str) : Str := if d = [] then name else d ++ '/' :: name

/-- The components of a directory. -/
def dirComponents (d : Str) : List Str := if d = [] then [] else Text.segments '/' d

namespace FilterPolicy

variable (policy : FilterPolicy)

/-- A rule of an ignore file matches the file. -/
def ignoreRuleMatches (path : Str) : Bool :=
  gitignoreMatches policy.gitignoreRules (policy.rulePath path) false ||
    policy.ignorePatterns.any (ignorePatternMatches (policy.rulePath path))

/-- The directory tables catch a directory of the path. -/
def skipsDirOf (d : Str) : Bool :=
  (dirComponents d).any policy.shouldSkipDir || ((dirComponents d).take 3).any policy.isTopOnlyDir

/-- The directory tables catch the name, as if it were a directory there. -/
def skipsAsDir (d name : Str) : Bool :=
  policy.shouldSkipDir name || (dirComponents d).length < 3 && policy.isTopOnlyDir name

/-- A file of the directory that no ignore rule matches. -/
structure FileIn (d : Str) where
  name : Str
  named : name ≠ []
  noSlash : '/' ∉ name
  unruled : policy.ignoreRuleMatches (inDir d name) = false

end FilterPolicy

theorem segments_single {name : Str} (hslash : '/' ∉ name) : Text.segments '/' name = [name] := by
  have hback : Text.segments '/' (['/'].intercalate [name]) = [name] :=
    Text.segments_intercalate (List.cons_ne_nil name []) (by simpa)
  rwa [List.intercalate_singleton] at hback

theorem components_inDir (d : Str) {name : Str} (hne : name ≠ []) (hslash : '/' ∉ name) :
    components (inDir d name) = dirComponents d ++ [name] := by
  have hlast (front : List Str) : (front ++ [name]).getLast? ≠ some [] := by
    rw [List.getLast?_append, List.getLast?_singleton]
    simpa using hne
  rw [components, inDir, dirComponents]
  by_cases hd : d = []
  · rw [if_pos hd, if_pos hd, segments_single hslash]
    exact if_neg (hlast [])
  · rw [if_neg hd, if_neg hd, Text.segments_append_sep, segments_single hslash, if_neg (hlast _)]

namespace FilterPolicy

variable {policy : FilterPolicy}

/-- What decides whether a file is skipped: its directories, its name read as a directory's, and
    the ignore rules. -/
theorem shouldSkipPath_inDir (d : Str) {name : Str} (hne : name ≠ []) (hslash : '/' ∉ name) :
    policy.shouldSkipPath (inDir d name) false = true ↔
      policy.skipsDirOf d = true ∨ policy.skipsAsDir d name = true ∨
        policy.ignoreRuleMatches (inDir d name) = true := by
  have hpath : inDir d name ≠ [] := by
    rw [inDir]
    split_ifs
    · exact hne
    · simp
  have htop : (((dirComponents d) ++ [name]).take 3).any policy.isTopOnlyDir =
      (((dirComponents d).take 3).any policy.isTopOnlyDir ||
        ((dirComponents d).length < 3 && policy.isTopOnlyDir name)) := by
    rw [List.take_append, List.any_append]
    by_cases hdepth : (dirComponents d).length < 3
    · obtain ⟨k, hk⟩ : ∃ k, 3 - (dirComponents d).length = k + 1 :=
        ⟨2 - (dirComponents d).length, by omega⟩
      rw [hk, List.take_succ_cons]
      simp [hdepth]
    · have hzero : 3 - (dirComponents d).length = 0 := by omega
      rw [hzero, List.take_zero]
      simp [hdepth]
  rw [shouldSkipPath, if_neg hpath, components_inDir d hne hslash, htop, List.any_append,
    skipsDirOf, skipsAsDir, ignoreRuleMatches]
  simp only [List.any_cons, List.any_nil, Bool.or_false, Bool.or_eq_true, or_assoc, or_comm,
    or_left_comm]

/-- **Two files of a directory get the same answer exactly when a directory on their path is skipped
    anyway, or the directory tables catch both of their names or neither.** -/
theorem shouldSkipPath_siblings_iff (policy : FilterPolicy) (d : Str) (x y : policy.FileIn d) :
    policy.shouldSkipPath (inDir d x.name) false = policy.shouldSkipPath (inDir d y.name) false ↔
      policy.skipsDirOf d = true ∨
        policy.skipsAsDir d x.name = policy.skipsAsDir d y.name := by
  have hanswer (f : policy.FileIn d) : policy.shouldSkipPath (inDir d f.name) false =
      (policy.skipsDirOf d || policy.skipsAsDir d f.name) := by
    rw [Bool.eq_iff_iff, shouldSkipPath_inDir d f.named f.noSlash, f.unruled, Bool.or_eq_true]
    simp
  rw [hanswer x, hanswer y]
  cases policy.skipsDirOf d with
  | true => simp
  | false => simp

/-- A policy without rules of its own. -/
def plain : FilterPolicy where
  mode := .normal
  langFilter := none
  langContext := []
  ignorePatterns := []
  scanPrefix := []
  gitignoreRules := []
  excludePatterns := []

/-- A source file named like a build directory is skipped, its neighbour is not; no suffix or
    exclude rule is about either. -/
theorem skips_build_source :
    plain.shouldSkipPath (inDir (str "src") (str "build_graph.cpp")) false ≠
        plain.shouldSkipPath (inDir (str "src") (str "graph.cpp")) false ∧
      [str "build_graph.cpp", str "graph.cpp"].all (fun name =>
        !plain.ignoreRuleMatches (inDir (str "src") name) &&
          !plain.excludes (inDir (str "src") name) &&
          !plain.shouldSkipFileEntry (fun _ => none) (inDir (str "src") name)) = true := by
  delta shouldSkipPath shouldSkipFileEntry shouldSkipDir isTopOnlyDir shouldSkipFile
    shouldSkipSuffix activeSkipDirs
  rw [spelledSkipDirs.2, spelledSuffixes.2, spelledFilenames.2, spelledTopOnly.2]
  decide +kernel

end FilterPolicy

end CodeScope.Filter
