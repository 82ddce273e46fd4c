import CodeScope.Library.PathText
import CodeScope.Filter.FilterPolicy

/-! # The policy of one module

A module's worker asks the policy about paths below the module, the whole-project run about the same
paths below the project. The scan prefix gives the ignore rules the project's view back; the checks
on names look at components, so the module's own components drop out of them. They do not drop out
of the top-only check, which counts from the root of the scan: a component that is near the module's
root but deep in the project is checked by the module's worker only. -/

namespace CodeScope.Filter

open Text (Str str lower)
open PathText (PlainPath)

/-- The policy of the whole-project run. -/
def FilterPolicy.forProject (policy : FilterPolicy) : FilterPolicy :=
  { policy with scanPrefix := [] }

/-- The policy of the worker of module `m`. -/
def FilterPolicy.forModule (policy : FilterPolicy) (m : PlainPath) : FilterPolicy :=
  { policy with scanPrefix := m.path ++ ['/'] }

/-- The path below the project of a path below the module. -/
def below (m : PlainPath) (path : Str) : Str := m.path ++ '/' :: path

/-- The components of a path below `m` that are among its first three but, below the project, not
    any more. -/
def shiftedTop (m : PlainPath) (path : Str) : List Str :=
  ((components path).take 3).drop (3 - (components m.path).length)

/-! ## Components below a module -/

theorem components_of_plain (m : PlainPath) : components m.path = Text.segments '/' m.path := by
  rw [components]
  split_ifs with hlast
  · have hmem : [] ∈ Text.segments '/' m.path := List.mem_of_getLast? hlast
    exact absurd (m.plain [] hmem) (by decide)
  · rfl

theorem components_below (m : PlainPath) (path : Str) :
    components (below m path) = components m.path ++ components path := by
  have hsegs : Text.segments '/' (below m path) =
      Text.segments '/' m.path ++ Text.segments '/' path := Text.segments_append_sep '/' _ _
  have hne := Text.segments_ne_nil '/' path
  have hlast : (Text.segments '/' (below m path)).getLast? =
      (Text.segments '/' path).getLast? := by
    rw [hsegs, List.getLast?_append_of_ne_nil _ hne]
  rw [components_of_plain, components, components, hlast, hsegs]
  split_ifs
  · rw [List.dropLast_append_of_ne_nil hne]
  · rfl

theorem normalize_below (m : PlainPath) (path : Str) (hm : '\\' ∉ m.path) :
    normalize (below m path) = below m (normalize path) := by
  rw [normalize, below, List.map_append, List.map_cons, ← normalize, normalize_of_not_mem hm]
  rfl

/-! ## Paths -/

variable {path : Str}

/-- The module's policy checks the names of its own paths and gives the ignore rules the project's
    path. -/
theorem forModule_shouldSkipPath (policy : FilterPolicy) (m : PlainPath) (isDir : Bool)
    (hpath : path ≠ []) :
    (policy.forModule m).shouldSkipPath path isDir =
      ((components path).any policy.shouldSkipDir ||
        ((components path).take 3).any policy.isTopOnlyDir ||
        gitignoreMatches policy.gitignoreRules (below m path) isDir ||
        policy.ignorePatterns.any (ignorePatternMatches (below m path))) := by
  have hrule : (policy.forModule m).rulePath path = below m path := by
    rw [FilterPolicy.rulePath, FilterPolicy.forModule, below, List.append_assoc]
    rfl
  rw [FilterPolicy.shouldSkipPath, if_neg hpath, hrule]
  rfl

theorem forProject_shouldSkipPath (policy : FilterPolicy) (isDir : Bool) (hpath : path ≠ []) :
    policy.forProject.shouldSkipPath path isDir =
      ((components path).any policy.shouldSkipDir ||
        ((components path).take 3).any policy.isTopOnlyDir ||
        gitignoreMatches policy.gitignoreRules path isDir ||
        policy.ignorePatterns.any (ignorePatternMatches path)) := by
  rw [FilterPolicy.shouldSkipPath, if_neg hpath]
  rfl

/-- Below a module the project keeps, the module's policy skips what the whole-project policy skips
    and what the top-only check still sees from the module's root. -/
theorem shouldSkipPath_below (policy : FilterPolicy) (m : PlainPath) (isDir : Bool)
    (hpath : path ≠ []) (hkept : policy.forProject.shouldSkipPath m.path true = false) :
    (policy.forModule m).shouldSkipPath path isDir =
      (policy.forProject.shouldSkipPath (below m path) isDir ||
        (shiftedTop m path).any policy.isTopOnlyDir) := by
  have hbelow : below m path ≠ [] := by simp [below]
  rw [forProject_shouldSkipPath policy true m.plain.ne_nil] at hkept
  simp only [Bool.or_eq_false_iff] at hkept
  obtain ⟨⟨⟨hdirs, htop⟩, _⟩, _⟩ := hkept
  -- the components of the module itself pass both checks
  have hdirs_below : (components (below m path)).any policy.shouldSkipDir =
      (components path).any policy.shouldSkipDir := by
    rw [components_below, List.any_append, hdirs, Bool.false_or]
  have htop_below : ((components (below m path)).take 3).any policy.isTopOnlyDir =
      ((components path).take (3 - (components m.path).length)).any policy.isTopOnlyDir := by
    rw [components_below, List.take_append, List.any_append, htop, Bool.false_or]
  have htop_split : ((components path).take 3).any policy.isTopOnlyDir =
      (((components path).take (3 - (components m.path).length)).any policy.isTopOnlyDir ||
        (shiftedTop m path).any policy.isTopOnlyDir) := by
    rw [shiftedTop, ← List.any_append]
    congr 1
    have htake : (components path).take (3 - (components m.path).length) =
        ((components path).take 3).take (3 - (components m.path).length) := by
      rw [List.take_take, Nat.min_eq_left (by omega)]
    rw [htake, List.take_append_drop]
  rw [forModule_shouldSkipPath policy m isDir hpath,
    forProject_shouldSkipPath policy isDir hbelow, hdirs_below, htop_below, htop_split]
  simp only [Bool.or_assoc, Bool.or_comm, Bool.or_left_comm]

/-! ## Files -/

theorem detectLanguage_below (firstLine : Str → Option Str) (m : PlainPath) (hdot : '.' ∈ path) :
    detectLanguage firstLine (below m path) = detectLanguage firstLine path := by
  obtain ⟨⟨stem, ext⟩, hcut⟩ : ∃ cut, Text.splitLast '.' path = some cut := by
    rw [← Option.isSome_iff_exists, Option.isSome_iff_ne_none, ne_eq, Text.splitLast_none]
    exact not_not.mpr hdot
  have hpath : path ≠ [] := List.ne_nil_of_mem hdot
  have hname : fileName (below m path) = fileName path := by
    rw [fileName, fileName, below, Text.afterLast_append_sep]
  have hbelow : Text.splitLast '.' (below m path) = some (below m stem, ext) := by
    obtain ⟨hshape, hnot⟩ := Text.splitLast_some.mp hcut
    refine Text.splitLast_some.mpr ⟨?_, hnot⟩
    rw [below, below, hshape, List.append_assoc, List.cons_append]
  rw [detectLanguage, detectLanguage, if_neg (by simp [below]), if_neg hpath, hbelow, hcut, hname]

/-- A file's own name decides alike in both policies; only the interpreter line depends on where
    the path starts. -/
theorem shouldSkipFileEntry_below (policy : FilterPolicy) (firstLine : Str → Option Str)
    (m : PlainPath) (hstrict : policy.mode = .strict → '.' ∈ path) :
    (policy.forModule m).shouldSkipFileEntry firstLine path =
      policy.forProject.shouldSkipFileEntry firstLine (below m path) := by
  have hbase : Text.afterLast '/' (below m path) = Text.afterLast '/' path :=
    Text.afterLast_append_sep '/' m.path path
  have hlang : (decide (policy.mode = .strict) && (detectLanguage firstLine path).isNone) =
      (decide (policy.mode = .strict) && (detectLanguage firstLine (below m path)).isNone) := by
    by_cases hmode : policy.mode = .strict
    · rw [detectLanguage_below firstLine m (hstrict hmode)]
    · simp [hmode]
  unfold FilterPolicy.shouldSkipFileEntry
  rw [hbase]
  exact congrArg (or _) hlang

/-- **A module's worker skips exactly the files that the whole-project run skips below the module,
    and those with a top-only component that only the module's root is near enough to.** -/
theorem module_skips_iff (policy : FilterPolicy) (firstLine : Str → Option Str) (m p : PlainPath)
    (hslash : '\\' ∉ m.path)
    (hkept : policy.forProject.shouldSkipEntry firstLine m.path true = false)
    (hexcludes : policy.excludes (normalize p.path) = policy.excludes (normalize (below m p.path)))
    (hstrict : policy.mode = .strict → '.' ∈ p.path) :
    (policy.forModule m).shouldSkipEntry firstLine p.path false = true ↔
      policy.forProject.shouldSkipEntry firstLine (below m p.path) false = true ∨
        ∃ comp ∈ shiftedTop m (normalize p.path), policy.isTopOnlyDir comp = true := by
  have hpath : normalize p.path ≠ [] := fun h => p.plain.ne_nil (List.map_eq_nil_iff.mp h)
  have hbelow : below m p.path ≠ [] := by simp [below]
  have hdot : policy.mode = .strict → '.' ∈ normalize p.path := fun hmode =>
    List.mem_map.mpr ⟨'.', hstrict hmode, rfl⟩
  have hmodule : policy.forProject.shouldSkipPath m.path true = false := by
    unfold FilterPolicy.shouldSkipEntry at hkept
    rw [if_neg m.plain.ne_nil, normalize_of_not_mem hslash] at hkept
    simp only [Bool.or_eq_false_iff] at hkept
    exact hkept.1.1
  have hexcl : (policy.forModule m).excludes (normalize p.path) =
      policy.forProject.excludes (below m (normalize p.path)) := by
    rw [← normalize_below m p.path hslash]
    exact hexcludes
  rw [← List.any_eq_true]
  unfold FilterPolicy.shouldSkipEntry
  rw [if_neg p.plain.ne_nil, if_neg hbelow, normalize_below m p.path hslash]
  dsimp only
  rw [shouldSkipPath_below policy m false hpath hmodule,
    shouldSkipFileEntry_below policy firstLine m hdot, hexcl]
  simp only [Bool.or_eq_true, Bool.false_eq_true, if_false]
  tauto

/-- The worker of `app` skips `a/b/scripts/x.c` for its third component. -/
theorem module_skips_iff_scripts :
    let policy : FilterPolicy := ⟨.normal, none, [], [], [], [], []⟩
    let m : PlainPath := ⟨str "app", by decide⟩
    let p : PlainPath := ⟨str "a/b/scripts/x.c", by decide⟩
    (policy.forModule m).shouldSkipEntry (fun _ => none) p.path false = true := by
  intro policy m p
  have hkept : policy.forProject.shouldSkipEntry (fun _ => none) m.path true = false := by
    delta FilterPolicy.shouldSkipEntry FilterPolicy.shouldSkipPath FilterPolicy.shouldSkipFileEntry
      FilterPolicy.shouldSkipDir FilterPolicy.isTopOnlyDir FilterPolicy.shouldSkipFile
      FilterPolicy.shouldSkipSuffix activeSkipDirs
    rw [spelledSkipDirs.2, spelledSuffixes.2, spelledFilenames.2, spelledTopOnly.2]
    decide +kernel
  have htop : policy.isTopOnlyDir (str "scripts") = true := by decide +kernel
  exact (module_skips_iff policy (fun _ => none) m p (by decide) hkept rfl
    (fun hmode => absurd hmode (by decide))).mpr (Or.inr ⟨str "scripts", by decide, htop⟩)

/-- The whole-project run keeps the module `app` and the file `app/a/b/scripts/x.c`, whose fourth
    component is out of the top-only check's reach; the worker of `app` skips the file. -/
theorem module_skips_what_project_keeps :
    let policy : FilterPolicy := ⟨.normal, none, [], [], [], [], []⟩
    let m : PlainPath := ⟨str "app", by decide⟩
    let p : PlainPath := ⟨str "a/b/scripts/x.c", by decide⟩
    policy.forProject.shouldSkipEntry (fun _ => none) m.path true = false ∧
      policy.forProject.shouldSkipEntry (fun _ => none) (below m p.path) false = false ∧
      (policy.forModule m).shouldSkipEntry (fun _ => none) p.path false = true := by
  delta FilterPolicy.shouldSkipEntry FilterPolicy.shouldSkipPath FilterPolicy.shouldSkipFileEntry
    FilterPolicy.shouldSkipDir FilterPolicy.isTopOnlyDir FilterPolicy.shouldSkipFile
    FilterPolicy.shouldSkipSuffix activeSkipDirs
  rw [spelledSkipDirs.2, spelledSuffixes.2, spelledFilenames.2, spelledTopOnly.2]
  decide +kernel

end CodeScope.Filter
