import CodeScope.Filter.FilterPolicy

/-! # The walk

`collectFileJobs` walks a directory, prunes the directories the policy skips, takes the READMEs of
the top level out and makes a job of every other file the policy keeps and whose language is
accepted. The language context is the one found before the walk, and no file is known from an
earlier scan. -/

namespace CodeScope.Filter

open Text (Str str lower)

def readmeNames : List Str := [str "readme.md", str "readme.markdown", str "readme"]

def isReadmeName (name : Str) : Bool := lower name ∈ readmeNames

/-- The text before the last `/` or `\`. -/
def parentDir (path : Str) : Str :=
  ((path.reverse.dropWhile fun c => c ≠ '/' && c ≠ '\\').drop 1).reverse

namespace FilterPolicy

variable (policy : FilterPolicy) (firstLine : Str → Option Str)

/-- The walk reaches the entry: no directory above it is pruned. -/
def reaches (relPath : Str) : Bool :=
  (ancestors relPath).all fun d => !policy.shouldSkipEntry firstLine d true

/-- `collectFileJobs` makes a job of this file of `dir`. -/
def collects (dir relPath : Str) : Bool :=
  let path := dir ++ '/' :: relPath
  policy.reaches firstLine relPath &&
    !(isReadmeName (fileName path) && parentDir path = dir) &&
    !policy.shouldSkipEntry firstLine relPath false &&
    (match detectLanguage firstLine path with
      | some lang => isLanguageAccepted policy.langFilter lang
      | none => false)

end FilterPolicy

end CodeScope.Filter
