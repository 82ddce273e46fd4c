import CodeScope.Library.Text

/-! # Language detection

`detectLanguage` of the filter policy: by extension, or by the interpreter line of a file whose path
has no `.`. The first line of the file at a path is a parameter, `none` when the file cannot be
opened. -/

namespace CodeScope.Filter

open Text (Str str lower)

/-! ## The interpreter line -/

/-- The interpreter a `#!` line names: what follows its last `/`, up to a blank, in lower case. -/
def interpreter (firstLine : Str) : Str :=
  let interp :=
    match Text.splitLast '/' firstLine with
    | some (_, after) => after
    | none => firstLine.drop 2
  lower (interp.takeWhile fun c => c ∉ [' ', '\t', '\r', '\n'])

def interpreterLanguage (interp : Str) : Option Str :=
  if (str "python").isPrefixOf interp then some (str "python")
  else if interp ∈ [str "node", str "nodejs", str "deno"] then some (str "javascript")
  else if interp ∈ [str "bash", str "sh", str "zsh", str "ksh", str "fish"] then some (str "bash")
  else if interp ∈ [str "ruby", str "rb"] then some (str "ruby")
  else if interp ∈ [str "perl", str "perl5"] then some (str "perl")
  else if interp = str "php" then some (str "php")
  else if interp = str "lua" then some (str "lua")
  else if interp ∈ [str "rscript", str "r"] then some (str "r")
  else if interp ∈ [str "awk", str "gawk", str "mawk"] then some (str "awk")
  else none

def shebangLanguage (firstLine : Str) : Option Str :=
  if (str "#!").isPrefixOf firstLine then interpreterLanguage (interpreter firstLine) else none

/-! ## The extension -/

/-- What follows the last `/` or `\` of a path. -/
def fileName (filePath : Str) : Str := Text.afterLast '\\' (Text.afterLast '/' filePath)

/-- Minified, bundled and vendored JavaScript. -/
def isGeneratedScript (fname : Str) : Bool :=
  (fname.length > 7 && lower (fname.drop (fname.length - 7)) = str ".min.js") ||
    (fname.length > 10 && Text.contains (str ".bundle.js") fname) || fname = str "vendor.js"

def extensionLanguage (lext : Str) : Option Str :=
  if lext = str ".py" then some (str "python")
  else if lext ∈ [str ".cpp", str ".cc", str ".cxx"] then some (str "cpp")
  else if lext = str ".c" then some (str "c")
  else if lext ∈ [str ".h", str ".hpp", str ".hxx", str ".hh"] then some (str "cpp")
  else if lext = str ".rs" then some (str "rust")
  else if lext = str ".swift" then some (str "swift")
  else if lext ∈ [str ".js", str ".mjs", str ".cjs"] then some (str "javascript")
  else if lext = str ".ts" then some (str "typescript")
  else if lext = str ".tsx" then some (str "tsx")
  else if lext = str ".go" then some (str "go")
  else if lext = str ".java" then some (str "java")
  else if lext ∈ [str ".kt", str ".kts"] then some (str "kotlin")
  else if lext = str ".rb" then some (str "ruby")
  else if lext = str ".scala" then some (str "scala")
  else none

def detectLanguage (firstLine : Str → Option Str) (filePath : Str) : Option Str :=
  if filePath = [] then none
  else
    match Text.splitLast '.' filePath with
    | none => (firstLine filePath).bind shebangLanguage
    | some (_, ext) =>
      if isGeneratedScript (fileName filePath) then none
      else extensionLanguage (lower ('.' :: ext))

/-! ## The language filter -/

/-- `isspace` of the C locale. -/
def isSpace (c : Char) : Bool :=
  c ∈ [' ', '\t', '\n', Char.ofNat 11, Char.ofNat 12, '\r']

/-- Fold the labels of one language onto one member. -/
def canonicalLang (s : Str) : Str :=
  let s := lower (Text.trim isSpace s)
  if s ∈ [str "c", str "c++", str "cpp"] then str "cpp"
  else if s ∈ [str "js", str "node", str "javascript"] then str "javascript"
  else if s ∈ [str "ts", str "typescript"] then str "typescript"
  else if s ∈ [str "py", str "python"] then str "python"
  else if s ∈ [str "golang", str "go"] then str "go"
  else if s ∈ [str "kt", str "kts", str "kotlin"] then str "kotlin"
  else if s ∈ [str "rb", str "ruby"] then str "ruby"
  else if s ∈ [str "rs", str "rust"] then str "rust"
  else s

/-- `setLanguageFilter`: the accepted languages of a comma-separated list, `none` when it is empty
    and every language is accepted. -/
def setLanguageFilter (filter : Str) : Option (List Str) :=
  if filter = [] then none
  else some (((Text.segments ',' filter).map canonicalLang).filter (· ≠ []))

def isLanguageAccepted (langFilter : Option (List Str)) (lang : Str) : Bool :=
  match langFilter with
  | none => true
  | some accepted => canonicalLang lang ∈ accepted

end CodeScope.Filter
