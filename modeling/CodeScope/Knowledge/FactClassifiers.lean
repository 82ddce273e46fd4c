import CodeScope.Knowledge.EnhanceProject
import CodeScope.Library.SqlText
import CodeScope.Util.JsonWriter

/-! # What the phases of the extraction look for

Every phase selects rows with patterns of `LIKE` and classifies their names; a few names that are
selected are not classified. All facts have the same confidence. -/

namespace CodeScope.Enhance

open Text SqlText JsonText Util Store

/-- The columns of a fact that a phase decides. -/
structure FactBody where
  primitive : Str
  kind : Str
  symbol : Str
  confidence : ℚ
  detailJson : Bytes

def confidenceDefault : ℚ := 1

def buildDetailJson (line : ℕ) (snippet relatedSymbol : Str) : Bytes :=
  Util.lit "\x7b\"line\":" ++ integerText line ++
    Util.lit ",\"snippet\":\"" ++ jsonEscapeString (textBytes snippet) ++
    Util.lit "\",\"related_symbol\":\"" ++ jsonEscapeString (textBytes relatedSymbol) ++
    Util.lit "\"\x7d"

/-- The body of a fact about a record; the snippet has its name and its file. -/
def recordFact (row : RecordRow) (classified : Str × Str) (relatedSymbol : Str) : FactBody where
  primitive := classified.1
  kind := classified.2
  symbol := row.record.name
  confidence := confidenceDefault
  detailJson := buildDetailJson row.record.startRow
    (row.record.name ++ str " (" ++ row.filePath ++ str ")") relatedSymbol

/-- `s LIKE '%part%'` -/
def likeAround (part : String) (s : Str) : Bool := like none (str "%" ++ str part ++ str "%") s

/-- `s LIKE '%part'` -/
def likeEnd (part : String) (s : Str) : Bool := like none (str "%" ++ str part) s

/-! ## Synchronisation -/

def classifySyncCall (name : Str) : Option (Str × Str) :=
  let endsWith (suffix : String) : Bool := (str suffix).isSuffixOf name
  if name = str "defer" then some (str "defer", str "defer")
  else if endsWith ".RLock" || endsWith ".WLock" then some (str "rwmutex", str "lock")
  else if endsWith ".RUnlock" || endsWith ".WUnlock" then some (str "rwmutex", str "defer_unlock")
  else if endsWith ".Lock" then some (str "mutex", str "lock")
  else if endsWith ".Unlock" then some (str "mutex", str "defer_unlock")
  else if endsWith ".Load" then some (str "atomic", str "load")
  else if endsWith ".Add" then some (str "waitgroup", str "add")
  else none

/-- The `WHERE` of `extractSyncFacts`. -/
def selectsSync (r : Record) : Bool :=
  r.kind = .callExpr &&
    ([".Lock", ".Unlock", ".RLock", ".WLock", ".RUnlock", ".WUnlock"].any (likeEnd · r.name) ||
      (likeEnd ".Load" r.name && likeAround "atomic" r.qualifiedName) ||
      (likeEnd ".Add" r.name && likeAround "WaitGroup" r.qualifiedName) ||
      (r.language = str "go" && r.name = str "defer"))

def syncFact (row : RecordRow) : Option FactBody :=
  if selectsSync row.record then
    (classifySyncCall row.record.name).map fun c => recordFact row c row.record.qualifiedName
  else none

/-! ## Memory -/

def classifyMemoryCall (name : Str) : Option (Str × Str) :=
  if name = str "C.CString" || name = str "C.CBytes" then some (str "cstring", str "alloc")
  else if name = str "C.free" then some (str "cstring", str "free")
  else if name = str "malloc" || name = str "calloc" || name = str "realloc" then
    some (str "malloc", str "alloc")
  else if name = str "free" then some (str "malloc", str "free")
  else none

/-- Every name that the query lists is classified. -/
def memoryFact (row : RecordRow) : Option FactBody :=
  if row.record.kind = .callExpr then
    (classifyMemoryCall row.record.name).map fun c => recordFact row c []
  else none

/-! ## Errors -/

def errorFact (row : RecordRow) : Option FactBody :=
  let r := row.record
  if r.qualifiedName ≠ [] then none
  else if r.language = str "python" && r.name = str "except" then
    some (recordFact row (str "bare_except", str "suppression") r.language)
  else if (r.language = str "javascript" || r.language = str "typescript") &&
      r.name = str "catch" then
    some (recordFact row (str "empty_catch", str "suppression") r.language)
  else none

/-! ## Patterns -/

def upper (s : Str) : Str := s.map Char.toUpper

/-- The `WHERE` of `extractPatternFacts`. -/
def selectsPattern (r : Record) : Bool :=
  (r.kind = .comment && (likeAround "TODO" (upper r.name) || likeAround "FIXME" (upper r.name))) ||
    (r.kind = .callExpr && r.language = str "rust" &&
      (likeEnd ".unwrap" r.name || r.name = str "panic!" || r.name = str "unsafe")) ||
    (r.kind = .callExpr && r.language = str "go" && r.name = str "panic")

def classifyPattern (r : Record) : Option (Str × Str) :=
  if r.kind = .comment then
    if Text.contains (str "TODO") (upper r.name) then some (str "todo", str "marker")
    else if Text.contains (str "FIXME") (upper r.name) then some (str "fixme", str "marker")
    else none
  else if r.kind = .callExpr then
    if r.language = str "rust" && 7 ≤ r.name.length && (str "unwrap").isSuffixOf r.name then
      some (str "unwrap", str "risk")
    else if r.language = str "rust" && r.name = str "panic!" then some (str "panic", str "risk")
    else if r.language = str "rust" && r.name = str "unsafe" then some (str "unsafe", str "risk")
    else if r.language = str "go" && r.name = str "panic" then some (str "panic", str "risk")
    else none
  else none

def patternFact (row : RecordRow) : Option FactBody :=
  if selectsPattern row.record then
    (classifyPattern row.record).map fun c => recordFact row c row.record.language
  else none

/-! ## Frameworks -/

/-- The `WHERE` of `extractFrameworkFacts`. -/
def selectsFramework (targetPath : Str) : Bool :=
  ["gin-gonic/gin", "labstack/echo", "/django", "/express", "gorm.io/gorm", "/gorm"].any
    (likeAround · targetPath)

def classifyFramework (targetPath : Str) : Option (Str × Str) :=
  let has (part : String) : Bool := Text.contains (str part) targetPath
  if has "gin-gonic/gin" then some (str "gin", str "router")
  else if has "labstack/echo" then some (str "echo", str "router")
  else if has "django" then some (str "django", str "router")
  else if has "express" then some (str "express", str "router")
  else if has "gorm" then some (str "gorm", str "orm")
  else none

def frameworkFact (imp : ImportLine) : Option FactBody :=
  if selectsFramework imp.targetPath then
    (classifyFramework imp.targetPath).map fun c => {
      primitive := c.1
      kind := c.2
      symbol := imp.targetPath
      confidence := confidenceDefault
      detailJson := buildDetailJson 0
        (str "import " ++ imp.targetPath ++ str " (" ++ imp.filePath ++ str ")") imp.targetPath }
  else none

/-! ## Foreign functions -/

/-- A file with a record of this language and kind whose name passes. -/
def fileHas (project : ℕ) (records : List RecordRow) (language : String) (kind : RecordKind)
    (name : Str → Bool) (filePath : Str) : Bool :=
  records.any fun row => row.project = project && row.filePath = filePath &&
    row.record.language = str language && row.record.kind = kind && name row.record.name

/-- The `WHERE` of the first query of `extractFfiFacts`. -/
def selectsFfi (records : List RecordRow) (row : RecordRow) : Bool :=
  let r := row.record
  likeAround "extern \"C\"" r.qualifiedName ||
    like none (str "JNIEXPORT_%") r.name || likeAround "JNIEXPORT_" r.qualifiedName ||
    (r.language = str "rust" && likeAround "wasm_bindgen" r.name) ||
    (r.kind = .callExpr && r.language = str "go" &&
      fileHas row.project records "go" .import (· = str "import \"C\"") row.filePath) ||
    (r.language = str "java" && r.kind = .method &&
      fileHas row.project records "java" .class (likeAround "Native" ·) row.filePath)

def classifyFfi (r : Record) : Option (Str × Str) :=
  if Text.contains (str "extern \"C\"") r.qualifiedName then
    some (str "extern_call", str "call")
  else if (str "JNIEXPORT_").isPrefixOf r.name ||
      Text.contains (str "JNIEXPORT_") r.qualifiedName then
    some (str "jni", str "export")
  else if r.language = str "rust" && Text.contains (str "wasm_bindgen") r.name then
    some (str "wasm", str "export")
  else if r.language = str "go" && 3 ≤ r.name.length && (str "C.").isPrefixOf r.name then
    some (str "cgo_call", str "call")
  else if r.language = str "java" then some (str "jni", str "export")
  else none

def ffiFact (records : List RecordRow) (row : RecordRow) : Option FactBody :=
  if selectsFfi records row then
    (classifyFfi row.record).map fun c => recordFact row c row.record.qualifiedName
  else none

/-- The second query of `extractFfiFacts`; every language that it selects is classified. -/
def crossLanguageFact (e : EntityRow) : Option FactBody :=
  if e.language ∈ [str "rust", str "c", str "cpp", str "zig"] then
    some {
      primitive := str "extern_call"
      kind := str "call"
      symbol := e.name
      confidence := confidenceDefault
      detailJson := buildDetailJson e.startRow
        (e.name ++ str " (" ++ e.filePath ++ str ") [cross-lang]") e.qualifiedName }
  else none

/-! ## All phases -/

/-- The classification of the source. -/
def sourceClassifiers : Classifiers FactBody where
  record p records row :=
    match p with
    | .sync => syncFact row
    | .memory => memoryFact row
    | .error => errorFact row
    | .pattern => patternFact row
    | .framework => none
    | .ffi => ffiFact records row
  framework := frameworkFact
  crossLanguage := crossLanguageFact

end CodeScope.Enhance
