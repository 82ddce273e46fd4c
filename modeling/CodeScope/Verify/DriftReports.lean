import CodeScope.Verify.LanguageClaims
import CodeScope.Verify.Verifiers

/-! # Drift reports

The entry points that report drift, on a store where every statement that fits the schema succeeds.
A statement that names a column its table does not have cannot be prepared, and most callers take
that for an empty result. Reports are lists of drift items in the order of the rows. -/

namespace CodeScope.Verify

open Text SqlText TextSearch Store

/-! ## The store -/

/-- A `document` row. -/
structure DocumentRow where
  project : ℕ
  type : Int
  content : Str
deriving DecidableEq

/-- What the drift reports read. -/
structure DriftStore extends Facts where
  document : List DocumentRow

structure DriftItem where
  type : Str
  severity : ℕ
  subject : Str
  detail : Str
deriving DecidableEq

inductive Table where
  | capability
  | contract
  | document
  | entity
  | relation
deriving DecidableEq, Repr

/-- The columns of the tables, in the current schema. -/
def Table.columns : Table → List Str
  | .capability => [str "id", str "project_id", str "name", str "summary", str "source_kind",
      str "source_ref", str "created_at"]
  | .contract => [str "id", str "project_id", str "name", str "origin", str "claim_text",
      str "source_file", str "source_line"]
  | .document => [str "id", str "project_id", str "type", str "file_path", str "content",
      str "start_line", str "end_line", str "created_at"]
  | .entity => [str "id", str "project_id", str "kind", str "name", str "qualified_name",
      str "file_path", str "language", str "start_row", str "start_col", str "end_row",
      str "end_col", str "module_state", str "module_path", str "arity", str "cyclomatic",
      str "nesting_depth", str "cognitive", str "param_count", str "call_count",
      str "branch_count", str "loop_count", str "lines", str "is_stub", str "visibility"]
  | .relation => [str "id", str "project_id", str "source_id", str "target_id", str "type",
      str "confidence", str "resolver", str "resolution_kind", str "reason",
      str "call_site_file", str "call_site_row", str "call_site_col"]

/-- The columns a statement names. -/
abbrev Statement := List (Table × Str)

/-- Every column exists. -/
def fits (s : Statement) : Bool := s.all fun c => c.2 ∈ c.1.columns

/-- The rows a loop over a statement sees. -/
def select {α : Type} (s : Statement) (rows : List α) : List α := if fits s then rows else []

theorem select_of_fits {α : Type} {s : Statement} (h : fits s = true) (rows : List α) :
    select s rows = rows := if_pos h

/-! ## Capabilities -/

def DriftStore.capabilitiesOf (db : DriftStore) (project : ℕ) : List Declared :=
  db.capability.filter fun c => c.project = project

def DriftStore.contractsOf (db : DriftStore) (project : ℕ) : List Declared :=
  db.contract.filter fun c => c.project = project

variable (db : DriftStore) (project : ℕ)

def capabilityStatement : Statement :=
  [(.capability, str "id"), (.capability, str "name"), (.capability, str "summary"),
    (.capability, str "project_id")]

/-- The subquery of the MissingCapability statement: an entity of exactly that name is the target
    of some relation, whatever its type and project. -/
def hasNamesake (name : Str) : Bool :=
  (db.entitiesOf project).any fun e =>
    decide (e.name = name) && db.relation.any fun r => r.targetId = e.id

def kDriftSeverityHard : ℕ := 2

/-- The MissingCapability part of `engine_detect_drift`. -/
def missingCapabilities : List DriftItem :=
  let statement := capabilityStatement ++
    [(.entity, str "id"), (.entity, str "project_id"), (.entity, str "name"),
      (.relation, str "id"), (.relation, str "target_id")]
  (select statement ((db.capabilitiesOf project).filter fun c =>
      !hasNamesake db project c.name)).map fun c =>
    { type := str "MissingCapability"
      severity := kDriftSeverityHard
      subject := c.name
      detail := str "Capability '" ++ c.name ++
        str "' declared in README but no implementing entity with callers" }

/-- `countImplementingEntities`; no query fails here. -/
def countImplementingEntities (name : Str) : ℕ :=
  if name = [] then 0
  else (((implementingEntitiesFor db.toFacts project name id none).getD [])).length

def kDriftSeverityCapability : ℕ := 2

def detectCapabilityDrift : List DriftItem :=
  if evidenceBackendReady unfailing db.toFacts project then
    ((select capabilityStatement (db.capabilitiesOf project)).filter fun c =>
        countImplementingEntities db project c.name = 0).map fun c =>
      { type := str "CapabilityDrift"
        severity := kDriftSeverityCapability
        subject := c.name
        detail := str "Capability '" ++ c.name ++ str ("' declared in README but no " ++
          "implementing implementing entity (called or exported) found in codebase") }
  else []

/-! ## Contracts -/

/-- `std::string::find` of any of the words. -/
def mentionsAny (name : Str) (words : List Str) : Bool := words.any fun w => contains w name

/-- The keywords that the name of a contract is mapped to. -/
def contractKeywords (name : Str) : List Str :=
  if mentionsAny name [str "memory", str "Memory", str "free", str "Free", str "alloc",
      str "Alloc"] then
    [str "free", str "alloc", str "unique_ptr", str "shared_ptr"]
  else if mentionsAny name [str "thread", str "Thread", str "safe", str "Safe", str "concurrent",
      str "Concurrent", str "lock", str "Lock"] then
    [str "Mutex", str "Lock", str "RwLock", str "Atomic"]
  else [name, name, name, name]

/-- `EXISTS (SELECT 1 FROM entity WHERE project_id = ? AND (name LIKE ? OR …))` -/
def enforced (name : Str) : Bool :=
  (select [(.entity, str "project_id"), (.entity, str "name")] (db.entitiesOf project)).any fun e =>
    (contractKeywords name).any fun w => like none (str "%" ++ w ++ str "%") e.name

/-- The statement that reads the contracts. -/
def contractStatement : Statement :=
  [(.contract, str "id"), (.contract, str "name"), (.contract, str "claim_text"),
    (.contract, str "file_path"), (.contract, str "project_id")]

/-- The rows of `contract` that `engine_detect_drift` reports as broken. -/
def brokenContracts : List Declared :=
  (select contractStatement (db.contractsOf project)).filter fun c => !enforced db project c.name

/-- A row of them as an item; the path is the fourth column. -/
def brokenContractItem (filePath : Str) (c : Declared) : DriftItem where
  type := str "BrokenContract"
  severity := kDriftSeverityHard
  subject := c.name
  detail := str "Contract '" ++ c.name ++ str "' declared in " ++ filePath ++
    str " but no enforcing code detected"

/-! ## Documentation -/

def kDriftSeverityDoc : ℕ := 1

/-- The README rows, each ended by a line end. -/
def readmeContent : Str :=
  (select [(.document, str "content"), (.document, str "project_id"), (.document, str "type")]
    (db.document.filter fun d => d.project = project ∧ d.type = 0)).flatMap fun d =>
      d.content ++ ['\n']

def countEntitiesByLanguage (language : Str) : ℕ :=
  if language = [] then 0
  else ((db.entitiesOf project).filter fun e =>
    if language = str "c" ∨ language = str "cpp" then e.language = str "c" ∨ e.language = str "cpp"
    else e.language = language).length

/-- The item of a language that is not found, the same in both reports. -/
def documentationItem (display : Str) : DriftItem where
  type := str "DocumentationDrift"
  severity := kDriftSeverityDoc
  subject := display
  detail := str "README mentions '" ++ display ++ str "' but no " ++ display ++
    str " entities found in codebase"

/-- `missing_languages` of `engine_detect_documentation_drift`. -/
def missingLanguages : List Str :=
  ((extractLanguageClaims (readmeContent db project)).filter fun claim =>
    !decide (0 < countEntitiesByLanguage db project claim.canonical)).map LanguageClaim.display

def detectDocumentationDrift : List DriftItem :=
  let readme := readmeContent db project
  if readme = [] then []
  else
    let claims := extractLanguageClaims readme
    if claims = [] then []
    else if (db.entitiesOf project).length ≤ 0 then []
    else
      (claims.filter fun claim => countEntitiesByLanguage db project claim.canonical = 0).map
        fun claim => documentationItem claim.display

/-! ## Architecture -/

inductive Layer where
  | controller
  | service
  | repository
deriving DecidableEq, Repr

/-- `kLayerController`, `kLayerService`, `kLayerRepository` -/
def Layer.name : Layer → Str
  | .controller => str "Controller"
  | .service => str "Service"
  | .repository => str "Repository"

/-- `layerRank` -/
def Layer.rank : Layer → ℕ
  | .controller => 0
  | .service => 1
  | .repository => 2

def endsWithCI (name ending : Str) : Bool := (lower ending).isSuffixOf (lower name)

def containsCI (haystack needle : Str) : Bool :=
  needle ≠ [] && (firstPlace sameLetter needle haystack).isSome

def classifyEntityLayer (name filePath : Str) : Option Layer :=
  if endsWithCI name (str "Controller") || containsCI filePath (str "/controllers/") ||
      containsCI filePath (str "/api/") then some .controller
  else if endsWithCI name (str "Service") || containsCI filePath (str "/services/") then
    some .service
  else if endsWithCI name (str "Repository") || endsWithCI name (str "Repo") ||
      endsWithCI name (str "Store") || endsWithCI name (str "DAO") ||
      containsCI filePath (str "/repository/") || containsCI filePath (str "/data/") then
    some .repository
  else none

/-- What is wrong with a call between two layers. -/
def violationKind (source target : Layer) : Option Str :=
  if target.rank < source.rank then some (str "reverse call")
  else if source.rank = target.rank ∧ source = .controller then some (str "same-layer bypass")
  else none

/-- The item of a call edge, when it is a violation. -/
def edgeItem (source target : EntityRow) : Option DriftItem := do
  let sourceLayer ← classifyEntityLayer source.name source.filePath
  let targetLayer ← classifyEntityLayer target.name target.filePath
  let kind ← violationKind sourceLayer targetLayer
  return {
    type := str "ArchitectureDrift"
    severity := 1
    subject := sourceLayer.name ++ str "->" ++ targetLayer.name
    detail := source.name ++ str " (" ++ sourceLayer.name ++ str ") calls " ++ target.name ++
      str " (" ++ targetLayer.name ++ str ") - " ++ kind }

def kMaxArchViolations : ℕ := 100

/-- The call edges of the project with their entities, which may belong to other projects. -/
def callEdges : List (EntityRow × EntityRow) :=
  let statement := [(.relation, str "source_id"), (.relation, str "target_id"),
    (.relation, str "project_id"), (.relation, str "type"), (.entity, str "id"),
    (.entity, str "name"), (.entity, str "file_path")]
  select statement
    (((db.callsOf project).filter fun r => r.sourceId ≠ r.targetId).flatMap fun r =>
      (db.entity.rows.filter fun e => e.id = r.sourceId).flatMap fun source =>
        (db.entity.rows.filter fun e => e.id = r.targetId).map fun target => (source, target))

def detectArchitectureDrift : List DriftItem :=
  ((callEdges db project).filterMap fun edge => edgeItem edge.1 edge.2).take kMaxArchViolations

/-! ## Entry points -/

/-- `engine_detect_drift`; `filePath` is the fourth column of a contract's row. -/
def engineDetectDrift (filePath : Declared → Str) : List DriftItem :=
  missingCapabilities db project ++
    (brokenContracts db project).map fun c => brokenContractItem (filePath c) c

def engineDetectDocumentationDrift : List DriftItem :=
  (missingLanguages db project).map documentationItem

def engineDetectCapabilityDrift : List DriftItem := detectCapabilityDrift db project

def engineDetectArchitectureDrift : List DriftItem := detectArchitectureDrift db project

/-- The drifts of `engine_verify_summary`. -/
def engineVerifySummaryDrifts : List DriftItem :=
  detectDocumentationDrift db project ++ detectCapabilityDrift db project ++
    detectArchitectureDrift db project

end CodeScope.Verify
