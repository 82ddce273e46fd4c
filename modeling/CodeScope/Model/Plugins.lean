import CodeScope.Library.KeyedTable
import CodeScope.Library.Lines
import CodeScope.Verify.FactTables

/-! # The model plugins

`ModelEngine::runAll` reads a project's facts once and hands them to four plugins, which fill the
model tables: workflows from entry points and their callees, capabilities and contracts from the
README documents, contracts from marker names, and call edges between modules. Every statement
succeeds here; the engine's transaction then makes one step of a build. The rows of a table stand in
the order in which its scans deliver them. -/

namespace CodeScope.Model.Plugins

open Text Verify Store KeyedTable

/-! ## The facts of a project -/

/-- A `document` row. -/
structure Document where
  project : ℕ
  type : Int
  filePath : Str
  content : Str
deriving DecidableEq

def kScopeKindModule : Int := 1
def kDocumentTypeReadme : Int := 0
def kEntityKindFunction : ℕ := 0
def kEntityKindMethod : ℕ := 1
def kMaxCalleesPerWorkflow : ℕ := 20
def kMaxTodoEntities : ℕ := 20
def kMaxReadmeDocuments : ℕ := 5

structure ModelContext where
  entities : List EntityRow
  allRelations : List Relation
  callEdges : List Relation
  scopeModules : List Scope
  documents : List Document

/-- The tables a build reads, with the project it is for. -/
structure Build where
  db : Facts
  document : List Document
  project : ℕ

def populateModelContext (b : Build) : ModelContext where
  entities := b.db.entitiesOf b.project
  allRelations := b.db.relationsOf b.project
  callEdges := b.db.callsOf b.project
  scopeModules := b.db.scope.filter fun s => s.project = b.project && s.kind = kScopeKindModule
  documents := (b.document.filter fun d => d.project = b.project && d.type = kDocumentTypeReadme &&
    d.content ≠ []).take kMaxReadmeDocuments

/-- `entities_by_id` -/
def ModelContext.entityById (ctx : ModelContext) (id : Int) : Option EntityRow :=
  ctx.entities.find? fun e => e.id = id

/-! ## The model tables -/

structure CapabilityRow where
  project : ℕ
  name : Str
  summary : Str
  sourceKind : Str
  sourceRef : Str
deriving DecidableEq

structure ContractRow where
  project : ℕ
  name : Str
  origin : Str
  claimText : Str
  sourceFile : Str
  sourceLine : ℕ
deriving DecidableEq

structure Workflow where
  id : ℕ
  project : ℕ
  name : Str
deriving DecidableEq

structure WorkflowStep where
  workflowId : ℕ
  stepOrder : ℕ
  entityId : Int
  label : Str
deriving DecidableEq

structure ArchitectureEdgeRow where
  project : ℕ
  callerModule : Str
  calleeModule : Str
  entityId : Int
deriving DecidableEq

structure ModelTables where
  capability : List CapabilityRow
  contract : List ContractRow
  workflow : List Workflow
  workflowStep : List WorkflowStep
  architectureEdge : List ArchitectureEdgeRow

def ModelTables.empty : ModelTables := ⟨[], [], [], [], []⟩

/-- What the guard of `insertCapability` compares. -/
def CapabilityRow.identity (r : CapabilityRow) : ℕ × Str × Str × Str :=
  (r.project, r.name, r.sourceKind, r.sourceRef)

/-- What the guard of `insertContract` compares. -/
def ContractRow.identity (r : ContractRow) : ℕ × Str × Str × Str × ℕ :=
  (r.project, r.name, r.origin, r.sourceFile, r.sourceLine)

/-! ## Workflows -/

def entryPointNames : List Str :=
  [str "main", str "Run", str "Serve", str "Start", str "Handle", str "Process"]

section Workflows

variable (ctx : ModelContext)

/-- The functions and methods of those names that are the source of some relation. -/
def entryPoints : List EntityRow :=
  ctx.entities.filter fun e =>
    (e.kind = kEntityKindFunction || e.kind = kEntityKindMethod) && e.name ∈ entryPointNames &&
      ctx.allRelations.any fun r => r.sourceId = e.id

def workflowName (e : EntityRow) : Str := e.name ++ '@' :: e.filePath

/-- The steps of an entry point: itself, then its callees. -/
def workflowSteps (e : EntityRow) : List (ℕ × Int × Str) :=
  let callees := (ctx.callEdges.filter fun r => r.sourceId = e.id).map Relation.targetId
  (0, e.id, e.name) :: ((callees.take kMaxCalleesPerWorkflow).zipIdx 1).map fun tgt =>
    (tgt.2, tgt.1, ((ctx.entityById tgt.1).map EntityRow.name).getD [])

end Workflows

/-- An id that no row has. -/
def freshId (rows : List Workflow) : ℕ := (rows.map Workflow.id).foldr max 0 + 1

/-- The table with the workflow in it, and its id. -/
def insertWorkflow (rows : List Workflow) (project : ℕ) (name : Str) : List Workflow × ℕ :=
  match rows.find? fun w => w.project = project && w.name = name with
  | some w => (rows, w.id)
  | none => (rows ++ [⟨freshId rows, project, name⟩], freshId rows)

/-- One turn of the loop over the entry points. -/
def addWorkflow (project : ℕ) (tables : List Workflow × List WorkflowStep)
    (entry : Str × List (ℕ × Int × Str)) : List Workflow × List WorkflowStep :=
  let inserted := insertWorkflow tables.1 project entry.1
  (inserted.1, tables.2 ++ entry.2.map fun s => ⟨inserted.2, s.1, s.2.1, s.2.2⟩)

/-- `DELETE FROM workflow_step WHERE workflow_id IN (SELECT id FROM workflow WHERE …)` -/
def clearSteps (project : ℕ) (tables : ModelTables) : List WorkflowStep :=
  tables.workflowStep.filter fun s =>
    !tables.workflow.any fun w => w.project = project && w.id = s.workflowId

/-- The workflows of a build with their steps. -/
def workflowEntries (ctx : ModelContext) : List (Str × List (ℕ × Int × Str)) :=
  (entryPoints ctx).map fun e => (workflowName e, workflowSteps ctx e)

def buildWorkflows (project : ℕ) (ctx : ModelContext) (tables : ModelTables) : ModelTables :=
  let built := (workflowEntries ctx).foldl (addWorkflow project)
    (tables.workflow, clearSteps project tables)
  { tables with workflow := built.1, workflowStep := built.2 }

/-! ## Capabilities -/

/-- The text from the first letter on, in PascalCase, up to forty characters. -/
def pascalCase : Bool → ℕ → Str → Str
  | _, _, [] => []
  | capNext, size, c :: rest =>
    if c.isAlphanum then
      (if capNext then c.toUpper else c) ::
        (if size + 1 ≥ 40 then [] else pascalCase false (size + 1) rest)
    else if size ≥ 40 then []
    else pascalCase true size rest

def capabilityPrefixes : List Str :=
  [str "Support ", str "Supports ", str "Feature: ", str "feature: "]

/-- The first prefix the text has more text behind is taken off. -/
def dropCapabilityPrefix (text : Str) : List Str → Str
  | [] => text
  | pfx :: rest =>
    if pfx.length < text.length && pfx.isPrefixOf text then text.drop pfx.length
    else dropCapabilityPrefix text rest

def normalizeCapabilityName (line : Str) : Str :=
  let text := line.dropWhile fun c => c = ' ' || c = '\t' || c = '-' || c = '*'
  if text = [] then line
  else
    let name := pascalCase true 0 (dropCapabilityPrefix text capabilityPrefixes)
    if name = [] then line else name

/-- The line mentions a supported feature. -/
def mentionsCapability (line : Str) : Bool :=
  contains (str "support") line || contains (str "Supports") line ||
    contains (str "Feature") line || contains (str "feature") line

/-- What the plugin hands to `insertCapability`, in order. -/
def declaredCapabilities (project : ℕ) (ctx : ModelContext) : List CapabilityRow :=
  ctx.documents.flatMap fun doc =>
    (((Lines.lines '\n' doc.content).map (Lines.payload '\n')).filter mentionsCapability).map
      fun line => ⟨project, normalizeCapabilityName line, doc.filePath, str "readme", doc.filePath⟩

def buildCapabilities (project : ℕ) (ctx : ModelContext) (tables : ModelTables) : ModelTables :=
  { tables with
    capability := insertAll [CapabilityRow.identity] tables.capability
      (declaredCapabilities project ctx) }

/-! ## Module call edges -/

/-- The path starts with the prefix, letter case aside. -/
def pathStartsWithCI (path pfx : Str) : Bool :=
  pfx.length ≤ path.length && lower (path.take pfx.length) = lower pfx

def matchScopes (ctx : ModelContext) (e : EntityRow) : List Scope :=
  ctx.scopeModules.filter fun m => pathStartsWithCI e.filePath m.name

/-- What the plugin hands to `insertArchitectureEdge`, in order. -/
def crossModuleCalls (project : ℕ) (ctx : ModelContext) : List ArchitectureEdgeRow :=
  ctx.callEdges.flatMap fun edge =>
    match ctx.entityById edge.sourceId, ctx.entityById edge.targetId with
    | some src, some tgt =>
      (matchScopes ctx src).flatMap fun srcMod =>
        ((matchScopes ctx tgt).filter fun tgtMod => srcMod.id ≠ tgtMod.id).map fun tgtMod =>
          ⟨project, srcMod.name, tgtMod.name, tgt.id⟩
    | _, _ => []

/-- The rows are inserted behind `DELETE FROM architecture_edge`, which names no project. -/
def buildArchitecture (project : ℕ) (ctx : ModelContext) (tables : ModelTables) : ModelTables :=
  { tables with architectureEdge := crossModuleCalls project ctx }

/-! ## Contracts -/

def contractKeywords : List Str :=
  [str "thread safe", str "thread-safe", str "ThreadSafe", str "memory safe", str "memory-safe",
    str "MemorySafe", str "zero-copy", str "zero copy", str "lock-free", str "lock free",
    str "not safe", str "unsafe"]

/-- A denial is no contract. -/
def isNegativeForm (keyword : Str) : Bool :=
  contains (str "not") (lower keyword) || contains (str "unsafe") (lower keyword)

/-- The text before the first occurrence of a word. -/
def textBefore (word : Str) : Str → Option Str
  | [] => if word = [] then some [] else none
  | c :: rest =>
    if word.isPrefixOf (c :: rest) then some [] else (textBefore word rest).map (c :: ·)

/-- The text ends with the word, and the word starts there. -/
def endsWord (before word : Str) : Bool :=
  word.isSuffixOf before &&
    !((before.take (before.length - word.length)).getLast?).any Char.isAlphanum

/-- What comes before a keyword denies it. -/
def denies (before : Str) : Bool :=
  endsWord before (str "not ") || endsWord before (str "never ") ||
    (str "n't ").isSuffixOf before || (str "n't").isSuffixOf before

/-- Lower case, without hyphens and blanks. -/
def normalizeContractName (keyword : Str) : Str :=
  lower (keyword.filter fun c => c ≠ '-' && c ≠ ' ' && c ≠ '\t')

/-- The README promises what the keyword names. -/
def promises (text keyword : Str) : Bool :=
  !isNegativeForm keyword && contains (lower keyword) (lower text) &&
    !((textBefore (lower keyword) (lower text)).any denies)

def readmeContracts (project : ℕ) (ctx : ModelContext) : List ContractRow :=
  ctx.documents.flatMap fun doc => (contractKeywords.filter (promises doc.content)).map fun kw =>
    ⟨project, normalizeContractName kw, str "readme", kw, doc.filePath, 0⟩

/-- The name carries a marker; `TODO` counts in functions and methods only. -/
def isMarked (e : EntityRow) : Bool :=
  ((e.kind = kEntityKindFunction || e.kind = kEntityKindMethod) &&
      contains (str "todo") (lower e.name)) ||
    contains (str "fixme") (lower e.name) || contains (str "hack") (lower e.name) ||
    contains (str "xxx") (lower e.name)

def markerContracts (project : ℕ) (ctx : ModelContext) : List ContractRow :=
  ((ctx.entities.filter isMarked).take kMaxTodoEntities).map fun e =>
    ⟨project, str "TODO: " ++ e.name, str "comment", e.name, e.filePath, 0⟩

/-- What the plugin hands to `insertContract`, in order. -/
def declaredContracts (project : ℕ) (ctx : ModelContext) : List ContractRow :=
  readmeContracts project ctx ++ markerContracts project ctx

def buildContracts (project : ℕ) (ctx : ModelContext) (tables : ModelTables) : ModelTables :=
  { tables with
    contract := insertAll [ContractRow.identity] tables.contract (declaredContracts project ctx) }

/-! ## The engine -/

/-- The plugins in the order of their registration. -/
def plugins : List (ℕ → ModelContext → ModelTables → ModelTables) :=
  [buildWorkflows, buildCapabilities, buildArchitecture, buildContracts]

def runAll (b : Build) (tables : ModelTables) : ModelTables :=
  plugins.foldl (fun t plugin => plugin b.project (populateModelContext b) t) tables

/-- The tables after a sequence of builds of any projects. -/
def afterBuilds (history : List Build) : ModelTables :=
  history.foldl (fun t b => runAll b t) ModelTables.empty

/-- A line that names a feature, and the capability read off it. -/
example : normalizeCapabilityName (str "  - Supports incremental indexing") =
    str "IncrementalIndexing" := by
  decide +kernel

end CodeScope.Model.Plugins
