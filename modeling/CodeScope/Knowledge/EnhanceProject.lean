import CodeScope.Library.Connection
import CodeScope.Store.EntityIds
import Mathlib.Data.List.MinMax

/-! # Enhancing a project

`enhanceProjectImpl` extracts the semantic facts, ingests the README, rebuilds the graph of a
project that is not finalised, and builds the models. Whether its transactions, the phases of the
extraction and most of the other steps succeed is not looked at; the answer is `ok:false` when
`buildGraph` or the FTS build reports a failure.

The classification of records, the rebuild of the graph and what the remaining steps write are
parameters or left out; `done` records the steps that have taken effect. -/

namespace CodeScope.Enhance

open Text Connection Store

/-! ## Tables -/

/-- The phases of `extractAll`; each writes facts of a category of its own. -/
inductive Phase where
  | sync
  | memory
  | error
  | pattern
  | framework
  | ffi
deriving DecidableEq, Repr

/-- In the order of `extractAll`. -/
def phases : List Phase := [.sync, .memory, .error, .pattern, .framework, .ffi]

/-- The steps of an enhancement. -/
inductive Step where
  | clear
  | phase (p : Phase)
  | readme
  | graph
  | fts
  | metrics
  | indexes
  | normalReady
  | ftsReady
  | models
  | states
  | modelFts
  | modelFtsReady
  | knowledge
  | modules
  | knowledgeReady
deriving DecidableEq, Repr

/-- A row of `import`. -/
structure ImportLine where
  project : ℕ
  filePath : Str
  targetPath : Str
deriving DecidableEq

/-- A row of `relation` with type 1. -/
structure CallRow where
  project : ℕ
  source : Int
  target : Int
deriving DecidableEq

/-- The tables that `buildGraph` writes and the extraction reads. -/
structure Graph where
  entities : EntityTable
  imports : List ImportLine
  calls : List CallRow

/-- A row of `semantic_fact`; the body is what the classification says. -/
structure Fact (β : Type) where
  project : ℕ
  functionId : Int
  category : Phase
  body : β

/-- The database; `normalReady` lists the finalised projects. -/
structure Db (β : Type) where
  graph : Graph
  records : List RecordRow
  facts : List (Fact β)
  normalReady : List ℕ
  done : List Step

/-! ## The extraction -/

/-- What the phases make of the rows that they select. -/
structure Classifiers (β : Type) where
  record : Phase → List RecordRow → RecordRow → Option β
  framework : ImportLine → Option β
  crossLanguage : EntityRow → Option β

/-- `kind IN (kNodeTypeFunction, kNodeTypeMethod)` -/
def isFunction (e : EntityRow) : Bool := e.kind = 0 || e.kind = 1

/-- The function around a record: the one that starts last. -/
def enclosingFunction (t : EntityTable) (row : RecordRow) : Option Int :=
  ((t.rows.filter fun e =>
    e.project = row.project ∧ e.filePath = row.filePath ∧ isFunction e ∧
      e.startRow ≤ row.record.startRow ∧
      (row.record.startRow ≤ e.endRow ∨ e.endRow = 0)).argmax EntityRow.startRow).map EntityRow.id

/-- The first function of the importing file. -/
def firstFunction (t : EntityTable) (imp : ImportLine) : Option Int :=
  ((t.rows.filter fun e =>
    e.project = imp.project ∧ e.filePath = imp.filePath ∧ isFunction e).argmin
      EntityRow.startRow).map EntityRow.id

section Extraction

variable {β : Type} (cl : Classifiers β) (project : ℕ)

/-- The functions that are called from another language. -/
def crossLanguage (db : Db β) : List EntityRow :=
  db.graph.entities.rows.filter fun e =>
    e.project = project ∧ isFunction e ∧
    e.language ∈ [str "rust", str "c", str "cpp", str "zig"] ∧
    (∃ r ∈ db.graph.calls, r.project = project ∧ r.target = e.id ∧
      ∃ src ∈ db.graph.entities.rows, src.id = r.source ∧ src.language ≠ e.language) ∧
    ∀ f ∈ db.facts, f.project = project → f.category = .ffi → f.functionId ≠ e.id

/-- The row of a fact, for a positive id. -/
def factOf (category : Phase) (functionId : Option Int) (body : Option β) : Option (Fact β) :=
  functionId.bind fun id =>
    if 0 < id then body.map fun b => ⟨project, id, category, b⟩ else none

/-- A query of the extraction: one for each phase, and a second one for `ffi`. -/
inductive Query where
  | phase (p : Phase)
  | crossLanguage
deriving DecidableEq, Repr

/-- The facts that the rows of a query give. -/
def found (db : Db β) : Query → List (Fact β)
  | .phase .framework => (db.graph.imports.filter (·.project = project)).filterMap fun imp =>
      factOf project .framework (firstFunction db.graph.entities imp) (cl.framework imp)
  | .phase p => (recordsOf project db.records).filterMap fun row =>
      factOf project p (enclosingFunction db.graph.entities row) (cl.record p db.records row)
  | .crossLanguage => (crossLanguage project db).filterMap fun e =>
      factOf project .ffi (some e.id) (cl.crossLanguage e)

/-- The queries of a phase. -/
def queriesOf : Phase → List Query
  | .ffi => [.phase .ffi, .crossLanguage]
  | p => [.phase p]

/-- The facts of a phase. -/
def wanted (db : Db β) (p : Phase) : List (Fact β) := (queriesOf p).flatMap (found cl project db)

/-- The transactions of an enhancement. -/
inductive Txn where
  | facts
  | graph
  | knowledge
deriving DecidableEq, Repr

/-- What goes wrong during an enhancement. A query fails when it is prepared, or its rows end early
    with an error; the INSERT of a phase fails when it is prepared, or for single rows. -/
structure Faults where
  begin : Txn → Bool
  commit : Txn → Bool
  step : Step → Bool
  readReady : Bool
  query : Query → Bool
  scan : Query → Option ℕ
  prepareInsert : Phase → Bool
  insert : Phase → ℕ → Bool

variable (faults : Faults)

/-- The facts that a query delivers. -/
def scanned (db : Db β) (q : Query) : List (Fact β) :=
  match faults.scan q with
  | none => found cl project db q
  | some k => (found cl project db q).take k

/-- The facts that a phase collects. When the first query cannot be prepared, the phase ends; the
    second one is passed over when it cannot. -/
def collected (db : Db β) (p : Phase) : List (Fact β) :=
  if faults.query (.phase p) then []
  else ((queriesOf p).filter fun q => !faults.query q).flatMap (scanned cl project faults db)

/-- `insertSemanticFacts`: a row that fails is passed over. -/
def insertSemanticFacts (p : Phase) (facts : List (Fact β)) : List (Fact β) :=
  if faults.prepareInsert p then []
  else (facts.zipIdx.filter fun fi => !faults.insert p fi.2).map Prod.fst

/-- What a phase writes. -/
def written (db : Db β) (p : Phase) : List (Fact β) :=
  insertSemanticFacts faults p (collected cl project faults db p)

/-- A step that takes effect. -/
def Db.mark (db : Db β) (step : Step) : Db β := { db with done := step :: db.done }

/-- A phase; it has taken effect when it has written every fact. -/
def extractPhase (db : Db β) (p : Phase) : Db β :=
  let db' := { db with facts := db.facts ++ written cl project faults db p }
  if (written cl project faults db p).length = (wanted cl project db p).length then
    db'.mark (.phase p)
  else db'

def clearSemanticFacts (db : Db β) : Db β :=
  if faults.step .clear then db
  else { db with facts := db.facts.filter (·.project ≠ project) }.mark .clear

def extractAll (db : Db β) : Db β :=
  phases.foldl (extractPhase cl project faults) (clearSemanticFacts project faults db)

/-! ## The run -/

/-- A step of which only the outcome is kept. -/
def plainStep (step : Step) (db : Db β) : Db β := if faults.step step then db else db.mark step

/-- `setProjectReadiness(…, "normal_ready", 1)` -/
def setNormalReady (db : Db β) : Db β :=
  if faults.step .normalReady then db
  else { db with normalReady := project :: db.normalReady }.mark .normalReady

/-- `getProjectReadiness(…, "normal_ready")`; an error reads as 0. -/
def finalised (db : Db β) : Bool := !faults.readReady && decide (project ∈ db.normalReady)

def buildKnowledgeGraphSync (c : Conn (Db β)) : Conn (Db β) :=
  let (begun, c) := c.begin (faults.begin .knowledge)
  if !begun then c
  else if faults.step .knowledge then c.rollback
  else
    let (committed, c) := (c.write (·.mark .knowledge)).commit (faults.commit .knowledge)
    if !committed then c.rollback
    else (c.write (plainStep faults .modules)).write (plainStep faults .knowledgeReady)

def runModelIndexSync (c : Conn (Db β)) : Conn (Db β) :=
  let c := (c.write (plainStep faults .models)).write (plainStep faults .states)
  if faults.step .modelFts then c
  else (c.write (·.mark .modelFts)).write (plainStep faults .modelFtsReady)

/-- What follows the label `run_model_build`. -/
def runModelBuild (c : Conn (Db β)) : Conn (Db β) :=
  buildKnowledgeGraphSync faults (runModelIndexSync faults c)

/-- `buildGraph`, by what it makes of the graph tables. -/
def buildGraph (rebuild : List RecordRow → Graph → Graph) (db : Db β) : Db β :=
  { db with graph := rebuild db.records db.graph }.mark .graph

/-- `enhanceProjectImpl`: the failed step of the answer, none for `ok:true`, and the database. -/
def enhanceProject (rebuild : List RecordRow → Graph → Graph) (c : Conn (Db β)) :
    Option Step × Conn (Db β) :=
  let c := (c.begin (faults.begin .facts)).2
  let c := c.write (extractAll cl project faults)
  let c := (c.commit (faults.commit .facts)).2
  let c := c.write (plainStep faults .readme)
  if finalised project faults c.view then (none, runModelBuild faults c)
  else
    let c := (c.begin (faults.begin .graph)).2
    if faults.step .graph then (some .graph, runModelBuild faults c.rollback)
    else
      let c := ((c.write (buildGraph rebuild)).commit (faults.commit .graph)).2
      if faults.step .fts then (some .fts, runModelBuild faults c)
      else
        let c := (c.write (·.mark .fts)).write (plainStep faults .metrics)
        let c := (c.write (plainStep faults .indexes)).write (setNormalReady project faults)
        (none, runModelBuild faults (c.write (plainStep faults .ftsReady)))

end Extraction

/-! ## The steps of a run -/

/-- The steps of an enhancement of a project that is finalised or not. -/
def stepsOf (finalised : Bool) : List Step :=
  Step.clear :: phases.map Step.phase ++ [Step.readme] ++
    (if finalised then [] else [.graph, .fts, .metrics, .indexes, .normalReady, .ftsReady] :
      List Step) ++
    ([.models, .states, .modelFts, .modelFtsReady, .knowledge, .modules, .knowledgeReady] :
      List Step)

end CodeScope.Enhance
