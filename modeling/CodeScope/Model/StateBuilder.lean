import CodeScope.Verify.FactTables
import CodeScope.Library.KeyedTable
import CodeScope.Library.Connection
import Mathlib.Data.Rat.Defs
import Mathlib.Data.List.Sort

/-! # The model summaries

`StateBuilder::buildAll` refreshes four tables from the facts of a project, in one transaction:
`module_summary` with `INSERT OR REPLACE`, the other three by deleting the project's rows and
inserting anew. Row ids and timestamps are left out of the rows here. The floating-point operations
of SQL are a parameter, and so is the order of rows that SQL leaves open. -/

namespace CodeScope.Model

open Text SqlText Verify Store KeyedTable Connection

/-! ## Rows -/

/-- The REAL operations of the summary query: `1.0 - CAST(dead AS REAL) / total`, a literal, and
    `<=`. -/
structure Reals (ρ : Type) where
  utilization : ℕ → ℕ → ρ
  literal : ℚ → ρ
  le : ρ → ρ → Bool

inductive Role where
  | test
  | api
  | entry
  | core
  | utility
  | business
  | dead
  | infra
deriving DecidableEq, Repr

structure ModuleSummary (ρ : Type) where
  project : ℕ
  moduleId : Int
  state : ℕ
  incomingCount : ℕ
  outgoingCount : ℕ
  internalEdges : ℕ
  deadEntities : ℕ
  utilization : ρ
  confidence : ρ
  role : Role
deriving DecidableEq

inductive Implementation where
  | declared
  | implemented
deriving DecidableEq, Repr

structure CapabilityState where
  project : ℕ
  name : Str
  state : Implementation
deriving DecidableEq

inductive Progress where
  | empty
  | partialSteps
  | done
deriving DecidableEq, Repr

structure WorkflowState where
  project : ℕ
  name : Str
  state : Progress
  stepsTotal : ℕ
  stepsDone : ℕ
deriving DecidableEq

structure ArchitectureState (ρ : Type) where
  project : ℕ
  layer : Str
  violations : ℕ
  crossModuleEdges : ℕ
  compliance : ρ
deriving DecidableEq

/-- The four tables, with the rows of all projects. -/
structure Summaries (ρ : Type) where
  moduleSummary : List (ModuleSummary ρ)
  capabilityState : List CapabilityState
  workflowState : List WorkflowState
  architectureState : List (ArchitectureState ρ)
deriving DecidableEq

/-- What the SQL leaves to the query planner: the order of rows without an ORDER BY, or among equal
    ones. -/
structure Plan (ρ : Type) where
  entities : List Int → List Int
  workflows : List WorkflowState → List WorkflowState
  pairs : List (ArchitectureState ρ) → List (ArchitectureState ρ)
  entities_perm : ∀ l, (entities l).Perm l
  workflows_perm : ∀ l, (workflows l).Perm l
  pairs_perm : ∀ l, (pairs l).Perm l
  pairs_sorted : ∀ l, (pairs l).Pairwise fun a b => b.crossModuleEdges ≤ a.crossModuleEdges

/-! ## Module summaries -/

section ModuleSummaries

variable {ρ : Type} (R : Reals ρ) (db : Facts) (project : ℕ)

/-- `scope` rows of modules. -/
def modules : List Scope :=
  db.scope.filter fun s => decide (s.kind = 1) && decide (s.project = project)

/-- `entity e … e.module_path = s.name` -/
def moduleEntities (s : Scope) : List EntityRow :=
  (db.entitiesOf project).filter fun e => e.modulePath = s.name

/-- `COUNT(DISTINCT …)` -/
def countDistinct (l : List Int) : ℕ := l.dedup.length

/-- A row of the CTE `agg`. -/
structure Agg where
  moduleId : Int
  moduleName : Str
  total : ℕ
  incoming : ℕ
  outgoing : ℕ
  dead : ℕ
  pubCount : ℕ
deriving DecidableEq

/-- The relations into, and out of, an entity. -/
def relationsInto (e : EntityRow) : List Relation :=
  (db.relationsOf project).filter fun r => r.targetId = e.id

def relationsFrom (e : EntityRow) : List Relation :=
  (db.relationsOf project).filter fun r => r.sourceId = e.id

def agg (s : Scope) : Agg :=
  let es := moduleEntities db project s
  let total := countDistinct (es.map EntityRow.id)
  { moduleId := s.id
    moduleName := s.name
    total
    incoming := countDistinct (es.flatMap fun e =>
      ((relationsInto db project e).filter fun r => r.sourceId ≠ e.id).map Relation.sourceId)
    outgoing := countDistinct (es.flatMap fun e =>
      ((relationsFrom db project e).filter fun r => r.targetId ≠ e.id).map Relation.targetId)
    dead := total - countDistinct (es.flatMap fun e =>
      (relationsInto db project e).map Relation.targetId)
    pubCount := countDistinct ((es.filter fun e => e.visibility = 1).map EntityRow.id) }

/-- The CTE `entry`. -/
def entryReachable (s : Scope) : Bool :=
  (moduleEntities db project s).any fun e =>
    (e.name = str "main" &&
      e.language ∈ [str "c", str "cpp", str "c++", str "go", str "rust"]) ||
    (e.name = str "init" && e.language = str "go")

/-- The entity `id` of the project lives in a module. -/
def livesIn (id : Int) (modulePath : Str) : Bool :=
  (db.entitiesOf project).any fun e => e.id = id && e.modulePath = modulePath

/-- The CTE `intra`; ids are primary keys, so each join partner is unique. -/
def internal (modulePath : Str) : ℕ :=
  if modulePath = [] then 0
  else ((db.relationsOf project).filter fun r =>
    r.sourceId ≠ r.targetId && livesIn db project r.sourceId modulePath &&
      livesIn db project r.targetId modulePath).length

/-- The path patterns of the test layer. -/
def isTestModule (name : Str) : Bool :=
  [str "test", str "tests"].any fun t =>
    name = t || like none (t ++ str "/%") name || like none (str "%/" ++ t) name ||
      like none (str "%/" ++ t ++ str "/%") name

/-- `kRoleApiIncomingOutgoingRatio`, and the other bounds of the role rules. -/
def kRoleApiIncomingOutgoingRatio : ℕ := 2
def kRoleApiIncomingMin : ℕ := 3
def kRoleApiUtilizationMin : ℚ := 1 / 10
def kRoleCoreIncomingMin : ℕ := 10
def kRoleCoreOutgoingIncomingRatio : ℕ := 1
def kRoleCoreUtilizationMin : ℚ := 5 / 100
def kRoleUtilityOutgoingMax : ℕ := 5
def kRoleUtilityUtilizationMin : ℚ := 5 / 100
def kRoleBusinessIncomingMin : ℕ := 10

/-- The CASE of the role column, first match first. -/
def roleOf (a : Agg) (entry : Bool) : Role :=
  let atLeast (bound : ℚ) : Bool := R.le (R.literal bound) (R.utilization a.dead a.total)
  if isTestModule a.moduleName then .test
  else if 0 < a.pubCount ∧ kRoleApiIncomingOutgoingRatio * a.outgoing ≤ a.incoming ∧
      kRoleApiIncomingMin ≤ a.incoming ∧ atLeast kRoleApiUtilizationMin then .api
  else if entry then .entry
  else if kRoleCoreIncomingMin ≤ a.incoming ∧
      a.outgoing ≤ a.incoming * kRoleCoreOutgoingIncomingRatio ∧
      atLeast kRoleCoreUtilizationMin ∧ 0 < a.pubCount then .core
  else if a.outgoing ≤ kRoleUtilityOutgoingMax ∧ 0 < a.pubCount ∧
      atLeast kRoleUtilityUtilizationMin then .utility
  else if 0 < a.pubCount ∧ kRoleBusinessIncomingMin ≤ a.incoming then .business
  else if (a.incoming = 0 ∧ a.outgoing = 0) ∨ a.dead = a.total then .dead
  else .infra

/-- `WHERE agg.total >= 3` -/
def qualifies (s : Scope) : Bool := decide (3 ≤ (agg db project s).total)

def summaryOf (s : Scope) : ModuleSummary ρ :=
  let a := agg db project s
  { project
    moduleId := a.moduleId
    state := 0
    incomingCount := a.incoming
    outgoingCount := a.outgoing
    internalEdges := internal db project a.moduleName
    deadEntities := a.dead
    utilization := R.utilization a.dead a.total
    confidence := R.literal (85 / 100)
    role := roleOf R a (entryReachable db project s) }

/-- The modules that get a row. -/
def qualifying : List Scope := (modules db project).filter (qualifies db project)

def moduleRows : List (ModuleSummary ρ) := (qualifying db project).map (summaryOf R db project)

/-- The key of `idx_module_summary_unique`. -/
def ModuleSummary.key (r : ModuleSummary ρ) : ℕ × Int := (r.project, r.moduleId)

end ModuleSummaries

/-! ## Workflows and module pairs -/

section Rows

variable {ρ : Type} (R : Reals ρ) (plan : Plan ρ) (db : Facts) (project : ℕ)

/-- The names that start workflows. -/
def starters : List Str := [str "main", str "Run", str "Init", str "Serve", str "Start"]

/-- `steps_total`: the Calls edges out of the entity. -/
def stepsTotal (e : EntityRow) : ℕ :=
  ((db.callsOf project).filter fun rt => rt.sourceId = e.id).length

/-- `steps_done`: the callees that something else calls as well. -/
def stepsDone (e : EntityRow) : ℕ :=
  countDistinct ((((db.callsOf project).filter fun rt => rt.sourceId = e.id).filter fun rt =>
    (db.callsOf project).any fun rin =>
      rin.targetId = rt.targetId && decide (rin.sourceId ≠ e.id)).map Relation.targetId)

def workflowOf (e : EntityRow) : WorkflowState :=
  let total := stepsTotal db project e
  let done := stepsDone db project e
  { project
    name := e.name
    state := if total = 0 then .empty else if total ≤ done then .done else .partialSteps
    stepsTotal := total
    stepsDone := done }

/-- One entity for every relation from a starter, of any project, into it. -/
def workflowEntries : List EntityRow :=
  ((db.entitiesOf project).filter fun e => e.name ∉ starters).flatMap fun e =>
    (relationsInto db project e).flatMap fun r =>
      (db.entity.rows.filter fun caller => r.sourceId = caller.id && caller.name ∈ starters).map
        fun _ => e

/-- `SELECT DISTINCT … LIMIT 20` -/
def workflowRows : List WorkflowState :=
  (plan.workflows ((workflowEntries db project).map (workflowOf db project)).dedup).take 20

def edgesOf : List ArchitectureEdge := db.architectureEdge.filter fun ae => ae.project = project

/-- `GROUP BY ae.callee_module, ae.caller_module` -/
def pairRow (pair : Str × Str) : ArchitectureState ρ :=
  { project
    layer := pair.1 ++ str "->" ++ pair.2
    violations := 0
    crossModuleEdges := ((edgesOf db project).filter fun ae =>
      (ae.callerModule, ae.calleeModule) = pair).length
    compliance := R.literal 1 }

/-- `ORDER BY COUNT(*) DESC LIMIT 10` -/
def architectureRows : List (ArchitectureState ρ) :=
  (plan.pairs ((((edgesOf db project).map fun ae => (ae.callerModule, ae.calleeModule)).dedup).map
    (pairRow R db project))).take 10

/-- `SELECT name FROM capability … ORDER BY name` -/
def declaredNames : List Str :=
  ((db.capability.filter fun c => c.project = project).map Declared.name).insertionSort (· ≤ ·)

end Rows

/-! ## The builders -/

/-- The failing calls of a build. -/
structure BuildFaults where
  begin_ : Bool
  moduleInsert : Bool
  capabilityDelete : Bool
  capabilityNames : Option Failure
  capabilityInsert : Bool
  implementing : ℕ → Option Failure
  capabilityRow : ℕ → Bool
  workflowDelete : Bool
  workflowInsert : Bool
  architectureDelete : Bool
  architectureInsert : Bool
  commit : Bool

/-- A build in which nothing fails. -/
def BuildFaults.clean : BuildFaults where
  begin_ := false
  moduleInsert := false
  capabilityDelete := false
  capabilityNames := none
  capabilityInsert := false
  implementing _ := none
  capabilityRow _ := false
  workflowDelete := false
  workflowInsert := false
  architectureDelete := false
  architectureInsert := false
  commit := false

/-- One call of `buildAll`: the facts it finds, its project, and what fails. -/
structure Build where
  db : Facts
  project : ℕ
  faults : BuildFaults

section Builders

variable {ρ : Type} (R : Reals ρ) (plan : Plan ρ) (b : Build)

/-- `buildModuleSummaries`; nothing for −1, else the number of rows and the tables after it. -/
def buildModuleSummaries (d : Summaries ρ) : Option (ℕ × Summaries ρ) :=
  if b.faults.moduleInsert then none
  else
    let rows := moduleRows R b.db b.project
    some (rows.length,
      { d with moduleSummary := replaceAll ModuleSummary.key d.moduleSummary rows })

/-- The row of one capability, given the entities found for it. -/
def capabilityRow (name : Str) (ids : List Int) : CapabilityState :=
  ⟨b.project, name, if ids.isEmpty then .declared else .implemented⟩

/-- The loop over the names, from the `i`-th on: the rows it inserts. -/
def capabilityLoop (i : ℕ) : List Str → Option (List CapabilityState)
  | [] => some []
  | name :: rest =>
      match implementingEntitiesFor b.db b.project name plan.entities (b.faults.implementing i) with
      | none => none
      | some ids =>
          if b.faults.capabilityRow i then none
          else (capabilityLoop (i + 1) rest).map (capabilityRow b name ids :: ·)

def buildCapabilityState (d : Summaries ρ) : Option (ℕ × Summaries ρ) :=
  if b.faults.capabilityDelete then none
  else
    match collect b.faults.capabilityNames (declaredNames b.db b.project) with
    | none => none
    | some names =>
        if b.faults.capabilityInsert then none
        else (capabilityLoop plan b 0 names).map fun rows => (rows.length,
          { d with
            capabilityState :=
              refresh CapabilityState.project b.project d.capabilityState rows })

def buildWorkflowState (d : Summaries ρ) : Option (ℕ × Summaries ρ) :=
  if b.faults.workflowDelete ∨ b.faults.workflowInsert then none
  else
    let rows := workflowRows plan b.db b.project
    some (rows.length,
      { d with workflowState := refresh WorkflowState.project b.project d.workflowState rows })

def buildArchitectureState (d : Summaries ρ) : Option (ℕ × Summaries ρ) :=
  if b.faults.architectureDelete ∨ b.faults.architectureInsert then none
  else
    let rows := architectureRows R plan b.db b.project
    some (rows.length,
      { d with
        architectureState :=
          refresh ArchitectureState.project b.project d.architectureState rows })

/-- The four builders in turn; the first −1 ends it. -/
def builders (d : Summaries ρ) : Option (ℕ × Summaries ρ) := do
  let (modules, d) ← buildModuleSummaries R b d
  let (capabilities, d) ← buildCapabilityState plan b d
  let (workflows, d) ← buildWorkflowState plan b d
  let (architecture, d) ← buildArchitectureState R plan b d
  return (modules + capabilities + workflows + architecture, d)

/-- `buildAll`: the total it returns (nothing for −1) and the connection after it. -/
def buildAll (c : Conn (Summaries ρ)) : Option ℕ × Conn (Summaries ρ) :=
  match c.begin b.faults.begin_ with
  | (false, c) => (none, c)
  | (true, c) =>
      match builders R plan b c.view with
      | none => (none, c.rollback)
      | some (total, d) =>
          match (c.write fun _ => d).commit b.faults.commit with
          | (false, c) => (none, c.rollback)
          | (true, c) => (some total, c)

end Builders

end CodeScope.Model
