import CodeScope.Verify.FactTables
import Mathlib.Data.Rat.Defs

/-! # The claim verifiers

Each verifier answers a claim with a verdict, a confidence and the facts behind it, from a handful
of queries any of which may fail. Confidences are exact here. The order in which a query without
ORDER BY delivers its rows is a parameter. -/

namespace CodeScope.Verify

open Text SqlText Store

/-! ## Claims and records -/

inductive ClaimType where
  | capabilityExists
  | contractHolds
  | architectureFollows
  | functionImplements
deriving DecidableEq, Repr

inductive Verdict where
  | supported
  | contradicted
  | unknown
deriving DecidableEq, Repr

structure Claim where
  type : ClaimType
  subject : Str
  predicate : Str
  object : Str
  scope : Str
deriving DecidableEq

/-- `kFactKindNode` and `kFactKindEdge`. -/
inductive FactKind where
  | node
  | edge
deriving DecidableEq, Repr

structure EvidenceRecord where
  claimId : Int
  verdict : Verdict
  confidence : ℚ
  verifierName : Str
  detail : Str
  facts : List (FactKind × Int)
deriving DecidableEq

/-- `std::to_string` -/
def toStr (n : Int) : Str := (toString n).toList

/-! ## The queries of the verifiers -/

inductive Query where
  | entityCount
  | relationCount
  | capability
  | implementing
  | contract
  | evidence
  | layer1
  | layer2
  | layer3
  | reverse1
  | reverse2
  | reverse3
  | forward1
  | forward2
  | functions
  | callEdges
  | objects
  | links
deriving DecidableEq, Repr

abbrev QueryFaults := Query → Option Failure

/-- No query fails. -/
def unfailing : QueryFaults := fun _ => none

/-- The order in which a query delivers the rows it selects. -/
structure RowOrder where
  arrange : Query → List Int → List Int
  perm : ∀ q rows, (arrange q rows).Perm rows

/-- What the verifier was constructed with. -/
inductive Backend where
  | noStore
  | noHandle
  | database (db : Facts)

section Queries

variable (order : RowOrder) (faults : QueryFaults)

/-- The ids a loop over a query collects; nothing when the prepare fails. -/
def selectIds (q : Query) (rows : List Int) : Option (List Int) :=
  collect (faults q) (order.arrange q rows)

/-- The same with a `LIMIT`. -/
def selectLimited (q : Query) (limit : ℕ) (rows : List Int) : Option (List Int) :=
  collect (faults q) ((order.arrange q rows).take limit)

/-- A caller that takes a failing prepare for an empty result. -/
def idsOrNone (seen : Option (List Int)) : List Int := seen.getD []

variable (db : Facts) (project : ℕ)

/-- The two counts of `evidence_backend_ready`. -/
def entityCount : ℕ := countRows (faults .entityCount) (db.entitiesOf project).length

def relationCount : ℕ := countRows (faults .relationCount) (db.relationsOf project).length

def evidenceBackendReady : Bool :=
  0 < entityCount faults db project && 0 < relationCount faults db project

end Queries

/-- A record without facts. -/
def plainRecord (name : String) (verdict : Verdict) (confidence : ℚ) (detail : Str) :
    EvidenceRecord :=
  { claimId := 0, verdict, confidence, verifierName := str name, detail, facts := [] }

/-- `kConfNoStore` and `kConfBackendNotReady`, the same in all verifiers. -/
def kConfNoStore : ℚ := 0
def kConfBackendNotReady : ℚ := 2 / 10

def notReady (name : String) (entities relations : ℕ) : EvidenceRecord :=
  plainRecord name .unknown kConfBackendNotReady
    (str name ++ str ": evidence backend not ready (entity=" ++ toStr entities ++
      str ", relation=" ++ toStr relations ++ str ")")

/-- The checks every verifier begins with. -/
def gated (name : String) (faults : QueryFaults) (backend : Backend) (project : ℕ)
    (body : Facts → EvidenceRecord) : EvidenceRecord :=
  match backend with
  | .noStore => plainRecord name .unknown kConfNoStore (str name ++ str ": store unavailable")
  | .noHandle => notReady name 0 0
  | .database db =>
      if evidenceBackendReady faults db project then body db
      else notReady name (entityCount faults db project) (relationCount faults db project)

def nodeFacts (ids : List Int) : List (FactKind × Int) := ids.map fun i => (.node, i)
def edgeFacts (ids : List Int) : List (FactKind × Int) := ids.map fun i => (.edge, i)

/-! ## CapabilityVerifier -/

namespace CapabilityVerifier

def kConfCapabilityNotDeclared : ℚ := 9 / 10
def kConfCapabilityNoCallers : ℚ := 7 / 10
def kConfCapabilitySupported : ℚ := 85 / 100

variable (order : RowOrder) (faults : QueryFaults) (db : Facts) (project : ℕ)

/-- The capabilities whose name starts with the subject. -/
def declaredRows (subject : Str) : List Declared :=
  let pattern := escapeWith '\\' ['\\', '%', '_'] subject ++ ['%']
  db.capability.filter fun c =>
    decide (c.project = project) && like (some '\\') (lower pattern) (lower c.name)

/-- `capabilityDeclared`: nothing for −1. A step that fails counts as not declared. -/
def capabilityDeclared (subject : Str) : Option Bool :=
  (collect (faults .capability) ((declaredRows db project subject).take 1)).map (! ·.isEmpty)

def verifyOpen (claim : Claim) : EvidenceRecord :=
  let record := plainRecord "CapabilityVerifier"
  match capabilityDeclared faults db project claim.subject with
  | none => record .unknown kConfBackendNotReady
      (str "CapabilityVerifier: capability lookup failed " ++
        str "[module=verify, method=CapabilityVerifier::verify]")
  | some false => record .contradicted kConfCapabilityNotDeclared
      (str "Capability '" ++ claim.subject ++ str "' not declared in knowledge layer")
  | some true =>
      match implementingEntitiesFor db project claim.subject (order.arrange .implementing)
          (faults .implementing) with
      | none => record .unknown kConfBackendNotReady
          (str "CapabilityVerifier: entity lookup failed " ++
            str "[module=verify, method=CapabilityVerifier::verify]")
      | some [] => record .contradicted kConfCapabilityNoCallers
          (str "Capability '" ++ claim.subject ++ str "' declared but no implementing entity " ++
            str "(nothing calls it and it is not exported)")
      | some (id :: ids) =>
          { record .supported kConfCapabilitySupported
              (str "Capability '" ++ claim.subject ++ str "' supported by " ++
                toStr (id :: ids).length ++ str " implementing entit" ++
                if ids = [] then str "y" else str "ies") with
            facts := nodeFacts (id :: ids) }

def verify (backend : Backend) (claim : Claim) : EvidenceRecord :=
  gated "CapabilityVerifier" faults backend project fun db =>
    verifyOpen order faults db project claim

end CapabilityVerifier

/-! ## ContractVerifier -/

namespace ContractVerifier

def kConfContractUndeclared : ℚ := 5 / 10
def kConfZeroCopySupported : ℚ := 6 / 10
def kConfZeroCopyNotFound : ℚ := 3 / 10
def kConfUnrecognisedContract : ℚ := 3 / 10
def kConfThreadSafeSupported : ℚ := 7 / 10
def kConfThreadSafeUnknown : ℚ := 4 / 10
def kConfMemorySafeSupported : ℚ := 6 / 10
def kConfMemorySafeNotFound : ℚ := 4 / 10

variable (order : RowOrder) (faults : QueryFaults) (db : Facts) (project : ℕ)

def normalizeContractName (s : Str) : Str :=
  lower (s.filter fun c => c ≠ '-' ∧ c ≠ ' ' ∧ c ≠ '\t')

def contractRows (subject : Str) : List Declared :=
  db.contract.filter fun c =>
    decide (c.project = project) && decide (c.name = normalizeContractName subject)

/-- `contractDeclared`; a failure counts as not declared. -/
def contractDeclared (subject : Str) : Bool :=
  ! ((collect (faults .contract) ((contractRows db project subject).take 1)).getD []).isEmpty

/-- The entities whose name matches a pattern, `_` standing for itself. -/
def matchingAny (patterns : List Str) : List Int :=
  ((db.entitiesOf project).filter fun e => patterns.any fun p =>
    like (some '\\') (lower (escapeWith '\\' ['\\', '_'] p)) (lower e.name)).map EntityRow.id

def entitiesMatchingAny (patterns : List Str) : List Int :=
  if patterns = [] then []
  else idsOrNone (selectIds order faults .evidence (matchingAny db project patterns))

def kSyncEvidencePatterns : List Str :=
  [str "%mutex%", str "%atomic%", str "%spinlock%", str "%rwlock%", str "%semaphore%",
    str "%condition_variable%", str "%.lock", str "%.unlock", str "%.rlock", str "%.wlock",
    str "%_lock", str "%_unlock", str "%lock_guard%", str "%lockguard%", str "%unique_lock%",
    str "%shared_lock%", str "%uniquelock%", str "%sharedlock%"]

def memoryPatterns : List Str :=
  [str "%free%", str "%alloc%", str "%unique_ptr%", str "%shared_ptr%"]

def zeroCopyPatterns : List Str :=
  [str "%span%", str "%slice%", str "view%", str "%.view", str "%_view"]

/-- The answer of a contract rule: supported by the entities that match its patterns, unknown
    without any. -/
def byPatterns (patterns : List Str) (found missing : ℚ) (foundText missingText : Str) :
    EvidenceRecord :=
  match entitiesMatchingAny order faults db project patterns with
  | [] => plainRecord "ContractVerifier" .unknown missing missingText
  | id :: ids =>
      { plainRecord "ContractVerifier" .supported found foundText with
        facts := nodeFacts (id :: ids) }

def verifyThreadSafe : EvidenceRecord :=
  byPatterns order faults db project kSyncEvidencePatterns kConfThreadSafeSupported
    kConfThreadSafeUnknown (str "ThreadSafe: found mutex/atomic/lock entities")
    (str "ThreadSafe: no synchronisation primitive matched (mutex/atomic/lock guard); " ++
      str "a name pattern not matching is not evidence that the code is unsafe")

def verifyMemorySafe : EvidenceRecord :=
  byPatterns order faults db project memoryPatterns kConfMemorySafeSupported
    kConfMemorySafeNotFound (str "MemorySafe: found memory-management entities")
    (str "MemorySafe: no free/alloc/unique_ptr/shared_ptr entities found")

def verifyZeroCopy : EvidenceRecord :=
  byPatterns order faults db project zeroCopyPatterns kConfZeroCopySupported kConfZeroCopyNotFound
    (str "ZeroCopy: found view/span/slice entities")
    (str "ZeroCopy: no view/span/slice entities found")

def verifyOpen (claim : Claim) : EvidenceRecord :=
  if contractDeclared faults db project claim.subject = false then
    plainRecord "ContractVerifier" .unknown kConfContractUndeclared (str "No contract declared")
  else if normalizeContractName claim.subject = str "threadsafe" then
    verifyThreadSafe order faults db project
  else if normalizeContractName claim.subject = str "memorysafe" then
    verifyMemorySafe order faults db project
  else if normalizeContractName claim.subject = str "zerocopy" then
    verifyZeroCopy order faults db project
  else
    plainRecord "ContractVerifier" .unknown kConfUnrecognisedContract
      (str "No verifier rule for contract '" ++ claim.subject ++ str "'")

def verify (backend : Backend) (claim : Claim) : EvidenceRecord :=
  gated "ContractVerifier" faults backend project fun db =>
    verifyOpen order faults db project claim

end ContractVerifier

/-! ## ArchitectureVerifier -/

namespace ArchitectureVerifier

def kConfidenceSupported : ℚ := 8 / 10
def kConfidenceContradicted : ℚ := 75 / 100
def kConfidenceLayerNotFound : ℚ := 4 / 10
def kConfidenceNoEdges : ℚ := 5 / 10

variable (order : RowOrder) (faults : QueryFaults) (db : Facts) (project : ℕ)

/-- The name suffixes and the path patterns of a layer, by its name. -/
def layerPatterns (layerName : Str) : List Str × List Str :=
  let lowerName := lower layerName
  if lowerName = str "controller" then
    ([layerName], [str "%/controllers/%", str "%/api/%"])
  else if lowerName = str "service" then ([layerName], [str "%/services/%"])
  else if lowerName = str "repository" then
    ([str "Repository", str "Repo", str "Store", str "DAO"],
      [str "%/repository/%", str "%/data/%"])
  else ([layerName], [str "%/" ++ lowerName ++ str "s/%"])

/-- The rows of the query of `collectLayerNodes`; the layer name is not escaped. -/
def layerRows (layerName : Str) : List Int :=
  let (nameSuffixes, pathPatterns) := layerPatterns layerName
  ((db.entitiesOf project).filter fun e =>
    (nameSuffixes.any fun s => like (some '\\') ('%' :: lower s) (lower e.name)) ||
      pathPatterns.any fun p => like none p e.filePath).map EntityRow.id

def collectLayerNodes (q : Query) (layerName : Str) : List Int :=
  if layerName = [] then []
  else idsOrNone (selectIds order faults q (layerRows db project layerName))

/-- The Calls relations from the second set of entities into the first. -/
def reverseRows (sourceIds sinkIds : List Int) : List Int :=
  ((db.callsOf project).filter fun r => r.sourceId ∈ sinkIds ∧ r.targetId ∈ sourceIds).map
    Relation.id

def findReverseCalls (q : Query) (sourceIds sinkIds : List Int) : List Int :=
  if sourceIds = [] ∨ sinkIds = [] then []
  else idsOrNone (selectIds order faults q (reverseRows db project sourceIds sinkIds))

/-- `sqlite3_column_int`: the low 32 bits. -/
def columnInt (n : ℕ) : Int := Int.bmod n (2 ^ 32)

def countForwardCalls (q : Query) (upperIds lowerIds : List Int) : Int :=
  if upperIds = [] ∨ lowerIds = [] then 0
  else columnInt (countRows (faults q) ((db.callsOf project).filter fun r =>
    r.sourceId ∈ upperIds ∧ r.targetId ∈ lowerIds).length)

/-- The members found for the three layers of a claim. -/
structure Layers where
  layer1 : List Int
  layer2 : List Int
  layer3 : List Int
deriving DecidableEq

def layersOf (claim : Claim) : Layers where
  layer1 := collectLayerNodes order faults db project .layer1 claim.subject
  layer2 := collectLayerNodes order faults db project .layer2 claim.object
  layer3 := collectLayerNodes order faults db project .layer3 claim.scope

/-- The calls of a lower layer into a higher one. -/
def violationsOf (l : Layers) : List Int :=
  findReverseCalls order faults db project .reverse1 l.layer1 l.layer3 ++
    findReverseCalls order faults db project .reverse2 l.layer2 l.layer3 ++
    findReverseCalls order faults db project .reverse3 l.layer1 l.layer2

def forward1 (l : Layers) : Int :=
  countForwardCalls faults db project .forward1 l.layer1 l.layer2

def forward2 (l : Layers) : Int :=
  countForwardCalls faults db project .forward2 l.layer2 l.layer3

/-- The verdict on three layers that all have members. -/
def judge (claim : Claim) (l : Layers) : EvidenceRecord :=
  let record := plainRecord "ArchitectureVerifier"
  let violations := violationsOf order faults db project l
  let forward1 := forward1 faults db project l
  let forward2 := forward2 faults db project l
  if violations ≠ [] then
    { record .contradicted kConfidenceContradicted
        (str "Found " ++ toStr violations.length ++
          str " reverse call(s) violating the layered flow") with
      facts := edgeFacts violations }
  else if forward1 = 0 ∧ forward2 = 0 then
    record .unknown kConfidenceNoEdges
      (str "No forward calls between layers; claim is vacuously true")
  else
    { record .supported kConfidenceSupported
        (str "Layered flow verified: " ++ claim.subject ++ str " -> " ++ claim.object ++
          str " -> " ++ claim.scope ++ str " (" ++ toStr (forward1 + forward2) ++
          str " forward calls)") with
      facts := nodeFacts (l.layer1.take 1 ++ l.layer2.take 1 ++ l.layer3.take 1) }

def layerNotFound (layerName : Str) : EvidenceRecord :=
  plainRecord "ArchitectureVerifier" .unknown kConfidenceLayerNotFound
    (str "Layer '" ++ layerName ++ str "' not detected in codebase")

def verifyOpen (claim : Claim) : EvidenceRecord :=
  let l := layersOf order faults db project claim
  if l.layer1 = [] then layerNotFound claim.subject
  else if l.layer2 = [] then layerNotFound claim.object
  else if l.layer3 = [] then layerNotFound claim.scope
  else judge order faults db project claim l

def verify (backend : Backend) (claim : Claim) : EvidenceRecord :=
  gated "ArchitectureVerifier" faults backend project fun db =>
    verifyOpen order faults db project claim

end ArchitectureVerifier

/-! ## FunctionImplementsVerifier -/

namespace FunctionImplementsVerifier

def kConfFunctionNotFound : ℚ := 85 / 100
def kConfFunctionIsolated : ℚ := 55 / 100
def kConfFunctionStructuralOnly : ℚ := 55 / 100
def kConfFunctionObjectLinked : ℚ := 75 / 100

/-- `kEntityKindFunction` and `kEntityKindMethod` -/
def entityKinds : List ℕ := [0, 1]

variable (order : RowOrder) (faults : QueryFaults) (db : Facts) (project : ℕ)

def functionRows (subject : Str) : List Int :=
  ((db.entitiesOf project).filter fun e =>
    decide (e.kind ∈ entityKinds) && decide (lower e.name = lower subject)).map EntityRow.id

/-- `findFunctionEntities`; nothing when `out_ok` is false. -/
def findFunctionEntities (subject : Str) : Option (List Int) :=
  if subject = [] then some []
  else selectIds order faults .functions (functionRows db project subject)

/-- The Calls relations into or out of some entities. -/
def touchingRows (entityIds : List Int) : List Int :=
  ((db.callsOf project).filter fun r => r.sourceId ∈ entityIds ∨ r.targetId ∈ entityIds).map
    Relation.id

def collectCallEdges (entityIds : List Int) : List Int :=
  if entityIds = [] then []
  else idsOrNone (selectLimited order faults .callEdges 20 (touchingRows db project entityIds))

/-- `std::isalnum` of the C locale. -/
def isAsciiAlnum (c : Char) : Bool := c.isAlphanum

def findObjectEntities (object : Str) : List Int :=
  let pattern := lower (object.filter isAsciiAlnum)
  let squeeze (s : Str) : Str := lower (replaceChar ' ' [] (replaceChar '_' [] s))
  if pattern = [] then []
  else
    let matching (s : Str) : Bool := like none (str "%" ++ pattern ++ str "%") (squeeze s)
    idsOrNone (selectLimited order faults .objects 50
      (((db.entitiesOf project).filter fun e => matching e.name || matching e.qualifiedName).map
        EntityRow.id))

def subjectCallsObject (subjectIds objectIds : List Int) : List Int :=
  if subjectIds = [] ∨ objectIds = [] then []
  else idsOrNone (selectLimited order faults .links 50
    (((db.callsOf project).filter fun r =>
      r.sourceId ∈ subjectIds ∧ r.targetId ∈ objectIds).map Relation.id))

/-- The record for a function with call edges. -/
def supported (claim : Claim) (fnIds edges : List Int) : EvidenceRecord :=
  let record := plainRecord "FunctionImplementsVerifier" .supported
  let structural := str "Function '" ++ claim.subject ++
    str "' exists and participates in the call graph (structural check only); " ++
    str "semantic implementation of '" ++ claim.object ++ str "' is not verified — " ++
    toStr fnIds.length ++ str " entit(y/ies) and " ++ toStr edges.length ++
    str " call edge(s) found in canonical facts"
  let objectIds := findObjectEntities order faults db project claim.object
  let linkEdges := subjectCallsObject order faults db project fnIds objectIds
  if objectIds = [] then
    { record kConfFunctionStructuralOnly (structural ++ str "; claimed object '" ++ claim.object ++
        str "' has no matching entity in the graph — call-chain confirmation unavailable") with
      facts := nodeFacts fnIds ++ edgeFacts edges }
  else if linkEdges = [] then
    { record kConfFunctionStructuralOnly (structural ++ str "; claimed object '" ++ claim.object ++
        str "' has " ++ toStr objectIds.length ++ str " entit(y/ies) in the graph, but the " ++
        str "function does not call them (no call-chain link found)") with
      facts := nodeFacts fnIds ++ edgeFacts edges }
  else
    { record kConfFunctionObjectLinked (str "Function '" ++ claim.subject ++
        str "' exists, participates in the call graph, and invokes " ++ toStr objectIds.length ++
        str " entit(y/ies) matching claimed object '" ++ claim.object ++ str "' via " ++
        toStr linkEdges.length ++
        str " call relation(s) — call-chain evidence for the implementation claim") with
      facts := nodeFacts fnIds ++
        edgeFacts (linkEdges.foldl (fun known e => if e ∈ known then known else known ++ [e])
          edges) }

def verifyOpen (claim : Claim) : EvidenceRecord :=
  let record := plainRecord "FunctionImplementsVerifier"
  match findFunctionEntities order faults db project claim.subject with
  | none => record .unknown kConfBackendNotReady
      (str "FunctionImplementsVerifier: function lookup failed [module=verify, " ++
        str "method=FunctionImplementsVerifier::verify]")
  | some [] => record .contradicted kConfFunctionNotFound
      (str "Function '" ++ claim.subject ++ str "' not found in canonical entity table")
  | some (id :: ids) =>
      match collectCallEdges order faults db project (id :: ids) with
      | [] =>
          { record .unknown kConfFunctionIsolated
              (str "Function '" ++ claim.subject ++ str "' exists but has no callers/callees — " ++
                str "isolated, cannot confirm it implements the claimed behavior") with
            facts := nodeFacts (id :: ids) }
      | edge :: edges => supported order faults db project claim (id :: ids) (edge :: edges)

def verify (backend : Backend) (claim : Claim) : EvidenceRecord :=
  gated "FunctionImplementsVerifier" faults backend project fun db =>
    verifyOpen order faults db project claim

end FunctionImplementsVerifier

end CodeScope.Verify
