import CodeScope.Query.CallGraph
import CodeScope.Query.GraphQuery

/-! # Running a graph query

The two filters of a query are resolved to ids first. A query for one hop selects relations, at most
10000 of them, and stops at the client's limit. A query for several hops searches the packed calls
from each source in turn: it keeps the whole path of every branch and no set of visited nodes, goes
no further from a node of the target filter, and stops at a budget, at a number of rows, or at the
client's limit. -/

namespace CodeScope.Query

open Text Walks

def kMultiHopMaxRows : ℕ := 10000

def kMultiHopExpansionBudget : ℕ := 200000

/-- The LIMIT in the statement for one hop. -/
def kSingleHopRows : ℕ := 10000

/-- A row of `relation`. -/
structure Relation where
  id : ℕ
  projectId : ℕ
  sourceId : ℕ
  targetId : ℕ
  type : Int
deriving DecidableEq

/-- What a query reads. The packed calls of an entity are the CALLS relations of its project without
    the self-calls. -/
structure QueryDb where
  entities : EntityTable
  relations : List Relation
  graph : CallGraph
  in_step : ∀ e ∈ entities.rows, ∀ b : ℕ, b ∈ graph.getCalleeIds e.id ↔ e.id ≠ b ∧
    ∃ r ∈ relations, r.projectId = e.projectId ∧ r.type = 1 ∧ r.sourceId = e.id ∧ r.targetId = b

/-! ## The filters -/

/-- The type 0 stands for functions and methods. -/
def kindMatches (typeVal kind : Int) : Bool :=
  if typeVal < 0 then true
  else if typeVal = 0 then kind = 0 || kind = 1
  else kind = typeVal

/-- The condition on a row for a filter. -/
def NodeFilter.Matches (f : NodeFilter) (projectId : ℕ) (e : Entity) : Prop :=
  e.projectId = projectId ∧ kindMatches f.typeVal e.kind = true ∧
    (f.name = [] ∨ e.name = f.name ∨ e.qualifiedName = f.name)

instance (f : NodeFilter) (projectId : ℕ) (e : Entity) : Decidable (f.Matches projectId e) :=
  inferInstanceAs (Decidable (_ ∧ _ ∧ _))

def resolveEntities (E : EntityTable) (projectId : ℕ) (f : NodeFilter) : List ℕ :=
  (E.rows.filter fun e => f.Matches projectId e).map (·.id)

/-! ## Rows -/

structure NodeInfo where
  id : ℕ
  name : Str
  type : Int
  file : Str
deriving DecidableEq

/-- `readEntity` -/
def nodeInfo (E : EntityTable) (id : ℕ) : NodeInfo :=
  match E.rows.find? fun e => e.id = id with
  | some e => ⟨id, e.name, e.kind, e.filePath⟩
  | none => ⟨id, [], 0, []⟩

@[simp] theorem nodeInfo_id (E : EntityTable) (id : ℕ) : (nodeInfo E id).id = id := by
  rw [nodeInfo]
  split <;> rfl

/-- A result: the edge of one hop, or the depth and the chain of several. -/
inductive Link where
  | edge (id : ℕ) (type : Int)
  | chain (depth : ℕ) (nodes : List ℕ)
deriving DecidableEq

structure QueryRow where
  source : NodeInfo
  target : NodeInfo
  link : Link
deriving DecidableEq

structure QueryResponse where
  results : List QueryRow
  total : ℕ
  truncated : Bool
  hint : Option Str
  error : Option Str
deriving DecidableEq

def errorResponse (message : Str) : QueryResponse := ⟨[], 0, false, none, some message⟩

/-! ## One hop -/

/-- The relations that the statement selects before its LIMIT. -/
def matchingRelations (db : QueryDb) (projectId : ℕ) (edgeType : Int) (srcIds tgtIds : List ℕ) :
    List Relation :=
  db.relations.filter fun r => r.projectId = projectId ∧ (edgeType < 0 ∨ r.type = edgeType) ∧
    r.sourceId ∈ srcIds ∧ r.targetId ∈ tgtIds

def edgeRow (E : EntityTable) (edgeType : Int) (r : Relation) : QueryRow :=
  ⟨nodeInfo E r.sourceId, nodeInfo E r.targetId, .edge r.id edgeType⟩

/-- The loop over the selected rows; it tells whether the client's limit cut them. -/
def takeRows (userLimit : Int) (rowCount : ℕ) : List QueryRow → List QueryRow × Bool
  | [] => ([], false)
  | row :: rows =>
    if 0 < userLimit ∧ userLimit ≤ rowCount then ([], true)
    else
      let r := takeRows userLimit (rowCount + 1) rows
      (row :: r.1, r.2)

def singleHop (db : QueryDb) (projectId : ℕ) (q : GraphQuery) (srcIds tgtIds : List ℕ) :
    List QueryRow × Bool :=
  takeRows q.userLimit 0 (((matchingRelations db projectId q.edgeType srcIds tgtIds).take
    kSingleHopRows).map (edgeRow db.entities q.edgeType))

/-! ## Several hops -/

/-- A branch of the search: the nodes behind the start, and the depth of the next one. -/
structure Branch where
  start : ℕ
  steps : List ℕ
  depth : ℕ
deriving DecidableEq

namespace Branch

def path (e : Branch) : List ℕ := e.start :: e.steps

/-- `path.back()` -/
def node (e : Branch) : ℕ := e.steps.getLastD e.start

def extend (e : Branch) (n : ℕ) : Branch := ⟨e.start, e.steps ++ [n], e.depth + 1⟩

end Branch

/-- What a search for several hops is given. -/
structure HopQuery where
  db : QueryDb
  tgtIds : List ℕ
  minDepth : ℕ
  maxDepth : ℕ
  userLimit : Int

structure HopSearch where
  expansions : ℕ
  rows : List QueryRow
  truncated : Bool

namespace HopQuery

variable (h : HopQuery)

def callees (n : ℕ) : List ℕ := h.db.graph.getCalleeIds n

def hopRow (e : Branch) (n : ℕ) : QueryRow :=
  ⟨nodeInfo h.db.entities e.start, nodeInfo h.db.entities n, .chain e.depth (e.extend n).path⟩

/-- One callee of the node of a branch: it can give a row, and it can be searched further. -/
def visitCallee (e : Branch) (s : List QueryRow × List Branch) (n : ℕ) :
    List QueryRow × List Branch :=
  let isTgt := n ∈ h.tgtIds
  let rows := if isTgt ∧ h.minDepth ≤ e.depth then s.1 ++ [h.hopRow e n] else s.1
  let bfs := if e.depth < h.maxDepth ∧ ¬isTgt then s.2 ++ [e.extend n] else s.2
  (rows, bfs)

/-- The rows that a branch gives. -/
def emits (e : Branch) : List QueryRow :=
  ((h.callees e.node).filter fun n => n ∈ h.tgtIds ∧ h.minDepth ≤ e.depth).map (h.hopRow e)

/-- The branches that a branch opens. -/
def opens (e : Branch) : List Branch :=
  ((h.callees e.node).filter fun n => e.depth < h.maxDepth ∧ n ∉ h.tgtIds).map e.extend

theorem foldl_visitCallee (e : Branch) (rows : List QueryRow) (bfs : List Branch) :
    (h.callees e.node).foldl (h.visitCallee e) (rows, bfs) =
      (rows ++ h.emits e, bfs ++ h.opens e) := by
  rw [emits, opens]
  generalize h.callees e.node = nbs
  induction nbs generalizing rows bfs with
  | nil => simp
  | cons n nbs ih =>
      rw [List.foldl_cons]
      simp only [visitCallee]
      rw [ih]
      by_cases hemit : n ∈ h.tgtIds ∧ h.minDepth ≤ e.depth
      · have hopen : ¬(e.depth < h.maxDepth ∧ n ∉ h.tgtIds) := fun ho => ho.2 hemit.1
        simp [hemit, List.append_assoc]
      · by_cases hopen : e.depth < h.maxDepth ∧ n ∉ h.tgtIds
        · simp [hopen, List.append_assoc]
        · simp [hemit, hopen]

/-- A bound is reached before a branch is expanded. -/
def Bounded (expansions rowCount : ℕ) : Prop :=
  kMultiHopExpansionBudget < expansions ∨ kMultiHopMaxRows ≤ rowCount ∨
    (0 < h.userLimit ∧ h.userLimit ≤ rowCount)

instance (expansions rowCount : ℕ) : Decidable (h.Bounded expansions rowCount) :=
  inferInstanceAs (Decidable (_ ∨ _ ∨ _))

/-- What is left to do for the branches of a queue. -/
def pendingWork (bfs : List Branch) : ℕ :=
  (bfs.map fun e => work h.callees (h.maxDepth + 1 - e.depth) e.node).sum

theorem node_extend (e : Branch) (n : ℕ) : (e.extend n).node = n := by
  simp [Branch.extend, Branch.node]

theorem pendingWork_opens {e : Branch} (hdepth : e.depth ≤ h.maxDepth) :
    h.pendingWork (h.opens e) < work h.callees (h.maxDepth + 1 - e.depth) e.node := by
  refine Nat.lt_of_le_of_lt ?_ (work_expand h.callees (by omega) e.node)
  rw [pendingWork, opens, List.map_map]
  generalize h.callees e.node = nbs
  induction nbs with
  | nil => exact Nat.le_refl _
  | cons n nbs ih =>
      have hleft : h.maxDepth + 1 - (e.extend n).depth = h.maxDepth + 1 - e.depth - 1 := by
        simp only [Branch.extend]
        omega
      rw [List.map_cons, List.sum_cons]
      by_cases hopen : e.depth < h.maxDepth ∧ n ∉ h.tgtIds
      · rw [List.filter_cons_of_pos (by simpa using hopen), List.map_cons, List.sum_cons]
        simp only [Function.comp_apply, hleft, node_extend]
        exact Nat.add_le_add_left ih _
      · rw [List.filter_cons_of_neg (by simpa using hopen)]
        exact Nat.le_trans ih (Nat.le_add_left _ _)

/-- The loop over the queue of one source. -/
def hopLoop (bfs : List Branch) (s : HopSearch) : HopSearch :=
  match bfs with
  | [] => s
  | e :: rest =>
    if h.maxDepth < e.depth then hopLoop rest s
    else if h.Bounded (s.expansions + 1) s.rows.length then
      { s with expansions := s.expansions + 1, truncated := true }
    else
      let r := (h.callees e.node).foldl (h.visitCallee e) (s.rows, rest)
      hopLoop r.2 { s with expansions := s.expansions + 1, rows := r.1 }
termination_by h.pendingWork bfs
decreasing_by
  · rw [pendingWork, pendingWork, List.map_cons, List.sum_cons]
    exact Nat.lt_add_of_pos_left (work_pos ..)
  · rename_i hdepth _
    have hopens := h.pendingWork_opens (Nat.le_of_not_lt hdepth)
    rw [foldl_visitCallee]
    simp only [pendingWork, List.map_append, List.sum_append, List.map_cons, List.sum_cons]
      at hopens ⊢
    omega

/-- The loop over the sources. -/
def hopSources : List ℕ → HopSearch → HopSearch
  | [], s => s
  | start :: rest, s =>
    let s := h.hopLoop [⟨start, [], 1⟩] s
    if s.truncated then s else hopSources rest s

end HopQuery

def hopQuery (db : QueryDb) (q : GraphQuery) (tgtIds : List ℕ) : HopQuery :=
  ⟨db, tgtIds, q.minDepth.toNat, q.maxDepth.toNat, q.userLimit⟩

def multiHop (order : HashOrder) (db : QueryDb) (q : GraphQuery) (srcIds tgtIds : List ℕ) :
    List QueryRow × Bool :=
  let s := (hopQuery db q tgtIds).hopSources (order.list srcIds) ⟨0, [], false⟩
  (s.rows, s.truncated)

/-! ## The query -/

/-- The text that tells which kinds a name has when its type matched none of them. -/
def kindHint (E : EntityTable) (projectId : ℕ) (f : NodeFilter) : Option Str :=
  if f.name = [] ∨ f.typeVal < 0 then none
  else
    let kinds := ((E.rows.filter fun e => e.projectId = projectId ∧
      (e.name = f.name ∨ e.qualifiedName = f.name)).map (·.kind)).eraseDups
    let other := kinds.filter fun k => ¬kindMatches f.typeVal k
    if other = [] then none
    else
      some (str "no " ++ f.label ++ str " named '" ++ f.name ++
        str "' matched; the name exists under entity kind " ++
        List.intercalate (str ",") (other.map fun k => str (toString k)) ++
        str " (kind assignment is translator-specific, e.g. a constructor shares its class's name)"
        ++ str " — retry without the type label to see them")

/-- The answer when a filter matches nothing. -/
def emptyResponse (E : EntityTable) (projectId : ℕ) (q : GraphQuery) (srcIds tgtIds : List ℕ) :
    QueryResponse :=
  let hints := (if srcIds = [] then (kindHint E projectId q.source).toList else []) ++
    (if tgtIds = [] then (kindHint E projectId q.target).toList else [])
  { results := [], total := 0, truncated := false, error := none
    hint := if hints = [] then none else some (List.intercalate (str "; ") hints) }

/-- A parsed query. -/
def runQuery (order : HashOrder) (db : QueryDb) (projectId : ℕ) (q : GraphQuery) :
    QueryResponse :=
  let srcIds := resolveEntities db.entities projectId q.source
  let tgtIds := resolveEntities db.entities projectId q.target
  if srcIds = [] ∨ tgtIds = [] then emptyResponse db.entities projectId q srcIds tgtIds
  else
    let r := if q.multiHop then multiHop order db q srcIds tgtIds
      else singleHop db projectId q srcIds tgtIds
    { results := r.1, total := r.1.length, truncated := r.2, hint := none, error := none }

def executeGraphQuery (order : HashOrder) (store : Option QueryDb) (projectId : ℕ) (dsl : Str) :
    QueryResponse :=
  match parseGraphQuery dsl with
  | .error message => errorResponse message
  | .ok q =>
    match store with
    | none =>
      errorResponse (str "graph not ready [module=graph_query, method=executeGraphQuery]")
    | some db => runQuery order db projectId q

end CodeScope.Query
