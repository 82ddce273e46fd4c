import Mathlib.Data.Finset.Sort
import CodeScope.Library.Grouping
import CodeScope.Library.Tally
import CodeScope.Query.ChangeImpact
import CodeScope.Query.QueryRun

/-! # Communities of the call graph

`QueryEngine::getCommunities` lets labels spread over the undirected call graph and reports the
nodes with one label as a community. Nodes, labels and neighbours are positions in the sorted list
of the ids. A sweep reads the labels of the round before and writes those of the next; the counters
it counts labels with are one array for all nodes. -/

namespace CodeScope.Query

open Text Tally Grouping

def kMaxLpaIterations : ℕ := 20
def kDefaultMaxCommunities : ℤ := 20
def kMaxCommunitiesCap : ℤ := 500
def kDefaultMaxMembers : ℤ := 10
def kMaxMembersCap : ℤ := 200
def kMaxTotalMembersEmitted : ℕ := 5000

/-! ## The graph -/

abbrev Edge := ℕ × ℕ

/-- The rows of the statement in step 1. -/
def callRows (relations : List Relation) (projectId : ℕ) : List Edge :=
  ((relations.filter fun r => r.projectId = projectId ∧ r.type = 1).map
    fun r => (r.sourceId, r.targetId)).mergeSort
      fun a b => decide (a.1 < b.1 ∨ (a.1 = b.1 ∧ a.2 ≤ b.2))

/-- The edges between two entities; the id 0 stands for no entity. -/
def callEdges (relations : List Relation) (projectId : ℕ) : List Edge :=
  (callRows relations projectId).filter fun e => !decide (e.1 = 0 ∨ e.2 = 0 ∨ e.1 = e.2)

/-- `node_ids`: the ends of the edges, sorted and without repetition. -/
def nodeIds (edges : List Edge) : List ℕ :=
  (edges.flatMap fun e => [e.1, e.2]).toFinset.sort

def indexOf (edges : List Edge) (id : ℕ) : ℕ := (nodeIds edges).idxOf id

/-- The two entries of one edge. -/
def pushEdge (edges : List Edge) (adj : ℕ → List ℕ) (e : Edge) : ℕ → List ℕ :=
  let a := indexOf edges e.1
  let b := indexOf edges e.2
  let adj := Function.update adj a (adj a ++ [b])
  Function.update adj b (adj b ++ [a])

/-- `adj`: the neighbours of each node, sorted and without repetition. -/
def adjacency (edges : List Edge) (i : ℕ) : List ℕ :=
  (edges.foldl (pushEdge edges) (fun _ => []) i).toFinset.sort

/-! ## Label propagation -/

/-- `label`, `next_label`, `label_count` and `changed`. -/
structure Lpa where
  label : ℕ → ℕ
  next_label : ℕ → ℕ
  label_count : ℕ → ℕ
  changed : Bool

/-- The smallest candidate with the best count, if there is one. -/
def smallestOf (counts : ℕ → ℕ) (best_count : ℕ) (touched : List ℕ) : Option ℕ :=
  touched.foldl (fun smallest candidate =>
    if counts candidate ≠ best_count then smallest
    else match smallest with
      | none => some candidate
      | some s => if candidate < s then some candidate else some s) none

/-- The next label of a node: its own when that is among the most frequent ones of its neighbours,
    else the smallest of them. -/
def pickLabel (counts : ℕ → ℕ) (touched : List ℕ) (current : ℕ) : ℕ :=
  let best_count := touched.foldl (fun best candidate => max best (counts candidate)) 0
  if touched.any fun candidate => counts candidate = best_count && candidate = current then current
  else (smallestOf counts best_count touched).getD current

/-- One node of a sweep. -/
def visitNode (adj : ℕ → List ℕ) (s : Lpa) (i : ℕ) : Lpa :=
  if (adj i).isEmpty then { s with next_label := Function.update s.next_label i (s.label i) }
  else
    let scratch := tally s.label_count ((adj i).map s.label)
    let best := pickLabel scratch.counts scratch.touched (s.label i)
    { label := s.label
      next_label := Function.update s.next_label i best
      label_count := reset scratch.counts scratch.touched
      changed := s.changed || best != s.label i }

/-- A round up to the node `m`. -/
def sweep (adj : ℕ → List ℕ) (s : Lpa) (m : ℕ) : Lpa :=
  (List.range m).foldl (visitNode adj) { s with changed := false }

/-- `label.swap(next_label)`. -/
def Lpa.swap (s : Lpa) : Lpa := { s with label := s.next_label, next_label := s.label }

/-- The rounds: until nothing changes, at most so many. -/
def propagate (adj : ℕ → List ℕ) (n : ℕ) : ℕ → Lpa → Lpa
  | 0, s => s
  | rounds + 1, s =>
    if (sweep adj s n).changed then propagate adj n rounds (sweep adj s n).swap
    else (sweep adj s n).swap

/-- Every node is its own community. -/
def Lpa.start : Lpa :=
  { label := id, next_label := fun _ => 0, label_count := fun _ => 0, changed := false }

/-- The label of each node after the last round. -/
def finalLabel (edges : List Edge) : ℕ → ℕ :=
  (propagate (adjacency edges) (nodeIds edges).length kMaxLpaIterations .start).label

/-! ## Aggregation -/

structure CommunityRow where
  representative : ℕ
  members : List ℕ
deriving DecidableEq

/-- The member with most neighbours, the smallest of several. -/
def representativeOf (adj : ℕ → List ℕ) (members : List ℕ) : ℕ :=
  members.foldl (fun rep member =>
    if (adj rep).length < (adj member).length ∨
        ((adj member).length = (adj rep).length ∧ member < rep) then member
    else rep) (members.headD 0)

/-- Larger communities first, then by the id of the representative. -/
def rowBefore (edges : List Edge) (a b : CommunityRow) : Bool :=
  if a.members.length ≠ b.members.length then b.members.length < a.members.length
  else (nodeIds edges).getD a.representative 0 ≤ (nodeIds edges).getD b.representative 0

/-- `communities`: the groups of the labels, from the order of the hash map. -/
def communities (order : HashOrder) (edges : List Edge) : List CommunityRow :=
  let groups := groupBy (finalLabel edges) (List.range (nodeIds edges).length)
  ((order.list groups.order).map fun l =>
    let members := (groups.members l).getD []
    { representative := representativeOf (adjacency edges) members, members }).mergeSort
      (rowBefore edges)

def interCommunityEdges (edges : List Edge) : ℕ :=
  edges.countP fun e =>
    decide (finalLabel edges (indexOf edges e.1) ≠ finalLabel edges (indexOf edges e.2))

/-! ## The response -/

structure MemberLine where
  id : ℕ
  name : Str
  filePath : Str
deriving DecidableEq

structure CommunityLine where
  id : ℕ
  label : Str
  memberCount : ℕ
  members : Option (List MemberLine)
deriving DecidableEq

structure CommunityReport where
  communities : List CommunityLine
  totalCommunities : ℕ
  returnedCommunities : ℕ
  interCommunityEdges : ℕ
  truncated : Bool
  error : Option Str
deriving DecidableEq

def emptyResult (error : Option Str) : CommunityReport :=
  { communities := [], totalCommunities := 0, returnedCommunities := 0, interCommunityEdges := 0,
    truncated := false, error }

/-- The clamp of a limit: a limit that is not positive means the default. -/
def clampLimit (limit default cap : ℤ) : ℕ := (min (if limit ≤ 0 then default else limit) cap).toNat

/-- `metaOf` behind `meta`: entities of the project, and empty texts for an id without a row. -/
def memberLine (E : EntityTable) (projectId id : ℕ) : MemberLine :=
  match E.rows.find? fun e => e.projectId = projectId && e.id = id with
  | some e => { id, name := e.name, filePath := e.filePath }
  | none => { id, name := [], filePath := [] }

/-- `total_members_emitted` and `members_truncated`. -/
structure Emitted where
  lines : List CommunityLine
  total : ℕ
  membersTruncated : Bool

/-- One community of the response. -/
def emitRow (edges : List Edge) (line : ℕ → MemberLine) (maxMembers : ℕ) (includeMembers : Bool)
    (s : Emitted) (row : CommunityRow) : Emitted :=
  let idAt i := (nodeIds edges).getD i 0
  let head members : CommunityLine :=
    { id := idAt row.representative, label := (line (idAt row.representative)).name,
      memberCount := row.members.length, members }
  if includeMembers then
    let emitMembers := min row.members.length maxMembers
    let room := kMaxTotalMembersEmitted - s.total
    let shown := (row.members.take (min emitMembers room)).map fun i => line (idAt i)
    { lines := s.lines ++ [head (some shown)]
      total := s.total + min emitMembers room
      membersTruncated := s.membersTruncated || emitMembers < row.members.length ||
        room < emitMembers }
  else { s with lines := s.lines ++ [head none] }

/-- What the store answers: whether it is open, and whether the statements can be prepared. -/
structure StoreAnswers where
  ready : Bool
  edgesPrepared : Bool
  entitiesPrepared : Bool

def getCommunities (order : HashOrder) (answers : StoreAnswers) (relations : List Relation)
    (E : EntityTable) (projectId : ℕ) (max_members max_communities : ℤ) (include_members : Bool) :
    CommunityReport :=
  if !answers.ready then
    emptyResult (some (str "graph not ready [module=query, method=getCommunities]"))
  else if !answers.edgesPrepared then
    emptyResult (some (str "failed to read call edges [module=query, method=getCommunities]"))
  else
    let edges := callEdges relations projectId
    if edges.isEmpty then emptyResult none
    else
      let line id := if answers.entitiesPrepared then memberLine E projectId id
        else { id, name := [], filePath := [] }
      let rows := communities order edges
      let returned := min rows.length
        (clampLimit max_communities kDefaultMaxCommunities kMaxCommunitiesCap)
      let emitted := (rows.take returned).foldl
        (emitRow edges line (clampLimit max_members kDefaultMaxMembers kMaxMembersCap)
          include_members) { lines := [], total := 0, membersTruncated := false }
      { communities := emitted.lines
        totalCommunities := rows.length
        returnedCommunities := returned
        interCommunityEdges := interCommunityEdges edges
        truncated := returned < rows.length || emitted.membersTruncated
        error := none }

end CodeScope.Query
