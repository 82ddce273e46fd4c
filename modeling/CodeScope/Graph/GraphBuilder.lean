import CodeScope.Library.AncestorSearch
import CodeScope.Store.Records

/-! # The graphs of one file

`GraphBuilder` reads the records of a `SemanticUnit`. `buildSymbolGraph` makes a node of every
declaration and remembers which record it belongs to; `buildCallGraph` then adds an edge from the
container of every call to what the call resolves to. The container is found along the parents of
the call's record, and what was found is kept in `parent_cache_`. -/

namespace CodeScope.Graph

open Text (Str str)
open Store (Record RecordKind)

/-! ## Units -/

/-- `ir::SemanticUnit`. The ids are handed out by the unit, from 1 on; the overload of `addRecord`
    that maps a second id to a record is only called with 0, which maps nothing. -/
structure SemanticUnit where
  filePath : Str
  records : List Record
  ids_nodup : (records.map Record.id).Nodup
  ids_ne_zero : ∀ r ∈ records, r.id ≠ 0

def SemanticUnit.getRecord (unit : SemanticUnit) (id : ℕ) : Option Record :=
  unit.records.find? fun r => r.id = id

/-! ## Nodes and edges -/

inductive NodeType where
  | function | method | «class» | struct | interface | variable | macroDef | module | file
deriving DecidableEq

inductive EdgeType where
  | references | calls | defines | contains | imports | inherits | usesType | hasType
deriving DecidableEq

/-- `GraphNode`, the fields set from a record. -/
structure GraphNode where
  id : ℕ
  irNodeId : ℕ
  type : NodeType
  name : Str
  qualifiedName : Str
  filePath : Str
  startRow : ℕ
  startCol : ℕ
  endRow : ℕ
  endCol : ℕ
  language : Str

structure GraphEdge where
  id : ℕ
  sourceId : ℕ
  targetId : ℕ
  type : EdgeType
  graphType : Str

structure CodeGraph where
  name : Str
  graphType : Str
  nodes : List GraphNode
  edges : List GraphEdge

/-- What two edges must share to be one. -/
def GraphEdge.key (e : GraphEdge) : ℕ × ℕ × EdgeType × Str :=
  (e.sourceId, e.targetId, e.type, e.graphType)

/-- The state of a `GraphBuilder`. A place of the parent cache holds the container, `none` for the
    0 of a search without a result. The keys of `added_edges_` are those of the edges so far. -/
structure GraphBuilder where
  nextNodeId : ℕ
  nextEdgeId : ℕ
  irToGraphNode : ℕ → Option ℕ
  parentCache : ℕ → Option (Option ℕ)
  currentGraph : CodeGraph

def recordKindToNodeType : RecordKind → NodeType
  | .function => .function
  | .method => .method
  | .class => .class
  | .interface => .interface
  | .enum => .module
  | .typeAlias => .module
  | .typeDecl => .module
  | .variable => .variable
  | .import => .module
  | .export => .module
  | .field => .variable
  | _ => .file

def isDeclarationKind : RecordKind → Bool
  | .function | .method | .class | .interface | .enum | .typeAlias | .typeDecl | .variable
  | .field | .import | .export => true
  | _ => false

/-- The records the symbol graph has a node for: declarations, the nameless root apart. -/
def Declared (rec : Record) : Prop :=
  isDeclarationKind rec.kind ∧ ¬ (rec.kind = .variable ∧ rec.name = [] ∧ rec.parentId = 0)

instance : DecidablePred Declared := fun rec => by
  unfold Declared
  infer_instance

/-- `addGraphNode`; no record has an original id besides its own. -/
def addGraphNode (unit : SemanticUnit) (b : GraphBuilder) (rec : Record) : GraphBuilder :=
  if (b.irToGraphNode rec.id).isSome then b
  else
    let node : GraphNode :=
      { id := b.nextNodeId
        irNodeId := rec.id
        type := recordKindToNodeType rec.kind
        name := rec.name
        qualifiedName := if rec.qualifiedName = [] then rec.name else rec.qualifiedName
        filePath := unit.filePath
        startRow := rec.startRow
        startCol := rec.startCol
        endRow := rec.endRow
        endCol := rec.endCol
        language := rec.language }
    { b with
      nextNodeId := b.nextNodeId + 1
      irToGraphNode := Function.update b.irToGraphNode rec.id (some b.nextNodeId)
      currentGraph := { b.currentGraph with nodes := b.currentGraph.nodes ++ [node] } }

def addGraphEdge (src tgt : ℕ) (type : EdgeType) (b : GraphBuilder) : GraphBuilder :=
  let edge : GraphEdge :=
    { id := b.nextEdgeId
      sourceId := src
      targetId := tgt
      type := type
      graphType := b.currentGraph.graphType }
  if edge.key ∈ b.currentGraph.edges.map GraphEdge.key then b
  else
    { b with
      nextEdgeId := b.nextEdgeId + 1
      currentGraph := { b.currentGraph with edges := b.currentGraph.edges ++ [edge] } }

/-! ## Containers -/

/-- The parent of a record, when there is such a record and its parent is not the root. -/
def parentOf (unit : SemanticUnit) (id : ℕ) : Option ℕ :=
  (unit.getRecord id).bind fun r => if r.parentId = 0 then none else some r.parentId

/-- `findContainingFunction`, with the cache it leaves; `none` when the fuel does not suffice. -/
def findContainingFunction (unit : SemanticUnit) (b : GraphBuilder) (rec : Record) :
    Option (Option ℕ × GraphBuilder) :=
  if rec.parentId = 0 then some (none, b)
  else match b.parentCache rec.parentId with
    | some found => some (found, b)
    | none =>
      (AncestorSearch.search (parentOf unit) (fun id => (b.irToGraphNode id).isSome = true)
          b.parentCache (unit.records.length + 1) [] rec.parentId).map fun found =>
        (found, { b with
          parentCache := Function.update b.parentCache rec.parentId (some found) })

/-! ## The symbol graph -/

def emptyGraph (name graphType : Str) : CodeGraph := ⟨name, graphType, [], []⟩

/-- Pass 1: a node for a declaration. -/
def declare (unit : SemanticUnit) (b : GraphBuilder) (rec : Record) : GraphBuilder :=
  if Declared rec then addGraphNode unit b rec else b

/-- Pass 2: an edge from the container of a declaration. -/
def contain (unit : SemanticUnit) (b : GraphBuilder) (rec : Record) : Option GraphBuilder :=
  if rec.parentId = 0 then some b
  else match b.irToGraphNode rec.id with
    | none => some b
    | some child =>
      (findContainingFunction unit b rec).map fun (ancestor, b) =>
        match ancestor with
        | none => b
        | some ancestorId =>
          if ancestorId = rec.id then b
          else match b.irToGraphNode ancestorId with
            | none => b
            | some parent => if parent = child then b else addGraphEdge parent child .contains b

/-- The state before pass 1: only the node ids go on from one file to the next. -/
def GraphBuilder.reset (b : GraphBuilder) : GraphBuilder where
  nextNodeId := b.nextNodeId
  nextEdgeId := 1
  irToGraphNode := fun _ => none
  parentCache := fun _ => none
  currentGraph := emptyGraph (str "symbol-graph") (str "symbol_reference")

/-- A new builder. -/
def GraphBuilder.start (startNodeId : ℕ) : GraphBuilder where
  nextNodeId := startNodeId
  nextEdgeId := 1
  irToGraphNode := fun _ => none
  parentCache := fun _ => none
  currentGraph := emptyGraph [] []

def buildSymbolGraph (unit : SemanticUnit) (b : GraphBuilder) : Option GraphBuilder :=
  unit.records.foldlM (contain unit) (unit.records.foldl (declare unit) b.reset)

/-! ## The call graph -/

structure CalleeCandidate where
  arity : Int
  graphNodeId : ℕ

/-- The two multimaps, as their entries. -/
structure CalleeIndex where
  byQualifiedName : List (Str × ℕ)
  byName : List (Str × CalleeCandidate)

def buildCalleeIndex (unit : SemanticUnit) (irToGraphNode : ℕ → Option ℕ) : CalleeIndex where
  byQualifiedName := unit.records.filterMap fun rec =>
    if rec.name = [] ∨ rec.qualifiedName = [] then none
    else (irToGraphNode rec.id).map fun node => (rec.qualifiedName, node)
  byName := unit.records.filterMap fun rec =>
    if rec.name = [] then none
    else (irToGraphNode rec.id).map fun node => (rec.name, ⟨rec.arity, node⟩)

/-- The entries of a multimap under a key. -/
def equalRange {α : Type} (entries : List (Str × α)) (key : Str) : List α :=
  (entries.filter fun e => e.1 = key).map Prod.snd

/-- The nodes `resolveCallEdges` adds an edge to, layer by layer. -/
def calleeNodes (irToGraphNode : ℕ → Option ℕ) (index : CalleeIndex) (call : Record)
    (caller : ℕ) : List ℕ :=
  if call.refOriginalId ≠ 0 then
    (irToGraphNode call.refOriginalId).toList.filter fun target => target ≠ caller
  else
    let matched :=
      (equalRange index.byQualifiedName call.qualifiedName).filter fun target => target ≠ caller
    if call.qualifiedName ≠ [] ∧ matched ≠ [] then matched
    else if call.name = [] then []
    else
      let candidates :=
        (equalRange index.byName call.name).filter fun cand => cand.graphNodeId ≠ caller
      if call.arity ≠ 0 then
        let exactMatches := candidates.filter fun cand => cand.arity = call.arity
        let unknownArityMatches := candidates.filter fun cand => cand.arity = 0
        (if exactMatches = [] then unknownArityMatches else exactMatches).map
          CalleeCandidate.graphNodeId
      else candidates.map CalleeCandidate.graphNodeId

def resolveCallEdges (index : CalleeIndex) (call : Record) (caller : ℕ) (b : GraphBuilder) :
    GraphBuilder :=
  (calleeNodes b.irToGraphNode index call caller).foldl
    (fun b target => addGraphEdge caller target .calls b) b

/-- A record in the loop of `buildCallGraphImpl`. -/
def addCall (unit : SemanticUnit) (index : CalleeIndex) (b : GraphBuilder) (rec : Record) :
    Option GraphBuilder :=
  if rec.kind ≠ .callExpr then some b
  else if rec.name = [] ∧ rec.qualifiedName = [] ∧ rec.refOriginalId = 0 then some b
  else
    (findContainingFunction unit b rec).map fun (caller, b) =>
      match caller.bind b.irToGraphNode with
      | none => b
      | some node => resolveCallEdges index rec node b

def buildCallGraphImpl (unit : SemanticUnit) (index : CalleeIndex) (b : GraphBuilder) :
    Option GraphBuilder :=
  unit.records.foldlM (addCall unit index)
    { b with nextEdgeId := 1, currentGraph := emptyGraph (str "call-graph") (str "call_graph") }

def buildCallGraph (unit : SemanticUnit) (b : GraphBuilder) : Option GraphBuilder :=
  buildCallGraphImpl unit (buildCalleeIndex unit b.irToGraphNode) b

end CodeScope.Graph
