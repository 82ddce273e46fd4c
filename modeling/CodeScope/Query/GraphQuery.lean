import CodeScope.Query.Entities

/-! # The text of a graph query

A query reads `MATCH (source)-[edge]->(target)`, where the edge can carry a range of hops, and ends
with clauses for a limit and for the fields to return. Each step of the parser takes a piece off the
front of the text or stops with the text of an error. -/

namespace CodeScope.Query

open Text

def kMultiHopMaxDepth : Int := 8

/-- The node and edge types that a query can name. -/
def typeMap : List (Str × Int) :=
  [(str "Function", 0), (str "Method", 1), (str "Class", 2), (str "Struct", 3),
    (str "Interface", 4), (str "Variable", 5), (str "Module", 6), (str "File", 7),
    (str "References", 0), (str "Calls", 1), (str "Defines", 2), (str "Contains", 3),
    (str "Imports", 4), (str "Inherits", 5)]

/-- A filter for nodes: -1 for any type, and the empty text for any name. -/
structure NodeFilter where
  label : Str
  typeVal : Int
  name : Str
deriving DecidableEq

/-- A query after parsing; the hops are those that the text asks for. -/
structure GraphQuery where
  source : NodeFilter
  target : NodeFilter
  edgeType : Int
  multiHop : Bool
  hops : Int × Int
  userLimit : Int
deriving DecidableEq

namespace GraphQuery

def minDepth (q : GraphQuery) : Int := q.hops.1

/-- The client's maximum is clamped. -/
def maxDepth (q : GraphQuery) : Int :=
  if q.hops.2 > kMultiHopMaxDepth then kMultiHopMaxDepth else q.hops.2

end GraphQuery

/-! ## Pieces of a text -/

def isBlank (c : Char) : Bool := c ∈ [' ', '\t', '\r', '\n']

def trim (s : Str) : Str := Text.trim isBlank s

/-- What precedes and what follows the first `c`. -/
def splitFirst (c : Char) (s : Str) : Option (Str × Str) :=
  if c ∈ s then some (s.takeWhile (· ≠ c), (s.dropWhile (· ≠ c)).tail) else none

/-- What precedes and what follows the first `..`. -/
def splitDots : Str → Option (Str × Str)
  | [] => none
  | c :: rest =>
    if c = '.' ∧ rest.head? = some '.' then some ([], rest.tail)
    else (splitDots rest).map fun r => (c :: r.1, r.2)

/-- The text up to the first space or tab, and the text behind that. -/
def firstWord (s : Str) : Str × Str :=
  (s.takeWhile fun c => c ≠ ' ' ∧ c ≠ '\t', (s.dropWhile fun c => c ≠ ' ' ∧ c ≠ '\t').tail)

/-- The type and the name of a node. -/
def parseNodeSpec (spec : Str) : Str × Str :=
  match splitFirst ':' spec with
  | none => (spec, [])
  | some parts => parts

/-- The hops that a range asks for, in the order of the two ends. -/
def requestedHops (hopSpec : Str) : Int × Int :=
  match splitDots hopSpec with
  | none => (1, 1)
  | some (before, after) =>
    let minS := trim before
    let maxS := trim after
    let min := if minS = [] then 1 else atoi minS
    let max := if maxS = [] then 1 else atoi maxS
    let min := if min < 1 then 1 else min
    (min, if max < min then min else max)

theorem requestedHops_bounds (hopSpec : Str) :
    1 ≤ (requestedHops hopSpec).1 ∧ (requestedHops hopSpec).1 ≤ (requestedHops hopSpec).2 := by
  rw [requestedHops]
  split
  · exact ⟨Int.le_refl 1, Int.le_refl 1⟩
  · dsimp only
    constructor
    · split_ifs <;> omega
    · split_ifs <;> omega

/-! ## Clauses -/

def method : Str := str " [module=engine, method=executeGraphQuery]"

theorem length_trim_le (s : Str) : (trim s).length ≤ s.length := by
  simp only [trim, Text.trim, List.length_reverse]
  refine Nat.le_trans (List.length_dropWhile_le _ _) ?_
  rw [List.length_reverse]
  exact List.length_dropWhile_le _ _

theorem length_firstWord_lt {s : Str} (h : s ≠ []) : (firstWord s).2.length < s.length := by
  simp only [firstWord, List.length_tail]
  have hle := List.length_dropWhile_le (fun c => decide (c ≠ ' ' ∧ c ≠ '\t')) s
  have hpos := List.length_pos_of_ne_nil h
  omega

/-- The limit that the clauses at the end of a query give; 0 for none. -/
def clauses (userLimit : Int) (q : Str) : Except Str Int :=
  if q = [] then .ok userLimit
  else
    let upper := (firstWord q).1.map Char.toUpper
    if upper = str "LIMIT" then
      let rest := trim (firstWord q).2
      let num := (firstWord rest).1
      if num = [] ∨ ¬num.all Char.isDigit then
        .error (str "LIMIT requires a positive integer, got '" ++ num ++ str "'" ++ method)
      else
        let want := atoi num
        if want < 1 then .error (str "LIMIT must be >= 1" ++ method)
        else if userLimit ≠ 0 then .error (str "LIMIT given more than once" ++ method)
        else clauses want (trim (firstWord rest).2)
    else if upper = str "RETURN" then .ok userLimit
    else
      .error (str "unexpected trailing text after the target node: '" ++ q ++
        str "' — only 'LIMIT <n>' and 'RETURN <fields>' are accepted" ++ method)
termination_by q.length
decreasing_by
  rename_i hq _ _ _ _
  have hword := length_firstWord_lt hq
  have hrest := length_trim_le (firstWord q).2
  have htrim := length_trim_le (firstWord (trim (firstWord q).2)).2
  by_cases hempty : trim (firstWord q).2 = []
  · have hnil : firstWord (trim (firstWord q).2) = ([], []) := by rw [hempty]; rfl
    rw [hnil] at htrim ⊢
    exact Nat.lt_of_le_of_lt htrim (List.length_pos_of_ne_nil hq)
  · have hword' := length_firstWord_lt hempty
    omega

/-! ## The parser -/

/-- Stop with an error unless the check passes. -/
def require (check : Bool) (message : String) : Except Str Unit :=
  if check then .ok () else .error (str message)

def orError {α : Type} (o : Option α) (message : Str) : Except Str α :=
  match o with
  | some a => .ok a
  | none => .error message

/-- The integer of a type name; none is given as -1. -/
def typeValue (what name : Str) : Except Str Int :=
  if name = [] then .ok (-1)
  else
    orError ((typeMap.find? fun p => p.1 = name).map (·.2))
      (str "unknown " ++ what ++ str " type: " ++ name)

/-- The edge type's name, whether there is a star, and the hops asked for. -/
def parseEdge (edgeRaw : Str) : Str × Bool × (Int × Int) :=
  match splitFirst '*' edgeRaw with
  | none => (edgeRaw, false, (1, 1))
  | some (before, after) => (trim before, true, requestedHops (trim after))

/-- The parser of `executeGraphQuery`. -/
def parseGraphQuery (dsl : Str) : Except Str GraphQuery := do
  require (dsl ≠ []) "empty query"
  let q := trim dsl
  require ((str "MATCH ").isPrefixOf q || (str "match ").isPrefixOf q)
    "query must start with MATCH"
  let q := trim (q.drop 6)
  require (q.head? = some '(') "expected '(' after MATCH"
  let (srcSpec, q) ← orError (splitFirst ')' (q.drop 1)) (str "missing ')' for source node")
  let q := trim q
  require ((str "-[").isPrefixOf q) "expected '-[' after source node"
  let (edgeRaw, q) ← orError (splitFirst ']' (trim (q.drop 2))) (str "missing ']' for edge type")
  let (edgeSpec, multiHop, hops) := parseEdge (trim edgeRaw)
  let q := trim q
  require ((str "->").isPrefixOf q) "expected '->' after edge type"
  let q := trim (q.drop 2)
  require (q.head? = some '(') "expected '(' for target node"
  let (tgtSpec, q) ← orError (splitFirst ')' (q.drop 1)) (str "missing ')' for target node")
  let (srcType, srcName) := parseNodeSpec (trim srcSpec)
  let (tgtType, tgtName) := parseNodeSpec (trim tgtSpec)
  let userLimit ← clauses 0 (trim q)
  let edgeType ← typeValue (str "edge") edgeSpec
  let srcTypeVal ← typeValue (str "node") srcType
  let tgtTypeVal ← typeValue (str "node") tgtType
  return { source := ⟨srcType, srcTypeVal, srcName⟩, target := ⟨tgtType, tgtTypeVal, tgtName⟩
           edgeType, multiHop, hops, userLimit }

example : parseGraphQuery (str "MATCH (Function:a)-[Calls*2..20]->(:b) limit 7") =
    .ok { source := ⟨str "Function", 0, str "a"⟩, target := ⟨[], -1, str "b"⟩
          edgeType := 1, multiHop := true, hops := (2, 20), userLimit := 7 } := by
  decide +kernel

end CodeScope.Query
