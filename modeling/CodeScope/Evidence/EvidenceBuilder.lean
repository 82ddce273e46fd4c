import CodeScope.Library.Grouping
import CodeScope.Library.TextSearch

/-! # The evidence builder

A rule selects semantic facts by its needs and turns them into findings: all of them, those of
functions that no optional need matches (in one finding, or in one finding for each function), or
their count. Confidences are rationals, and the numbers in a fact's details are not cut off at the
width of an `int`. -/

namespace CodeScope.RuleEvidence

open Text (Str str)

/-! ## Rules, facts and findings -/

structure FactNeed where
  category : Str
  primitive : Str
  kind : Str
  isOptional : Bool
deriving DecidableEq

inductive CombineMode where
  | collect
  | missingMatch
  | missingMatchPerFunction
  | count
deriving DecidableEq, Repr

structure RuleOutput where
  severity : ℤ
  titleTemplate : Str
  messageTemplate : Str

structure Rule where
  name : Str
  description : Str
  category : Str
  needs : List FactNeed
  combine : CombineMode
  output : RuleOutput

/-- A row of `semantic_fact`. -/
structure SemanticFact where
  id : ℕ
  projectId : ℕ
  functionId : ℕ
  category : Str
  primitive : Str
  kind : Str
  symbol : Str
  confidence : ℚ
  detailJson : Option Str

/-- The tables the builder reads: `entity` by its primary key. -/
structure FactStore where
  facts : List SemanticFact
  entityName : ℕ → Option Str

/-- A fact that a need selects, with the name of the entity it is attached to. -/
structure MatchedFact where
  factId : ℕ
  functionId : ℕ
  category : Str
  primitive : Str
  kind : Str
  symbol : Str
  confidence : ℚ
  detailJson : Str
  enclosingSymbol : Str

structure EvidenceItem where
  factId : ℕ
  category : Str
  primitive : Str
  kind : Str
  symbol : Str
  file : Str
  line : ℤ
  snippet : Str
deriving DecidableEq

structure Evidence where
  category : Str
  title : Str
  confidence : ℚ
  items : List EvidenceItem

/-! ## The details of a fact -/

/-- The text behind the first place of a needle. -/
def behind (needle text : Str) : Option Str :=
  (TextSearch.firstPlace (· == ·) needle text).map fun k => text.drop (k + needle.length)

/-- A string literal up to its closing quote, with its escapes resolved. -/
def readString : Str → Str
  | [] => []
  | '"' :: _ => []
  | '\\' :: next :: rest =>
    (match next with
      | 'n' => '\n'
      | 't' => '\t'
      | 'r' => '\r'
      | other => other) :: readString rest
  | c :: rest => c :: readString rest

/-- The value of `"key":"…"`, empty without it. -/
def detailJsonString (json key : Str) : Str :=
  match behind (str "\"" ++ key ++ str "\":\"") json with
  | none => []
  | some text => readString text

/-- The value of `"key":N`, 0 without it. -/
def detailJsonInt (json key : Str) : ℤ :=
  match behind (str "\"" ++ key ++ str "\":") json with
  | none => 0
  | some text =>
    let text := text.dropWhile fun c => c = ' ' || c = '\t'
    let (sign, text) : ℤ × Str :=
      match text with
      | '-' :: rest => (-1, rest)
      | text => (1, text)
    let value := (text.takeWhile Char.isDigit).foldl
      (fun (value : ℤ) c => value * 10 + (c.toNat - '0'.toNat : ℕ)) 0
    value * sign

/-- Line and snippet of the details, and the path in parentheses at the end of the snippet. -/
def applyDetailJson (detail : Str) (item : EvidenceItem) : EvidenceItem :=
  if detail = [] then item
  else
    let snippet := detailJsonString detail (str "snippet")
    let file :=
      match Text.splitLast '(' snippet, Text.splitLast ')' snippet with
      | some (before, _), some (upTo, _) =>
        if before.length < upTo.length then upTo.drop (before.length + 1) else item.file
      | _, _ => item.file
    { item with line := detailJsonInt detail (str "line"), snippet := snippet, file := file }

/-! ## Titles -/

/-- `formatTemplate`: a token in braces is replaced when it is known. -/
def formatTemplate (vars : Str → Option Str) : Str → Str
  | [] => []
  | c :: rest =>
    if c = '\x7b' ∧ '\x7d' ∈ rest then
      let token := rest.takeWhile (· ≠ '\x7d')
      (vars token).getD ('\x7b' :: (token ++ ['\x7d'])) ++
        formatTemplate vars (rest.drop (token.length + 1))
    else c :: formatTemplate vars rest
termination_by tmpl => tmpl.length
decreasing_by all_goals simp

def toEvidenceItem (mf : MatchedFact) : EvidenceItem :=
  applyDetailJson mf.detailJson
    { factId := mf.factId
      category := mf.category
      primitive := mf.primitive
      kind := mf.kind
      symbol := if mf.enclosingSymbol = [] then mf.symbol else mf.enclosingSymbol
      file := []
      line := 0
      snippet := [] }

def minConfidence : List MatchedFact → ℚ
  | [] => 1
  | f :: rest => rest.foldl (fun m f => min m f.confidence) f.confidence

def decimal (n : ℤ) : Str := (toString n).toList

/-- The substitutions of a title: the first fact stands for all. -/
def buildTemplateVars (facts : List MatchedFact) (ruleName : Str) (token : Str) : Option Str :=
  let first := facts.head?.map toEvidenceItem
  if token = str "count" then some (decimal facts.length)
  else if token = str "name" then some ruleName
  else if token = str "symbol" then some ((first.map EvidenceItem.symbol).getD [])
  else if token = str "file" then some ((first.map EvidenceItem.file).getD [])
  else if token = str "line" then some (decimal ((first.map EvidenceItem.line).getD 0))
  else none

/-! ## The combine modes -/

/-- The facts that a need selects, in the order of the table. -/
def queryFactsForNeed (store : FactStore) (projectId : ℕ) (need : FactNeed) : List MatchedFact :=
  (store.facts.filter fun f =>
    f.projectId = projectId ∧ f.category = need.category ∧ f.primitive = need.primitive ∧
      f.kind = need.kind).map fun f =>
    { factId := f.id
      functionId := f.functionId
      category := f.category
      primitive := f.primitive
      kind := f.kind
      symbol := f.symbol
      confidence := f.confidence
      detailJson := f.detailJson.getD []
      enclosingSymbol := (store.entityName f.functionId).getD [] }

/-- A finding over facts. -/
def evidenceOf (rule : Rule) (facts : List MatchedFact) : Evidence where
  category := rule.category
  title := formatTemplate (buildTemplateVars facts rule.name) rule.output.titleTemplate
  confidence := minConfidence facts
  items := facts.map toEvidenceItem

/-- One finding, unless there is no fact for it. -/
def findingOf (rule : Rule) (facts : List MatchedFact) : List Evidence :=
  if facts = [] then [] else [evidenceOf rule facts]

/-- The needs that are not optional, each fact once. -/
def combineCollect (store : FactStore) (projectId : ℕ) (rule : Rule) : List Evidence :=
  let all := (rule.needs.filter fun need => ! need.isOptional).foldl (fun all need =>
    (queryFactsForNeed store projectId need).foldl (fun all f =>
      if all.any fun g => g.factId = f.factId then all else all ++ [f]) all) []
  findingOf rule all

/-- The functions of the facts that optional needs behind the first select. -/
def excludedFunctions (store : FactStore) (projectId : ℕ) (rule : Rule) : List ℕ :=
  ((rule.needs.drop 1).filter FactNeed.isOptional).flatMap fun need =>
    (queryFactsForNeed store projectId need).map MatchedFact.functionId

def combineMissingMatch (store : FactStore) (projectId : ℕ) (rule : Rule) : List Evidence :=
  match rule.needs with
  | [] => []
  | need :: _ =>
    let excluded := excludedFunctions store projectId rule
    findingOf rule
      ((queryFactsForNeed store projectId need).filter fun f => f.functionId ∉ excluded)

/-- The facts of functions that are not excluded are put under their functions, one by one. -/
def combineMissingMatchPerFunction (store : FactStore) (projectId : ℕ) (rule : Rule) :
    List Evidence :=
  match rule.needs with
  | [] => []
  | need :: _ =>
    let excluded := excludedFunctions store projectId rule
    let byFunction := (queryFactsForNeed store projectId need).foldl (fun groups f =>
      if f.functionId ∈ excluded then groups
      else Grouping.Groups.push MatchedFact.functionId groups f) .empty
    byFunction.order.map fun fn => evidenceOf rule ((byFunction.members fn).getD [])

/-- One finding with the number of facts and no items. -/
def combineCount (store : FactStore) (projectId : ℕ) (rule : Rule) : List Evidence :=
  match rule.needs with
  | [] => []
  | need :: _ =>
    let primary := queryFactsForNeed store projectId need
    if primary = [] then [] else [{ evidenceOf rule primary with confidence := 1, items := [] }]

def applyRule (store : FactStore) (projectId : ℕ) (rule : Rule) : List Evidence :=
  match rule.combine with
  | .collect => combineCollect store projectId rule
  | .missingMatch => combineMissingMatch store projectId rule
  | .missingMatchPerFunction => combineMissingMatchPerFunction store projectId rule
  | .count => combineCount store projectId rule

/-! ## The two forms of a missing match -/

/-- The facts that have no match: those of the first need whose function no optional need
    matches. -/
def missingFacts (store : FactStore) (projectId : ℕ) (rule : Rule) : List MatchedFact :=
  (rule.needs.take 1).flatMap fun need =>
    (queryFactsForNeed store projectId need).filter fun f =>
      f.functionId ∉ excludedFunctions store projectId rule

theorem combineMissingMatch_eq (store : FactStore) (projectId : ℕ) (rule : Rule) :
    combineMissingMatch store projectId rule = findingOf rule (missingFacts store projectId rule) := by
  unfold combineMissingMatch missingFacts
  cases rule.needs with
  | nil => rfl
  | cons need rest => simp

theorem findingOf_items (rule : Rule) (facts : List MatchedFact) :
    (findingOf rule facts).flatMap Evidence.items = facts.map toEvidenceItem := by
  unfold findingOf
  split_ifs with hnone
  · rw [hnone]
    rfl
  · simp [evidenceOf]

theorem foldl_push_eq (excluded : List ℕ) (facts : List MatchedFact) :
    facts.foldl (fun groups f =>
      if f.functionId ∈ excluded then groups
      else Grouping.Groups.push MatchedFact.functionId groups f) .empty =
    Grouping.groupBy MatchedFact.functionId (facts.filter fun f => f.functionId ∉ excluded) := by
  rw [Grouping.groupBy, List.foldl_filter]
  congr 1
  funext groups f
  by_cases hin : f.functionId ∈ excluded <;> simp [hin]

/-- The findings for each function are those of the groups of the missing facts. -/
theorem combineMissingMatchPerFunction_eq (store : FactStore) (projectId : ℕ) (rule : Rule) :
    ∃ functions : List ℕ, functions.Nodup ∧
      (∀ fn, fn ∈ functions ↔ ∃ f ∈ missingFacts store projectId rule, f.functionId = fn) ∧
      combineMissingMatchPerFunction store projectId rule =
        functions.map fun fn => evidenceOf rule
          (Grouping.withKey MatchedFact.functionId (missingFacts store projectId rule) fn) := by
  unfold combineMissingMatchPerFunction missingFacts
  cases rule.needs with
  | nil => exact ⟨[], by simp⟩
  | cons need rest =>
      dsimp only
      rw [foldl_push_eq, List.take_succ_cons, List.take_zero, List.flatMap_singleton]
      generalize (queryFactsForNeed store projectId need).filter (fun f =>
        f.functionId ∉ excludedFunctions store projectId rule) = missing
      have hgroups := Grouping.groupBy_of MatchedFact.functionId missing
      refine ⟨(Grouping.groupBy MatchedFact.functionId missing).order, hgroups.nodup,
        hgroups.mem_order, List.map_congr_left fun fn hfn => ?_⟩
      rw [hgroups.members_eq, if_pos hfn]
      rfl

/-- **The two forms of a missing match agree**: there is one finding for each function with a missing
    fact, over all missing facts of that function, and together the findings have the items of the
    single finding, in some order. -/
theorem missingMatch_agree (store : FactStore) (projectId : ℕ) (rule : Rule) :
    ((combineMissingMatchPerFunction store projectId rule).flatMap Evidence.items).Perm
        ((combineMissingMatch store projectId rule).flatMap Evidence.items) ∧
      (combineMissingMatch store projectId rule).flatMap Evidence.items =
        (missingFacts store projectId rule).map toEvidenceItem ∧
      ∃ functions : List ℕ, functions.Nodup ∧
        (∀ fn, fn ∈ functions ↔ ∃ f ∈ missingFacts store projectId rule, f.functionId = fn) ∧
        combineMissingMatchPerFunction store projectId rule =
          functions.map fun fn => evidenceOf rule
            ((missingFacts store projectId rule).filter fun f => f.functionId = fn) := by
  obtain ⟨functions, hnodup, hmem, heq⟩ :=
    combineMissingMatchPerFunction_eq store projectId rule
  have hitems : (combineMissingMatch store projectId rule).flatMap Evidence.items =
      (missingFacts store projectId rule).map toEvidenceItem := by
    rw [combineMissingMatch_eq, findingOf_items]
  refine ⟨?_, hitems, functions, hnodup, hmem, heq⟩
  have hflat : (combineMissingMatchPerFunction store projectId rule).flatMap Evidence.items =
      (functions.flatMap (Grouping.withKey MatchedFact.functionId
        (missingFacts store projectId rule))).map toEvidenceItem := by
    rw [heq, List.flatMap_map, List.map_flatMap]
    rfl
  rw [hflat, hitems]
  exact (Grouping.flatMap_withKey_perm hnodup fun f hf => (hmem _).mpr ⟨f, hf, rfl⟩).map _

end CodeScope.RuleEvidence
