import CodeScope.Resolver.ApplyConstraints

/-! # The resolver pipeline

The loop of `ResolverPipeline::run`: each reference looks its candidates up (by exact name, else by
the fuzzy fallback), and is answered by the single-candidate fast path, by interface dispatch or by
the scored selection. The miss cache, the time budget of the fallback and the field-chain cache are
state of the run. The time a fuzzy lookup takes is an input of the reference it is made for. -/

namespace CodeScope.Resolver

open Text (Str str lower)

/-! ## Edges and the state of a run -/

structure ResolvedEdge where
  callerId : Nat
  targetId : Nat
  edgeType : Nat
  resolveStrategy : Str
  confidence : ℚ
  resolver : Str
  resolutionKind : Str
  reason : Str
  callSiteFile : Str
  callSiteRow : Int
  callSiteCol : Int
deriving DecidableEq

def kRelationTypeCall : Nat := 1
def kMaxCandidatesToScore : Nat := 50
/-- `kFuzzyBudgetMs`, in nanoseconds. -/
def fuzzyBudget : Nat := 500 * 1000000

/-- A CALLS edge of a reference: what does not depend on the match is copied from the reference. -/
def RefRow.edge (ref : RefRow) (targetId : Nat) (confidence : ℚ) (kind reason : Str) :
    ResolvedEdge where
  callerId := ref.callerId
  targetId := targetId
  edgeType := kRelationTypeCall
  resolveStrategy := ref.resolveStrategy
  confidence := confidence
  resolver := str "pipeline"
  resolutionKind := kind
  reason := reason
  callSiteFile := ref.callSiteFile
  callSiteRow := ref.startRow
  callSiteCol := ref.startCol

structure RunState where
  fuzzyMissCache : List Str
  fuzzyTimeUsed : Nat
  fuzzyBudgetExhausted : Bool
  fieldChainCache : List (Str × Str)
  resolvedCount : Nat
  resolvedEdges : List ResolvedEdge

def RunState.init : RunState := ⟨[], 0, false, [], 0, []⟩

/-- The edges of one reference are staged and counted. -/
def RunState.push (st : RunState) (edges : List ResolvedEdge) : RunState :=
  { st with
    resolvedCount := st.resolvedCount + edges.length
    resolvedEdges := st.resolvedEdges ++ edges }

/-! ## The hard filters -/

def languageOk (ref : RefRow) (c : Candidate) : Bool :=
  languagesCompatible (languageFromPath ref.callerFile) c.language

def visibleTo (ref : RefRow) (c : Candidate) : Bool :=
  5 / 10 ≤ factorVisibilityCheck c.language c.name ref.callerFile c.filePath

/-! ## Finding candidates -/

def skipFuzzyNames : List Str :=
  ["Error", "Len", "String", "Done", "Contains", "Errorf", "Sprintf", "Printf", "Print", "Println",
    "Panic", "Fatal", "Append", "Make", "Copy", "Delete", "Close", "Cap", "Range",
    "Value"].map String.toList

def shouldSkipFuzzy (name : Str) : Bool := name ∈ skipFuzzyNames

/-- The candidates of a reference and whether they are fuzzy; `none` when the loop moves on. -/
def findCandidates (p : ResolverPipeline) (st : RunState) (ref : RefRow) (elapsed : Nat) :
    RunState × Option (List Candidate × Bool) :=
  if p.entityIndex ref.name ≠ [] then (st, some (p.entityIndex ref.name, false))
  else if shouldSkipFuzzy ref.name then (st, none)
  else if ref.receiverType = [] ∧ ref.qualifiedTarget = [] ∧ ref.importAlias = [] then (st, none)
  else if ref.name ∈ st.fuzzyMissCache then (st, none)
  else if st.fuzzyBudgetExhausted then (st, none)
  else
    let timeUsed := st.fuzzyTimeUsed + elapsed
    let st := { st with
      fuzzyTimeUsed := timeUsed
      fuzzyBudgetExhausted := decide (fuzzyBudget < timeUsed) }
    if p.fuzzy ref.name = [] then
      ({ st with fuzzyMissCache := ref.name :: st.fuzzyMissCache }, none)
    else (st, some ((p.fuzzy ref.name).filterMap p.entityById, true))

/-! ## The single-candidate fast path -/

inductive FastPath where
  | emit (e : ResolvedEdge)
  | reject
  | fallThrough

def fastPath (ref : RefRow) (cands : List Candidate) (usedFuzzy : Bool) : FastPath :=
  match cands with
  | [c] =>
    if c.entityId = ref.callerId then .fallThrough
    else if languageOk ref c = false then .reject
    else if sameDir ref.callerFile c.filePath ∧ (usedFuzzy = false ∨ ref.callKind = 0) ∧
        visibleTo ref c then
      .emit (ref.edge c.entityId (85 / 100)
        (if usedFuzzy then str "fuzzy_local" else str "exact_local")
        (if usedFuzzy then str "single same-module fuzzy candidate"
        else str "single same-module candidate"))
    else .fallThrough
  | _ => .fallThrough

/-! ## Interface dispatch -/

/-- The type at the end of a chain of fields, each looked up in the type before it. -/
def walkFields (p : ResolverPipeline) : List Str → Str → Option Str
  | [], type => some type
  | field :: rest, type =>
    match p.globalStructFields type field with
    | some fieldType => walkFields p rest (canonicalTypeName fieldType)
    | none => none

/-- The first type of the variable whose fields resolve the whole chain. -/
def chainType (p : ResolverPipeline) (fields types : List Str) : Str :=
  ((types.filterMap fun type => walkFields p fields (canonicalTypeName type)).find?
    fun type => type ≠ []).getD []

/-- The receiver's type: as recorded, else through the field chain, memoized by its text. -/
def resolveReceiver (p : ResolverPipeline) (st : RunState) (ref : RefRow) : RunState × Str :=
  if ref.receiverType ≠ [] then (st, ref.receiverType)
  else if '.' ∉ ref.receiverText then (st, [])
  else
    match st.fieldChainCache.lookup ref.receiverText with
    | some type => (st, type)
    | none =>
      match Text.segments '.' ref.receiverText with
      | [] => (st, [])
      | first :: fields =>
        if p.globalVarTypes first = [] then (st, [])
        else
          let type := chainType p fields (p.globalVarTypes first)
          ({ st with fieldChainCache := (ref.receiverText, type) :: st.fieldChainCache }, type)

/-- The qualified name is a member of the type: `Impl.method` or `Impl::method`. -/
def memberOf (implType qualifiedName : Str) : Bool :=
  implType.isPrefixOf qualifiedName &&
    match qualifiedName.drop implType.length with
    | '.' :: _ => true
    | ':' :: ':' :: _ => true
    | _ => false

def dispatchesTo (ref : RefRow) (implType : Str) (c : Candidate) : Bool :=
  c.entityId ≠ ref.callerId && memberOf implType c.qualifiedName && languageOk ref c &&
    visibleTo ref c

def dispatchEdge (ref : RefRow) (implType : Str) (c : Candidate) : ResolvedEdge :=
  ref.edge c.entityId (60 / 100) (str "dispatch")
    (str "interface=" ++ ref.receiverType ++ str " impl=" ++ implType ++ str " method=" ++ ref.name)

/-- One implementing type: the candidates that are its members, until as many edges are out as
    there are candidates (`dispatch_done`). -/
def dispatchImpl (ref : RefRow) (size : Nat) (implType : Str) :
    List Candidate → List ResolvedEdge → List ResolvedEdge × Bool
  | [], edges => (edges, false)
  | c :: rest, edges =>
    if dispatchesTo ref implType c then
      let edges := edges ++ [dispatchEdge ref implType c]
      if size ≤ edges.length then (edges, true) else dispatchImpl ref size implType rest edges
    else dispatchImpl ref size implType rest edges

def dispatchImpls (ref : RefRow) (cands : List Candidate) :
    List Str → List ResolvedEdge → List ResolvedEdge
  | [], edges => edges
  | implType :: rest, edges =>
    match dispatchImpl ref cands.length implType cands edges with
    | (edges, true) => edges
    | (edges, false) => dispatchImpls ref cands rest edges

def dispatchEdges (p : ResolverPipeline) (ref : RefRow) (cands : List Candidate)
    (receiver : Str) : List ResolvedEdge :=
  if receiver = [] then [] else dispatchImpls ref cands (p.interfaceImplIndex receiver) []

/-! ## The scored selection -/

/-- The running best and second best (`best_cand` with its id and score, and the same of the
    second). -/
structure Selection where
  best : Option Scored
  second : Option Scored

def Selection.init : Selection := ⟨none, none⟩

/-- `best_id`, `second_id`: 0 before there is one. -/
def idOf : Option Scored → Nat
  | none => 0
  | some s => s.candidate.entityId

/-- `best_score`, `second_score`: -1 before there is one. -/
def scoreOf : Option Scored → ℚ
  | none => -1
  | some s => s.totalScore

/-- The hard filters of the selection. -/
def eligible (ref : RefRow) (s : Scored) : Bool :=
  s.candidate.entityId ≠ ref.callerId && visibleTo ref s.candidate && languageOk ref s.candidate

def Selection.step (ref : RefRow) (sel : Selection) (s : Scored) : Selection :=
  if eligible ref s = false then sel
  else if scoreOf sel.best < s.totalScore then ⟨some s, sel.best⟩
  else if scoreOf sel.second < s.totalScore then { sel with second := some s }
  else sel

/-- `best_rec` and `other_rec`: the receiver score of the best, and the largest of the others. -/
def receiverScores (ref : RefRow) (bestId : Nat) (ranking : List Scored) : ℚ × ℚ :=
  ranking.foldl (fun (recs : ℚ × ℚ) s =>
    if s.candidate.entityId = ref.callerId then recs
    else if s.candidate.entityId = bestId then (s.receiverScore, recs.2)
    else if recs.2 < s.receiverScore then (recs.1, s.receiverScore)
    else recs) (0, 0)

/-- The best alone has receiver evidence, and its evidence is exact. -/
def receiverBypass (ref : RefRow) (bestId : Nat) (ranking : List Scored) : Bool :=
  ref.receiverType ≠ [] && kScoreExactMatch ≤ (receiverScores ref bestId ranking).1 &&
    (receiverScores ref bestId ranking).2 ≤ 0

/-- The winner of a ranking, or `none` when the reference abstains: nothing reaches the threshold,
    or the second is too close and the receiver does not decide. -/
def selectRanked (ref : RefRow) (ranking : List Scored) : Option Scored :=
  let sel := ranking.foldl (Selection.step ref) Selection.init
  if idOf sel.best = 0 ∨ scoreOf sel.best < kResolutionThreshold then none
  else if idOf sel.second ≠ 0 ∧ scoreOf sel.best - scoreOf sel.second < kAmbiguityMargin ∧
      receiverBypass ref (idOf sel.best) ranking = false then none
  else sel.best

def scoredSelection (p : ResolverPipeline) (ref : RefRow) (cands : List Candidate) :
    Option Scored :=
  selectRanked ref (applyConstraints p ref cands)

/-- `resolution_kind` and `reason`: the evidence that decided the match. -/
def provenance (p : ResolverPipeline) (ref : RefRow) (best : Scored) : Str × Str :=
  let arity := (ToString.toString ref.arity).toList
  let score := p.toString best.totalScore
  if ref.qualifiedTarget ≠ [] ∧ best.candidate.qualifiedName = ref.qualifiedTarget then
    (str "qualified",
      str "qualified_target=" ++ ref.qualifiedTarget ++ str " (exact) score=" ++ score)
  else
    match best.decidingFactor with
    | some factor =>
      let kind := resolutionKindFromFactor factor
      (if kind = [] then str "name_arity" else kind,
        str "decided_by=" ++ factor.name ++ str " name=" ++ ref.name ++ str " arity=" ++ arity ++
          str " score=" ++ score)
    | none =>
      if ref.receiverType ≠ [] then
        (str "receiver_type", str "receiver_type=" ++ ref.receiverType ++ str " score=" ++ score ++
          str " (field present; no factor recorded)")
      else if ref.importAlias ≠ [] then
        (str "imported", str "import_alias=" ++ ref.importAlias ++ str " score=" ++ score ++
          str " (field present; no factor recorded)")
      else
        (str "name_arity", str "name=" ++ ref.name ++ str " arity=" ++ arity ++ str " score=" ++
          score)

def scoredEdge (p : ResolverPipeline) (ref : RefRow) (cands : List Candidate) :
    Option ResolvedEdge :=
  (scoredSelection p ref cands).map fun best =>
    let (kind, reason) := provenance p ref best
    ref.edge best.candidate.entityId best.totalScore kind reason

/-! ## The loop -/

/-- The edges of a reference that the fast path left open. -/
def slowPath (p : ResolverPipeline) (ref : RefRow) (cands : List Candidate) (receiver : Str) :
    List ResolvedEdge :=
  match dispatchEdges p ref cands receiver with
  | [] => (scoredEdge p ref cands).toList
  | edges => edges

/-- One iteration of the loop, for a reference whose fuzzy lookup takes `elapsed`. -/
def resolveReference (p : ResolverPipeline) (st : RunState) (ref : RefRow) (elapsed : Nat) :
    RunState :=
  match findCandidates p st ref elapsed with
  | (st, none) => st
  | (st, some (cands, usedFuzzy)) =>
    if kMaxCandidatesToScore < cands.length then st
    else
      match fastPath ref cands usedFuzzy with
      | .emit e => st.push [e]
      | .reject => st
      | .fallThrough =>
        let (st, receiver) := resolveReceiver p st ref
        st.push (slowPath p ref cands receiver)

/-- The loop over the references, each with the time its fuzzy lookup takes. -/
def resolveReferences (p : ResolverPipeline) (refs : List (RefRow × Nat)) : RunState :=
  refs.foldl (fun st r => resolveReference p st r.1 r.2) RunState.init

/-! ## What a step can do -/

theorem findCandidates_edges (p : ResolverPipeline) (st : RunState) (ref : RefRow)
    (elapsed : Nat) : (findCandidates p st ref elapsed).1.resolvedEdges = st.resolvedEdges := by
  unfold findCandidates
  split_ifs <;> rfl

theorem findCandidates_mem {p : ResolverPipeline} {st : RunState} {ref : RefRow} {elapsed : Nat}
    {cands : List Candidate} {usedFuzzy : Bool}
    (h : (findCandidates p st ref elapsed).2 = some (cands, usedFuzzy)) :
    ∀ c ∈ cands, c ∈ p.candidates := by
  intro c hc
  unfold findCandidates at h
  split_ifs at h with hexact
  · simp only [Option.some.injEq, Prod.mk.injEq] at h
    rw [← h.1] at hc
    exact p.mem_candidates_of_entityIndex hc
  · simp only [Option.some.injEq, Prod.mk.injEq] at h
    rw [← h.1] at hc
    obtain ⟨id, -, hid⟩ := List.mem_filterMap.mp hc
    exact (p.entityById_some hid).1

theorem resolveReceiver_edges (p : ResolverPipeline) (st : RunState) (ref : RefRow) :
    (resolveReceiver p st ref).1.resolvedEdges = st.resolvedEdges := by
  unfold resolveReceiver
  split_ifs
  · rfl
  · split
    · rfl
    · split
      · rfl
      · split_ifs <;> rfl
  · rfl

/-- **A step appends the edges of one answer**: none, one from the fast path, or those of dispatch
    or scoring, all over loaded candidates. -/
theorem resolveReference_cases (p : ResolverPipeline) (st : RunState) (ref : RefRow)
    (elapsed : Nat) :
    ∃ edges, (resolveReference p st ref elapsed).resolvedEdges = st.resolvedEdges ++ edges ∧
      (edges = [] ∨
      ∃ cands, (∀ c ∈ cands, c ∈ p.candidates) ∧
        ((∃ usedFuzzy e, fastPath ref cands usedFuzzy = .emit e ∧ edges = [e]) ∨
          ∃ receiver, edges = slowPath p ref cands receiver)) := by
  have hfind := findCandidates_edges p st ref elapsed
  have hmem := @findCandidates_mem p st ref elapsed
  unfold resolveReference
  generalize findCandidates p st ref elapsed = found at hfind hmem
  obtain ⟨st', answer⟩ := found
  simp only at hfind hmem
  cases answer with
  | none => exact ⟨[], by simp [hfind], Or.inl rfl⟩
  | some pair =>
      obtain ⟨cands, usedFuzzy⟩ := pair
      have hcands := hmem rfl
      simp only
      split_ifs with hmany
      · exact ⟨[], by simp [hfind], Or.inl rfl⟩
      · cases hfast : fastPath ref cands usedFuzzy with
        | emit e =>
            refine ⟨[e], by simp [RunState.push, hfind], Or.inr ⟨cands, hcands, Or.inl ?_⟩⟩
            exact ⟨usedFuzzy, e, hfast, rfl⟩
        | reject => exact ⟨[], by simp [hfind], Or.inl rfl⟩
        | fallThrough =>
            have hreceiver := resolveReceiver_edges p st' ref
            generalize resolveReceiver p st' ref = resolved at hreceiver
            obtain ⟨st'', receiver⟩ := resolved
            simp only at hreceiver
            refine ⟨slowPath p ref cands receiver, ?_, Or.inr ⟨cands, hcands, Or.inr ?_⟩⟩
            · simp [RunState.push, hreceiver, hfind]
            · exact ⟨receiver, rfl⟩

end CodeScope.Resolver
