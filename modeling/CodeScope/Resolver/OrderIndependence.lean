import CodeScope.Resolver.Pipeline

/-! # The candidate order does not show

The scored path reads its candidates only through their ranking, and with distinct ids the ranking
is determined by the set of candidates: the comparator orders any two of them strictly. -/

namespace CodeScope.Resolver

open Text (Str str lower)

/-- What `std::sort` may return: any arrangement of the scored candidates in which none stands
    before one that the comparator puts first. -/
def Ranks (p : ResolverPipeline) (ref : RefRow) (cands : List Candidate) (ranking : List Scored) :
    Prop :=
  ranking.Perm (cands.map (scoreCandidate p ref)) ∧
    ranking.Pairwise (fun a b => a.le b = true)

theorem Ranks.applyConstraints (p : ResolverPipeline) (ref : RefRow) (cands : List Candidate) :
    Ranks p ref cands (applyConstraints p ref cands) :=
  ⟨applyConstraints_perm p ref cands, applyConstraints_sorted p ref cands⟩

theorem Ranks.perm {p : ResolverPipeline} {ref : RefRow} {cands cands' : List Candidate}
    {ranking : List Scored} (hperm : cands.Perm cands') (h : Ranks p ref cands' ranking) :
    Ranks p ref cands ranking := by
  obtain ⟨harranged, hsorted⟩ := h
  exact ⟨harranged.trans (hperm.symm.map _), hsorted⟩

theorem Ranks.eq_applyConstraints {p : ResolverPipeline} {ref : RefRow} {cands : List Candidate}
    {ranking : List Scored} (hids : (cands.map (·.entityId)).Nodup)
    (h : Ranks p ref cands ranking) : ranking = Resolver.applyConstraints p ref cands := by
  obtain ⟨harranged, hsorted⟩ := h
  exact applyConstraints_unique hids harranged hsorted

/-- **The scored path depends on the set of candidates only**: for any two arrangements of
    candidates with distinct ids, and whatever rankings the sort makes of them, the same candidate
    wins or both abstain, and the staged edge is the same in every column. -/
theorem scoredEdge_order_independent (p : ResolverPipeline) (ref : RefRow)
    {cands cands' : List Candidate} (hperm : cands.Perm cands')
    (hids : (cands.map (·.entityId)).Nodup) :
    (∀ ranking ranking', Ranks p ref cands ranking → Ranks p ref cands' ranking' →
      selectRanked ref ranking = selectRanked ref ranking') ∧
    scoredEdge p ref cands = scoredEdge p ref cands' := by
  have hunique : ∀ ranking, Ranks p ref cands' ranking →
      ranking = applyConstraints p ref cands := by
    intro ranking hranking
    exact (hranking.perm hperm).eq_applyConstraints hids
  refine ⟨?_, ?_⟩
  · intro ranking ranking' hranking hranking'
    rw [hranking.eq_applyConstraints hids, hunique ranking' hranking']
  · have hsame : applyConstraints p ref cands' = applyConstraints p ref cands :=
      hunique _ (Ranks.applyConstraints p ref cands')
    unfold scoredEdge scoredSelection
    rw [hsame]

/-- Two methods of one name in one file, told apart by the receiver. -/
def homonyms : ResolverPipeline where
  entities := [
    ⟨1, str "main", str "/p/main.go", str "go", 0, 0, str "main"⟩,
    ⟨2, str "Get", str "/p/store.go", str "go", 1, 1, str "Cache.Get"⟩,
    ⟨3, str "Get", str "/p/store.go", str "go", 1, 1, str "Index.Get"⟩]
  ids_positive := by decide
  ids_nodup := by decide
  imports := []
  importBindings := []
  interfaceImplIndex := fun _ => []
  globalStructFields := fun _ _ => none
  globalVarTypes := fun _ => []
  fuzzy := fun _ => []
  disableFactor := []
  toString := fun _ => []

/-- `c.Get(k)` with a receiver of type `*Cache`. -/
def getReference : RefRow where
  refId := 1
  name := str "Get"
  callerId := 1
  callerFile := str "/p/main.go"
  callKind := kCallKindMethod
  arity := 1
  startRow := 7
  startCol := 2
  resolveStrategy := []
  qualifiedTarget := str "c.Get"
  receiverText := str "c"
  receiverType := str "*Cache"
  importAlias := []
  callSiteFile := str "/p/main.go"

theorem scoredEdge_order_independent_homonyms :
    scoredEdge homonyms getReference (homonyms.entityIndex (str "Get")) =
      scoredEdge homonyms getReference (homonyms.entityIndex (str "Get")).reverse :=
  (scoredEdge_order_independent homonyms getReference (List.reverse_perm _).symm
    (by decide)).2

end CodeScope.Resolver
