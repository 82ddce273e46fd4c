import CodeScope.Library.LimitedSearch
import CodeScope.Resolver.Pipeline

/-! # What the dispatch expansion reaches

The expansion walks the implementing types and, for each, the candidates, and stops once as many
edges are out as there are candidates. Here its edges are written as the beginning of the list of all
matching pairs, which tells when every target gets its one edge. -/

namespace CodeScope.Resolver

open Text (Str str lower)

/-- A pair of the two loops: an implementing type and a candidate. -/
abbrev DispatchPair := Str × Candidate

/-- The matching pairs, in the order of the loops. -/
def dispatchPairs (ref : RefRow) (impls : List Str) (cands : List Candidate) :
    List DispatchPair :=
  impls.flatMap fun implType => (cands.filter (dispatchesTo ref implType)).map (implType, ·)

def DispatchPair.edge (ref : RefRow) (pair : DispatchPair) : ResolvedEdge :=
  dispatchEdge ref pair.1 pair.2

/-! ## The loops -/

variable {ref : RefRow} {cands : List Candidate} {impls : List Str}

theorem dispatchImpl_eq {size : ℕ} {implType : Str} {edges : List ResolvedEdge}
    (h : edges.length < size) :
    dispatchImpl ref size implType cands edges =
      (let all := edges ++ (cands.filter (dispatchesTo ref implType)).map (dispatchEdge ref implType)
      (all.take size, decide (size ≤ all.length))) := by
  induction cands generalizing edges with
  | nil => simp [dispatchImpl, List.take_of_length_le h.le, h]
  | cons c rest ih =>
      rw [dispatchImpl]
      by_cases hto : dispatchesTo ref implType c = true
      · rw [if_pos hto, List.filter_cons_of_pos hto, List.map_cons]
        dsimp only
        rw [List.append_cons edges _ (List.map _ _)]
        split_ifs with hdone
        · rw [List.take_append_of_le_length hdone, List.take_of_length_le]
          · rw [List.length_append, decide_eq_true (hdone.trans (Nat.le_add_right _ _))]
          · simp only [List.length_append, List.length_singleton]
            omega
        · exact ih (not_le.mp hdone)
      · rw [if_neg hto, List.filter_cons_of_neg hto, ih h]

theorem dispatchPairs_cons (ref : RefRow) (implType : Str) (impls : List Str)
    (cands : List Candidate) :
    (dispatchPairs ref (implType :: impls) cands).map (DispatchPair.edge ref) =
      (cands.filter (dispatchesTo ref implType)).map (dispatchEdge ref implType) ++
        (dispatchPairs ref impls cands).map (DispatchPair.edge ref) := by
  rw [dispatchPairs, List.flatMap_cons, List.map_append, List.map_map]
  rfl

theorem dispatchImpls_eq {edges : List ResolvedEdge} (h : edges.length < cands.length) :
    dispatchImpls ref cands impls edges =
      (edges ++ (dispatchPairs ref impls cands).map (DispatchPair.edge ref)).take cands.length := by
  induction impls generalizing edges with
  | nil => simp [dispatchImpls, dispatchPairs, List.take_of_length_le h.le]
  | cons implType rest ih =>
      rw [dispatchImpls, dispatchImpl_eq h, dispatchPairs_cons, ← List.append_assoc]
      dsimp only
      generalize edges ++ (cands.filter (dispatchesTo ref implType)).map
        (dispatchEdge ref implType) = all
      by_cases hdone : cands.length ≤ all.length
      · rw [decide_eq_true hdone, List.take_append_of_le_length hdone]
      · rw [decide_eq_false hdone, List.take_of_length_le (not_le.mp hdone).le]
        exact ih (not_le.mp hdone)

/-- **The edges are the first matching pairs**, as many as there are candidates. -/
theorem dispatchEdges_eq {p : ResolverPipeline} {receiver : Str} (hreceiver : receiver ≠ [])
    (ref : RefRow) (cands : List Candidate) :
    dispatchEdges p ref cands receiver =
      ((dispatchPairs ref (p.interfaceImplIndex receiver) cands).take cands.length).map
        (DispatchPair.edge ref) := by
  rw [dispatchEdges, if_neg hreceiver]
  cases cands with
  | nil =>
      have hnone : ∀ impls : List Str, dispatchImpls ref [] impls [] = [] := by
        intro impls
        induction impls with
        | nil => rfl
        | cons implType rest ih => exact ih
      rw [hnone]
      rfl
  | cons c rest => rw [dispatchImpls_eq (by simp), List.nil_append, List.map_take]

/-! ## One edge to each target -/

/-- The candidates an expansion is meant to reach: they pass the hard filters, and their qualified
    name is that of a member of an implementing type. -/
structure DispatchTarget (ref : RefRow) (impls : List Str) (c : Candidate) : Prop where
  not_caller : c.entityId ≠ ref.callerId
  language : languageOk ref c = true
  visible : visibleTo ref c = true
  member : ∃ implType ∈ impls,
    (implType ++ str "::") <+: c.qualifiedName ∨ (implType ++ str ".") <+: c.qualifiedName

/-- One edge to each target, and no other edge. -/
structure ExactDispatch (ref : RefRow) (impls : List Str) (cands : List Candidate)
    (edges : List ResolvedEdge) : Prop where
  sound : ∀ e ∈ edges, ∃ c ∈ cands, DispatchTarget ref impls c ∧ e.targetId = c.entityId
  complete : ∀ c ∈ cands, DispatchTarget ref impls c → ∃ e ∈ edges, e.targetId = c.entityId
  once : (edges.map ResolvedEdge.targetId).Nodup

theorem memberOf_iff {implType qualifiedName : Str} :
    memberOf implType qualifiedName = true ↔
      (implType ++ str "::") <+: qualifiedName ∨ (implType ++ str ".") <+: qualifiedName := by
  rw [memberOf, Bool.and_eq_true, List.isPrefixOf_iff_prefix]
  constructor
  · rintro ⟨⟨rest, rfl⟩, hsep⟩
    rw [List.drop_left] at hsep
    simp only [List.prefix_append_right_inj]
    split at hsep
    · exact Or.inr ⟨_, rfl⟩
    · exact Or.inl ⟨_, rfl⟩
    · exact absurd hsep (by simp)
  · rintro (⟨rest, rfl⟩ | ⟨rest, rfl⟩)
    · refine ⟨⟨_, (List.append_assoc _ _ _).symm⟩, ?_⟩
      rw [List.append_assoc, List.drop_left]
      rfl
    · refine ⟨⟨_, (List.append_assoc _ _ _).symm⟩, ?_⟩
      rw [List.append_assoc, List.drop_left]
      rfl

theorem dispatchTarget_iff {c : Candidate} :
    DispatchTarget ref impls c ↔ ∃ implType ∈ impls, dispatchesTo ref implType c = true := by
  simp only [dispatchesTo, Bool.and_eq_true, decide_eq_true_eq, memberOf_iff]
  constructor
  · rintro ⟨hcaller, hlang, hvisible, implType, hmem, hmember⟩
    exact ⟨implType, hmem, ⟨⟨hcaller, hmember⟩, hlang⟩, hvisible⟩
  · rintro ⟨implType, hmem, ⟨⟨hcaller, hmember⟩, hlang⟩, hvisible⟩
    exact ⟨hcaller, hlang, hvisible, implType, hmem, hmember⟩

theorem mem_dispatchPairs {pair : DispatchPair} :
    pair ∈ dispatchPairs ref impls cands ↔
      pair.1 ∈ impls ∧ pair.2 ∈ cands ∧ dispatchesTo ref pair.1 pair.2 = true := by
  obtain ⟨implType, c⟩ := pair
  simp [dispatchPairs]

/-- No entity is reached by a second matching pair, unless as many pairs have matched before as there
    are candidates. -/
def NoEarlyRepeat (ref : RefRow) (impls : List Str) (cands : List Candidate) : Prop :=
  ∀ before pair after, dispatchPairs ref impls cands = before ++ pair :: after →
    (∃ earlier ∈ before, earlier.2.entityId = pair.2.entityId) → cands.length ≤ before.length

/-- **When the expansion is exact**: every target gets its one edge exactly when no second pair
    reaches an entity before the expansion stops. -/
theorem exactDispatch_iff {p : ResolverPipeline} {receiver : Str} (hreceiver : receiver ≠ [])
    (ref : RefRow) (cands : List Candidate) :
    ExactDispatch ref (p.interfaceImplIndex receiver) cands (dispatchEdges p ref cands receiver) ↔
      NoEarlyRepeat ref (p.interfaceImplIndex receiver) cands := by
  generalize hpairs : dispatchPairs ref (p.interfaceImplIndex receiver) cands = pairs
  have htargets : (dispatchEdges p ref cands receiver).map ResolvedEdge.targetId =
      (pairs.take cands.length).map fun pair => pair.2.entityId := by
    rw [dispatchEdges_eq hreceiver, hpairs, List.map_map]
    rfl
  have honce : ((dispatchEdges p ref cands receiver).map ResolvedEdge.targetId).Nodup ↔
      NoEarlyRepeat ref (p.interfaceImplIndex receiver) cands := by
    rw [htargets, LimitedSearch.nodup_take_iff, NoEarlyRepeat, hpairs]
  refine ⟨fun h => honce.mp h.once, fun h => ⟨?_, ?_, honce.mpr h⟩⟩
  · intro e he
    rw [dispatchEdges_eq hreceiver, hpairs] at he
    obtain ⟨pair, hpair, rfl⟩ := List.mem_map.mp he
    obtain ⟨himpl, hc, hto⟩ := mem_dispatchPairs.mp (hpairs ▸ List.mem_of_mem_take hpair)
    exact ⟨pair.2, hc, dispatchTarget_iff.mpr ⟨pair.1, himpl, hto⟩, rfl⟩
  · intro c hc htarget
    obtain ⟨implType, himpl, hto⟩ := dispatchTarget_iff.mp htarget
    have hpair : (implType, c) ∈ pairs := hpairs ▸ mem_dispatchPairs.mpr ⟨himpl, hc, hto⟩
    have hmem : c.entityId ∈ (dispatchEdges p ref cands receiver).map ResolvedEdge.targetId := by
      rw [htargets]
      by_cases hall : pairs.length ≤ cands.length
      · rw [List.take_of_length_le hall]
        exact List.mem_map_of_mem (f := fun pair : DispatchPair => pair.2.entityId) hpair
      · -- the distinct targets are as many as the candidates
        refine LimitedSearch.mem_of_full (htargets ▸ honce.mpr h) ?_ ?_
          (List.mem_map_of_mem (f := Candidate.entityId) hc)
        · intro id hid
          obtain ⟨pair, hmem, rfl⟩ := List.mem_map.mp hid
          have hcand := (mem_dispatchPairs.mp (hpairs ▸ List.mem_of_mem_take hmem)).2.1
          exact List.mem_map_of_mem (f := Candidate.entityId) hcand
        · rw [List.length_map, List.length_map, List.length_take_of_le (not_le.mp hall).le]
    obtain ⟨e, he, heq⟩ := List.mem_map.mp hmem
    exact ⟨e, he, heq⟩

/-- A shape, another one nested in it, and a third: all three implement the interface. -/
def shapes : ResolverPipeline where
  entities := [
    ⟨1, str "main", str "/p/main.cpp", str "cpp", 0, 0, []⟩,
    ⟨2, str "area", str "/p/frame.cpp", str "cpp", 0, 0, str "Frame::Corner::area"⟩,
    ⟨3, str "area", str "/p/circle.cpp", str "cpp", 0, 0, str "Circle::area"⟩]
  ids_positive := by decide
  ids_nodup := by decide
  imports := []
  importBindings := []
  interfaceImplIndex := fun iface =>
    if iface = str "Shape" then [str "Frame", str "Frame::Corner", str "Circle"]
    else if iface = str "Round" then [str "Circle", str "Frame::Corner"] else []
  globalStructFields := fun _ _ => none
  globalVarTypes := fun _ => []
  fuzzy := fun _ => []
  disableFactor := []
  toString := fun _ => []

/-- `shape.area()` -/
def areaCall : RefRow where
  refId := 1
  name := str "area"
  callerId := 1
  callerFile := str "/p/main.cpp"
  callKind := kCallKindInterface
  arity := 0
  startRow := 9
  startCol := 2
  resolveStrategy := []
  qualifiedTarget := []
  receiverText := str "shape"
  receiverType := str "Shape"
  importAlias := []
  callSiteFile := str "/p/main.cpp"

theorem exactDispatch_iff_round :
    ExactDispatch areaCall (shapes.interfaceImplIndex (str "Round")) (shapes.entityIndex (str "area"))
        (dispatchEdges shapes areaCall (shapes.entityIndex (str "area")) (str "Round")) ↔
      NoEarlyRepeat areaCall (shapes.interfaceImplIndex (str "Round"))
        (shapes.entityIndex (str "area")) :=
  exactDispatch_iff (by decide) areaCall (shapes.entityIndex (str "area"))

/-- The method of the nested type is reached twice, and the third type is not reached. -/
theorem nested_type_starves_dispatch :
    ¬ ExactDispatch areaCall (shapes.interfaceImplIndex (str "Shape"))
        (shapes.entityIndex (str "area"))
        (dispatchEdges shapes areaCall (shapes.entityIndex (str "area")) (str "Shape")) := by
  intro h
  exact absurd h.once (by decide +kernel)

end CodeScope.Resolver
