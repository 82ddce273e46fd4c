import CodeScope.Resolver.Pipeline

/-! # Every edge passes the hard filters

The fast path, the dispatch expansion and the scored selection each apply the filters themselves.
Each is shown to stage only edges that pass, and the run is the concatenation of their answers. -/

namespace CodeScope.Resolver

open Text (Str str lower)

/-- The hard filters on an edge staged for a reference: its target is a loaded entity other than
    the caller, of a compatible language, and visible from the caller's file. -/
def PassesFilters (p : ResolverPipeline) (ref : RefRow) (e : ResolvedEdge) : Prop :=
  e.callerId = ref.callerId ∧
    ∃ c ∈ p.candidates, c.entityId = e.targetId ∧ e.targetId ≠ e.callerId ∧
      languagesCompatible (languageFromPath ref.callerFile) c.language = true ∧
      5 / 10 ≤ factorVisibilityCheck c.language c.name ref.callerFile c.filePath

/-- The reference was expanded by dispatch. -/
def Expanded (edges : List ResolvedEdge) : Prop :=
  ∃ e ∈ edges, e.resolutionKind = str "dispatch"

/-- The edges one reference may stage. -/
def AnswerOk (p : ResolverPipeline) (ref : RefRow) (edges : List ResolvedEdge) : Prop :=
  (∀ e ∈ edges, PassesFilters p ref e) ∧ (¬ Expanded edges → edges.length ≤ 1)

variable {p : ResolverPipeline} {ref : RefRow} {cands : List Candidate}

theorem PassesFilters.of_candidate {c : Candidate} (hc : c ∈ p.candidates)
    (hcaller : c.entityId ≠ ref.callerId) (hlang : languageOk ref c = true)
    (hvisible : visibleTo ref c = true) (confidence : ℚ) (kind reason : Str) :
    PassesFilters p ref (ref.edge c.entityId confidence kind reason) := by
  unfold visibleTo at hvisible
  rw [decide_eq_true_eq] at hvisible
  exact ⟨rfl, c, hc, rfl, hcaller, hlang, hvisible⟩

/-! ## The fast path -/

theorem fastPath_passes {usedFuzzy : Bool} {e : ResolvedEdge}
    (hcands : ∀ c ∈ cands, c ∈ p.candidates) (h : fastPath ref cands usedFuzzy = .emit e) :
    PassesFilters p ref e := by
  unfold fastPath at h
  split at h
  · rename_i c
    split_ifs at h with hcaller hlang hlocal
    -- a fuzzy and an exact candidate differ in the labels only
    all_goals
      obtain ⟨-, -, hvisible⟩ := hlocal
      have hlangOk : languageOk ref c = true := by simpa using hlang
      rw [← FastPath.emit.inj h]
      exact PassesFilters.of_candidate (hcands c (by simp)) hcaller hlangOk hvisible _ _ _
  · exact absurd h (by simp)

/-! ## Dispatch -/

/-- What holds of every edge of an expansion. -/
def DispatchOk (p : ResolverPipeline) (ref : RefRow) (e : ResolvedEdge) : Prop :=
  PassesFilters p ref e ∧ e.resolutionKind = str "dispatch"

theorem dispatchEdge_ok {implType : Str} {c : Candidate} (hc : c ∈ p.candidates)
    (h : dispatchesTo ref implType c = true) : DispatchOk p ref (dispatchEdge ref implType c) := by
  unfold dispatchesTo at h
  simp only [Bool.and_eq_true, decide_eq_true_eq] at h
  obtain ⟨⟨⟨hcaller, -⟩, hlang⟩, hvisible⟩ := h
  exact ⟨PassesFilters.of_candidate hc hcaller hlang hvisible _ _ _, rfl⟩

theorem dispatchImpl_ok (implType : Str) (size : Nat) {edges : List ResolvedEdge}
    (hcands : ∀ c ∈ cands, c ∈ p.candidates) (hedges : ∀ e ∈ edges, DispatchOk p ref e) :
    ∀ e ∈ (dispatchImpl ref size implType cands edges).1, DispatchOk p ref e := by
  induction cands generalizing edges with
  | nil => exact hedges
  | cons c rest ih =>
      have hrest : ∀ c ∈ rest, c ∈ p.candidates := fun d hd => hcands d (List.mem_cons_of_mem _ hd)
      rw [dispatchImpl]
      split_ifs with hto
      · have hstep : ∀ e ∈ edges ++ [dispatchEdge ref implType c], DispatchOk p ref e := by
          intro e he
          rcases List.mem_append.mp he with hold | hnew
          · exact hedges e hold
          · rw [List.mem_singleton.mp hnew]
            exact dispatchEdge_ok (hcands c (by simp)) hto
        dsimp only
        split_ifs with hdone
        · exact hstep
        · exact ih hrest hstep
      · exact ih hrest hedges

theorem dispatchImpls_ok {impls : List Str} {edges : List ResolvedEdge}
    (hcands : ∀ c ∈ cands, c ∈ p.candidates) (hedges : ∀ e ∈ edges, DispatchOk p ref e) :
    ∀ e ∈ dispatchImpls ref cands impls edges, DispatchOk p ref e := by
  induction impls generalizing edges with
  | nil => exact hedges
  | cons implType rest ih =>
      have hone := dispatchImpl_ok implType cands.length hcands hedges
      rw [dispatchImpls]
      split
      · rename_i edges' heq
        rw [heq] at hone
        exact hone
      · rename_i edges' heq
        rw [heq] at hone
        exact ih hone

theorem dispatchEdges_ok (ref : RefRow) (receiver : Str) (hcands : ∀ c ∈ cands, c ∈ p.candidates) :
    ∀ e ∈ dispatchEdges p ref cands receiver, DispatchOk p ref e := by
  unfold dispatchEdges
  split_ifs
  · simp
  · exact dispatchImpls_ok hcands (by simp)

/-! ## The scored selection -/

/-- The running best is one of the candidates seen that pass the filters. -/
theorem Selection.foldl_best {P : Scored → Prop} {ranking : List Scored} {sel : Selection}
    (hseen : ∀ s, sel.best = some s → P s) (hranking : ∀ s ∈ ranking, eligible ref s = true → P s) :
    ∀ s, (ranking.foldl (Selection.step ref) sel).best = some s → P s := by
  induction ranking generalizing sel with
  | nil => exact hseen
  | cons s rest ih =>
      refine ih ?_ fun t ht => hranking t (List.mem_cons_of_mem _ ht)
      intro t ht
      unfold Selection.step at ht
      split_ifs at ht with hskip hbest hsecond
      · exact hseen t ht
      · rw [← Option.some.inj ht]
        exact hranking s (by simp) (by simpa using hskip)
      · exact hseen t ht
      · exact hseen t ht

theorem selectRanked_some {ranking : List Scored} {best : Scored}
    (h : selectRanked ref ranking = some best) : best ∈ ranking ∧ eligible ref best = true := by
  unfold selectRanked at h
  simp only at h
  split_ifs at h
  exact Selection.foldl_best (P := fun s => s ∈ ranking ∧ eligible ref s = true)
    (by simp [Selection.init]) (fun s hs hok => ⟨hs, hok⟩) best h

theorem scoredEdge_passes {e : ResolvedEdge} (hcands : ∀ c ∈ cands, c ∈ p.candidates)
    (h : scoredEdge p ref cands = some e) : PassesFilters p ref e := by
  obtain ⟨best, hbest, rfl⟩ := Option.map_eq_some_iff.mp h
  obtain ⟨hmem, hok⟩ := selectRanked_some hbest
  obtain ⟨c, hc, rfl⟩ := mem_applyConstraints.mp hmem
  unfold eligible at hok
  simp only [Bool.and_eq_true, decide_eq_true_eq] at hok
  obtain ⟨⟨hcaller, hvisible⟩, hlang⟩ := hok
  exact PassesFilters.of_candidate (hcands c hc) hcaller hlang hvisible _ _ _

theorem slowPath_ok {receiver : Str} (hcands : ∀ c ∈ cands, c ∈ p.candidates) :
    AnswerOk p ref (slowPath p ref cands receiver) := by
  have hdispatch := dispatchEdges_ok ref receiver hcands
  unfold slowPath
  split
  · refine ⟨?_, ?_⟩
    · intro e he
      exact scoredEdge_passes hcands (by simpa using he)
    · intro _
      cases scoredEdge p ref cands <;> simp
  · rename_i hne
    refine ⟨fun e he => (hdispatch e he).1, ?_⟩
    intro hnot
    cases hedges : dispatchEdges p ref cands receiver with
    | nil => simp
    | cons e rest =>
        have hmem : e ∈ dispatchEdges p ref cands receiver := by rw [hedges]; simp
        exact absurd ⟨e, hmem, (hdispatch e hmem).2⟩ hnot

/-! ## The run -/

theorem resolveReference_ok (p : ResolverPipeline) (st : RunState) (ref : RefRow)
    (elapsed : Nat) :
    ∃ edges, (resolveReference p st ref elapsed).resolvedEdges = st.resolvedEdges ++ edges ∧
      AnswerOk p ref edges := by
  obtain ⟨edges, hedges, hcases⟩ := resolveReference_cases p st ref elapsed
  refine ⟨edges, hedges, ?_⟩
  rcases hcases with rfl | ⟨cands, hcands, ⟨usedFuzzy, e, hfast, rfl⟩ | ⟨receiver, rfl⟩⟩
  · exact ⟨by simp, by simp⟩
  · refine ⟨?_, by simp⟩
    intro e' he'
    rw [List.mem_singleton.mp he']
    exact fastPath_passes hcands hfast
  · exact slowPath_ok hcands

theorem foldl_answers (p : ResolverPipeline) (refs : List (RefRow × Nat)) (st : RunState) :
    ∃ answers : List (List ResolvedEdge),
      (refs.foldl (fun st r => resolveReference p st r.1 r.2) st).resolvedEdges =
        st.resolvedEdges ++ answers.flatten ∧
      List.Forall₂ (fun r edges => AnswerOk p r.1 edges) refs answers := by
  induction refs generalizing st with
  | nil => exact ⟨[], by simp, List.Forall₂.nil⟩
  | cons r rest ih =>
      obtain ⟨edges, hedges, hok⟩ := resolveReference_ok p st r.1 r.2
      obtain ⟨answers, hrun, hall⟩ := ih (resolveReference p st r.1 r.2)
      refine ⟨edges :: answers, ?_, List.Forall₂.cons hok hall⟩
      rw [List.foldl_cons, hrun, hedges, List.flatten_cons, List.append_assoc]

/-- **Every staged edge passes the hard filters**, whichever path staged it: the run stages one
    answer per reference, in their order; every edge of an answer goes from the reference's caller
    to another entity of a compatible language that is visible from the caller's file, and an
    answer that dispatch did not expand has at most one edge. -/
theorem staged_edges_pass_filters (p : ResolverPipeline) (refs : List (RefRow × Nat)) :
    ∃ answers : List (List ResolvedEdge),
      (resolveReferences p refs).resolvedEdges = answers.flatten ∧
      List.Forall₂ (fun r edges => AnswerOk p r.1 edges) refs answers := by
  obtain ⟨answers, hrun, hall⟩ := foldl_answers p refs RunState.init
  refine ⟨answers, ?_, hall⟩
  unfold resolveReferences
  rw [hrun]
  rfl

end CodeScope.Resolver
