import CodeScope.Verify.Verifiers

/-! # Verdicts when queries fail

A verifier is cautious on a run if its verdict is the one of the run in which no query fails, or
Unknown. Its queries deliver a part of their rows when they fail, so what they find is there; what
matters is where finding nothing is taken for an answer. -/

namespace CodeScope.Verify

open Text SqlText Store

/-- The verdict of the run without failures, or Unknown. -/
def Cautious (record complete : EvidenceRecord) : Prop :=
  record.verdict = complete.verdict ∨ record.verdict = .unknown

instance (record complete : EvidenceRecord) : Decidable (Cautious record complete) :=
  inferInstanceAs (Decidable (_ ∨ _))

/-! ## What the queries deliver -/

section Delivery

variable (order : RowOrder) {faults : QueryFaults} {q : Query} {rows : List Int}

theorem arrange_eq_nil_iff : order.arrange q rows = [] ↔ rows = [] := by
  have hperm := order.perm q rows
  constructor
  · intro h
    rw [h] at hperm
    exact List.nil_perm.mp hperm
  · rintro rfl
    exact List.perm_nil.mp hperm

theorem mem_of_selectLimited {limit : ℕ} {i : Int}
    (h : i ∈ idsOrNone (selectLimited order faults q limit rows)) : i ∈ rows := by
  rw [idsOrNone] at h
  cases hseen : selectLimited order faults q limit rows with
  | none =>
      rw [hseen] at h
      exact absurd h List.not_mem_nil
  | some seen =>
      rw [hseen] at h
      exact (order.perm q rows).mem_iff.mp (List.mem_of_mem_take (mem_of_collect hseen h))

theorem mem_of_selectIds {i : Int} (h : i ∈ idsOrNone (selectIds order faults q rows)) :
    i ∈ rows := by
  rw [idsOrNone] at h
  cases hseen : selectIds order faults q rows with
  | none =>
      rw [hseen] at h
      exact absurd h List.not_mem_nil
  | some seen =>
      rw [hseen] at h
      exact (order.perm q rows).mem_iff.mp (mem_of_collect hseen h)

theorem mem_selectIds_unfailing {i : Int} :
    i ∈ idsOrNone (selectIds order unfailing q rows) ↔ i ∈ rows :=
  (order.perm q rows).mem_iff

theorem selectLimited_unfailing_ne_nil {limit : ℕ} (hlimit : 0 < limit) (h : rows ≠ []) :
    idsOrNone (selectLimited order unfailing q limit rows) ≠ [] := by
  have hrows : order.arrange q rows ≠ [] := mt (arrange_eq_nil_iff order).mp h
  intro hnil
  rcases List.take_eq_nil_iff.mp hnil with hzero | hnil
  · omega
  · exact hrows hnil

theorem selectIds_eq_nil_iff {seen : List Int} (h : selectIds order faults q rows = some seen) :
    seen = [] ↔ rows = [] ∨ Silenced (faults q) rows := by
  rw [collect_eq_nil_iff h, Silenced, Silenced, Ne, arrange_eq_nil_iff]

end Delivery

/-! ## The gate -/

theorem evidenceBackendReady_unfailing {faults : QueryFaults} {db : Facts} {project : ℕ}
    (h : evidenceBackendReady faults db project = true) :
    evidenceBackendReady unfailing db project = true := by
  rw [evidenceBackendReady, Bool.and_eq_true] at h ⊢
  have hentities : 0 < entityCount faults db project := of_decide_eq_true h.1
  have hrelations : 0 < relationCount faults db project := of_decide_eq_true h.2
  exact ⟨decide_eq_true (hentities.trans_le (countRows_le _ _)),
    decide_eq_true (hrelations.trans_le (countRows_le _ _))⟩

/-- A verifier is cautious exactly when it is past an open gate. -/
theorem cautious_gated_iff {name : String} {faults : QueryFaults} {backend : Backend} {project : ℕ}
    {body complete : Facts → EvidenceRecord} :
    Cautious (gated name faults backend project body)
        (gated name unfailing backend project complete) ↔
      ∀ db, backend = .database db → evidenceBackendReady faults db project = true →
        Cautious (body db) (complete db) := by
  cases backend with
  | noStore | noHandle => exact iff_of_true (Or.inl rfl) nofun
  | database db =>
      by_cases hready : evidenceBackendReady faults db project = true
      · simp only [gated, hready, evidenceBackendReady_unfailing hready, if_true]
        constructor
        · intro h db' hdb _
          cases hdb
          exact h
        · intro h
          exact h db rfl hready
      · constructor
        · intro _ db' hdb hopen
          cases hdb
          exact absurd hopen hready
        · intro _
          right
          simp only [gated, hready]
          rfl

/-! ## CapabilityVerifier -/

namespace CapabilityVerifier

variable (order : RowOrder) (faults : QueryFaults) (db : Facts) (project : ℕ) (claim : Claim)

/-- The capability is declared and implemented, and a first step that fails hides one or the
    other. -/
def Misled : Prop :=
  declaredRows db project claim.subject ≠ [] ∧ implementing db project claim.subject ≠ [] ∧
    (faults .capability = some (.step 0) ∨
      (faults .capability ≠ some .prepare ∧ faults .implementing = some (.step 0)))

theorem capabilityDeclared_eq (subject : Str) :
    capabilityDeclared faults db project subject =
      if faults .capability = some .prepare then none
      else some (decide (declaredRows db project subject ≠ [] ∧
        faults .capability ≠ some (.step 0))) := by
  rw [capabilityDeclared]
  generalize declaredRows db project subject = rows
  rcases faults .capability with _ | _ | k
  · cases rows <;> simp [collect]
  · simp [collect]
  · cases k with
    | zero => simp [collect]
    | succ k => cases rows <;> simp [collect]

/-- The verdict on a declared capability. -/
def implementingVerdict (ids : Option (List Int)) : Verdict :=
  match ids with
  | none => .unknown
  | some [] => .contradicted
  | some (_ :: _) => .supported

theorem implementingVerdict_eq (subject : Str) :
    implementingVerdict (implementingEntitiesFor db project subject (order.arrange .implementing)
        (faults .implementing)) =
      if faults .implementing = some .prepare then .unknown
      else if implementing db project subject = [] ∨ faults .implementing = some (.step 0) then
        .contradicted
      else .supported := by
  rw [implementingEntitiesFor]
  have hnil : order.arrange .implementing (implementing db project subject) = [] ↔
      implementing db project subject = [] := arrange_eq_nil_iff order
  revert hnil
  generalize implementing db project subject = rows
  generalize order.arrange .implementing rows = seen
  intro hnil
  rcases faults .implementing with _ | _ | k
  · cases seen <;> simp_all [collect, implementingVerdict]
  · simp [collect, implementingVerdict]
  · cases k with
    | zero => simp [collect, implementingVerdict]
    | succ k => cases seen <;> simp_all [collect, implementingVerdict]

theorem verifyOpen_verdict : (verifyOpen order faults db project claim).verdict =
    if faults .capability = some .prepare then .unknown
    else if declaredRows db project claim.subject = [] ∨ faults .capability = some (.step 0) then
      .contradicted
    else implementingVerdict (implementingEntitiesFor db project claim.subject
      (order.arrange .implementing) (faults .implementing)) := by
  rw [verifyOpen, capabilityDeclared_eq]
  by_cases hprepare : faults .capability = some .prepare
  · rw [if_pos hprepare, if_pos hprepare]
    rfl
  · rw [if_neg hprepare, if_neg hprepare]
    by_cases hseen : declaredRows db project claim.subject = [] ∨
        faults .capability = some (.step 0)
    · have hfound : ¬ (declaredRows db project claim.subject ≠ [] ∧
          faults .capability ≠ some (.step 0)) := by tauto
      rw [if_pos hseen, decide_eq_false hfound]
      rfl
    · have hfound : declaredRows db project claim.subject ≠ [] ∧
          faults .capability ≠ some (.step 0) := by tauto
      rw [if_neg hseen, decide_eq_true hfound]
      simp only
      generalize implementingEntitiesFor db project claim.subject _ _ = ids
      rcases ids with _ | _ | ⟨id, ids⟩ <;> rfl

theorem verifyOpen_cautious_iff :
    Cautious (verifyOpen order faults db project claim)
      (verifyOpen order unfailing db project claim) ↔ ¬ Misled faults db project claim := by
  have hunfailing : ∀ q f, unfailing q = some f ↔ False := fun _ _ => iff_of_false nofun id
  rw [Cautious, verifyOpen_verdict, verifyOpen_verdict, implementingVerdict_eq,
    implementingVerdict_eq, Misled]
  simp only [hunfailing, or_false, if_false]
  by_cases hdeclared : declaredRows db project claim.subject = []
  · simp only [hdeclared, true_or, if_true, ne_eq, not_true, false_and, not_false_iff, iff_true]
    split
    · exact Or.inr rfl
    · exact Or.inl rfl
  · by_cases himplementing : implementing db project claim.subject = []
    · simp only [himplementing, ne_eq, not_true, false_and, and_false, not_false_iff, iff_true,
        true_or, if_true, ite_self]
      split_ifs <;> simp
    · by_cases hstep : faults .capability = some (.step 0)
      · simp [hdeclared, himplementing, hstep]
      · by_cases hprepare : faults .capability = some .prepare
        · simp [hprepare]
        · by_cases hsilent : faults .implementing = some (.step 0)
          · simp [hdeclared, himplementing, hstep, hprepare, hsilent]
          · simp only [hdeclared, himplementing, hstep, hprepare, hsilent]
            split_ifs <;> simp_all

end CapabilityVerifier

/-! ## ContractVerifier -/

namespace ContractVerifier

variable (order : RowOrder) (faults : QueryFaults) (db : Facts) (project : ℕ) (claim : Claim)

theorem contractDeclared_unfailing {subject : Str}
    (h : contractDeclared faults db project subject = true) :
    contractDeclared unfailing db project subject = true := by
  simp only [contractDeclared, Bool.not_eq_true', List.isEmpty_eq_false_iff] at h ⊢
  cases hseen : collect (faults .contract) ((contractRows db project subject).take 1) with
  | none =>
      rw [hseen] at h
      exact absurd rfl h
  | some seen =>
      rw [hseen] at h
      obtain ⟨c, hc⟩ := List.exists_mem_of_ne_nil _ h
      exact List.ne_nil_of_mem (mem_of_collect hseen hc)

/-- Finding nothing is no answer here, so no failure misleads a rule. -/
theorem byPatterns_cautious (patterns : List Str) (found missing found' missing' : ℚ)
    (foundText missingText foundText' missingText' : Str) :
    Cautious (byPatterns order faults db project patterns found missing foundText missingText)
      (byPatterns order unfailing db project patterns found' missing' foundText' missingText') := by
  cases hseen : entitiesMatchingAny order faults db project patterns with
  | nil =>
      right
      rw [byPatterns, hseen]
      rfl
  | cons id ids =>
      left
      have hid : id ∈ entitiesMatchingAny order unfailing db project patterns := by
        have hmem : id ∈ entitiesMatchingAny order faults db project patterns := by
          rw [hseen]
          exact List.mem_cons_self
        rw [entitiesMatchingAny] at hmem ⊢
        split at hmem
        · exact absurd hmem List.not_mem_nil
        · rename_i hpatterns
          rw [if_neg hpatterns, mem_selectIds_unfailing]
          exact mem_of_selectIds order hmem
      rw [byPatterns, hseen, byPatterns]
      cases hall : entitiesMatchingAny order unfailing db project patterns with
      | nil =>
          rw [hall] at hid
          exact absurd hid List.not_mem_nil
      | cons id' ids' => rfl

theorem verifyOpen_cautious :
    Cautious (verifyOpen order faults db project claim)
      (verifyOpen order unfailing db project claim) := by
  cases hdeclared : contractDeclared faults db project claim.subject with
  | false =>
      right
      rw [verifyOpen, if_pos hdeclared]
      rfl
  | true =>
      rw [verifyOpen, verifyOpen, contractDeclared_unfailing faults db project hdeclared,
        hdeclared]
      simp only [Bool.true_eq_false, if_false]
      split_ifs
      · exact byPatterns_cautious order faults db project _ _ _ _ _ _ _ _ _
      · exact byPatterns_cautious order faults db project _ _ _ _ _ _ _ _ _
      · exact byPatterns_cautious order faults db project _ _ _ _ _ _ _ _ _
      · exact Or.inl rfl

end ContractVerifier

/-! ## FunctionImplementsVerifier -/

namespace FunctionImplementsVerifier

variable (order : RowOrder) (faults : QueryFaults) (db : Facts) (project : ℕ) (claim : Claim)

/-- The function is there, and the first step of the search for it fails. -/
def Misled : Prop :=
  claim.subject ≠ [] ∧ Silenced (faults .functions) (functionRows db project claim.subject)

theorem supported_verdict (fnIds edges : List Int) :
    (supported order faults db project claim fnIds edges).verdict = .supported := by
  simp only [supported]
  split_ifs <;> rfl

/-- The verdict, by what the first two searches find. -/
theorem verifyOpen_verdict : (verifyOpen order faults db project claim).verdict =
    match findFunctionEntities order faults db project claim.subject with
    | none => .unknown
    | some [] => .contradicted
    | some (id :: ids) =>
        if collectCallEdges order faults db project (id :: ids) = [] then .unknown
        else .supported := by
  rw [verifyOpen]
  rcases findFunctionEntities order faults db project claim.subject with _ | _ | ⟨id, ids⟩
  · rfl
  · rfl
  · simp only
    cases collectCallEdges order faults db project (id :: ids) with
    | nil => rfl
    | cons edge edges =>
        simp only [supported_verdict]
        rfl

/-- Call edges found for some of the entities are found for all of them. -/
theorem collectCallEdges_unfailing {ids ids' : List Int} (hsub : ids ⊆ ids')
    (h : collectCallEdges order faults db project ids ≠ []) :
    collectCallEdges order unfailing db project ids' ≠ [] := by
  rw [collectCallEdges] at h ⊢
  split at h
  · exact absurd rfl h
  · rename_i hids
    have hids' : ids' ≠ [] := by
      rintro rfl
      exact hids (List.subset_nil.mp hsub)
    rw [if_neg hids']
    obtain ⟨edge, hedge⟩ := List.exists_mem_of_ne_nil _ h
    have hrow : edge ∈ touchingRows db project ids' := by
      obtain ⟨r, hr, rfl⟩ := List.mem_map.mp (mem_of_selectLimited order hedge)
      obtain ⟨hcall, htouch⟩ := List.mem_filter.mp hr
      refine List.mem_map_of_mem (List.mem_filter.mpr ⟨hcall, decide_eq_true ?_⟩)
      exact (of_decide_eq_true htouch).imp (fun h => hsub h) (fun h => hsub h)
    exact selectLimited_unfailing_ne_nil order (by decide) (List.ne_nil_of_mem hrow)

theorem findFunctionEntities_unfailing (subject : Str) :
    findFunctionEntities order unfailing db project subject =
      some (if subject = [] then []
        else order.arrange .functions (functionRows db project subject)) := by
  rw [findFunctionEntities]
  split_ifs with hsubject
  · rfl
  · rfl

theorem verifyOpen_cautious_iff :
    Cautious (verifyOpen order faults db project claim)
      (verifyOpen order unfailing db project claim) ↔ ¬ Misled faults db project claim := by
  rw [Cautious, verifyOpen_verdict, verifyOpen_verdict, findFunctionEntities_unfailing, Misled]
  by_cases hsubject : claim.subject = []
  · rw [findFunctionEntities, if_pos hsubject, if_pos hsubject]
    exact iff_of_true (Or.inl rfl) (fun h => h.1 hsubject)
  · rw [findFunctionEntities, if_neg hsubject, if_neg hsubject]
    have hall : order.arrange .functions (functionRows db project claim.subject) = [] ↔
        functionRows db project claim.subject = [] := arrange_eq_nil_iff order
    cases hseen : selectIds order faults .functions (functionRows db project claim.subject) with
    | none =>
        refine iff_of_true (Or.inr rfl) ?_
        rintro ⟨-, hstep, -⟩
        rw [selectIds, hstep] at hseen
        exact absurd hseen (by simp [collect])
    | some seen =>
        have hnil := selectIds_eq_nil_iff order hseen
        have hsub : seen ⊆ order.arrange .functions (functionRows db project claim.subject) :=
          fun i hi => mem_of_collect hseen hi
        revert hall hsub
        generalize order.arrange .functions (functionRows db project claim.subject) = found
        intro hall hsub
        cases seen with
        | nil =>
            cases found with
            | nil =>
                refine iff_of_true (Or.inl rfl) ?_
                rintro ⟨-, -, hrows⟩
                exact hrows (hall.mp rfl)
            | cons id ids =>
                refine iff_of_false ?_ ?_
                · simp only
                  split_ifs <;> simp
                · rcases hnil.mp rfl with hrows | hsilent
                  · exact absurd (hall.mpr hrows) (by simp)
                  · exact not_not_intro ⟨hsubject, hsilent⟩
        | cons id ids =>
            refine iff_of_true ?_ ?_
            · simp only
              by_cases hedges : collectCallEdges order faults db project (id :: ids) = []
              · rw [if_pos hedges]
                exact Or.inr rfl
              · rw [if_neg hedges]
                cases found with
                | nil => exact absurd (List.subset_nil.mp hsub) (by simp)
                | cons id' ids' =>
                    left
                    simp only
                    rw [if_neg (collectCallEdges_unfailing order faults db project hsub hedges)]
            · rintro ⟨-, hsilent⟩
              exact absurd (hnil.mpr (Or.inr hsilent)) (by simp)

end FunctionImplementsVerifier

/-! ## ArchitectureVerifier -/

namespace ArchitectureVerifier

variable (order : RowOrder) (faults : QueryFaults) (db : Facts) (project : ℕ) (claim : Claim)

/-- Members of every layer are delivered and calls down the layers are, while no reverse call is,
    although the complete queries deliver one (or a number of forward calls that `int` reads as
    zero). -/
def Misled : Prop :=
  let seen := layersOf order faults db project claim
  let all := layersOf order unfailing db project claim
  (seen.layer1 ≠ [] ∧ seen.layer2 ≠ [] ∧ seen.layer3 ≠ []) ∧
    violationsOf order faults db project seen = [] ∧
    ¬ (forward1 faults db project seen = 0 ∧ forward2 faults db project seen = 0) ∧
    (violationsOf order unfailing db project all ≠ [] ∨
      (forward1 unfailing db project all = 0 ∧ forward2 unfailing db project all = 0))

theorem collectLayerNodes_subset (q : Query) (layerName : Str) :
    collectLayerNodes order faults db project q layerName ⊆
      collectLayerNodes order unfailing db project q layerName := by
  intro i hi
  rw [collectLayerNodes] at hi ⊢
  split at hi
  · exact absurd hi List.not_mem_nil
  · rename_i hname
    rw [if_neg hname, mem_selectIds_unfailing]
    exact mem_of_selectIds order hi

/-- A reverse call found between some members is found between all. -/
theorem findReverseCalls_subset (q : Query) {sources sources' sinks sinks' : List Int}
    (hsources : sources ⊆ sources') (hsinks : sinks ⊆ sinks') :
    findReverseCalls order faults db project q sources sinks ⊆
      findReverseCalls order unfailing db project q sources' sinks' := by
  intro i hi
  rw [findReverseCalls] at hi ⊢
  split at hi
  · exact absurd hi List.not_mem_nil
  · rename_i hmembers
    obtain ⟨r, hr, rfl⟩ := List.mem_map.mp (mem_of_selectIds order hi)
    obtain ⟨hcall, hends⟩ := List.mem_filter.mp hr
    obtain ⟨hsink, hsource⟩ := of_decide_eq_true hends
    have hmembers' : ¬ (sources' = [] ∨ sinks' = []) := by
      rintro (rfl | rfl)
      · exact absurd (hsources hsource) List.not_mem_nil
      · exact absurd (hsinks hsink) List.not_mem_nil
    rw [if_neg hmembers', mem_selectIds_unfailing]
    exact List.mem_map_of_mem
      (List.mem_filter.mpr ⟨hcall, decide_eq_true ⟨hsinks hsink, hsources hsource⟩⟩)

theorem violationsOf_subset :
    violationsOf order faults db project (layersOf order faults db project claim) ⊆
      violationsOf order unfailing db project (layersOf order unfailing db project claim) := by
  have h1 : (layersOf order faults db project claim).layer1 ⊆
      (layersOf order unfailing db project claim).layer1 :=
    collectLayerNodes_subset order faults db project _ _
  have h2 : (layersOf order faults db project claim).layer2 ⊆
      (layersOf order unfailing db project claim).layer2 :=
    collectLayerNodes_subset order faults db project _ _
  have h3 : (layersOf order faults db project claim).layer3 ⊆
      (layersOf order unfailing db project claim).layer3 :=
    collectLayerNodes_subset order faults db project _ _
  intro i hi
  simp only [violationsOf, List.mem_append] at hi ⊢
  rcases hi with (hi | hi) | hi
  · exact Or.inl (Or.inl (findReverseCalls_subset order faults db project _ h1 h3 hi))
  · exact Or.inl (Or.inr (findReverseCalls_subset order faults db project _ h2 h3 hi))
  · exact Or.inr (findReverseCalls_subset order faults db project _ h1 h2 hi)

theorem judge_verdict (l : Layers) : (judge order faults db project claim l).verdict =
    if violationsOf order faults db project l ≠ [] then .contradicted
    else if forward1 faults db project l = 0 ∧ forward2 faults db project l = 0 then .unknown
    else .supported := by
  simp only [judge]
  split_ifs <;> rfl

theorem verifyOpen_verdict : (verifyOpen order faults db project claim).verdict =
    if (layersOf order faults db project claim).layer1 ≠ [] ∧
        (layersOf order faults db project claim).layer2 ≠ [] ∧
        (layersOf order faults db project claim).layer3 ≠ [] then
      (judge order faults db project claim (layersOf order faults db project claim)).verdict
    else .unknown := by
  simp only [verifyOpen]
  by_cases h1 : (layersOf order faults db project claim).layer1 = []
  · rw [if_pos h1, if_neg fun h => h.1 h1]
    rfl
  · rw [if_neg h1]
    by_cases h2 : (layersOf order faults db project claim).layer2 = []
    · rw [if_pos h2, if_neg fun h => h.2.1 h2]
      rfl
    · rw [if_neg h2]
      by_cases h3 : (layersOf order faults db project claim).layer3 = []
      · rw [if_pos h3, if_neg fun h => h.2.2 h3]
        rfl
      · rw [if_neg h3, if_pos ⟨h1, h2, h3⟩]

theorem verifyOpen_cautious_iff :
    Cautious (verifyOpen order faults db project claim)
      (verifyOpen order unfailing db project claim) ↔
      ¬ Misled order faults db project claim := by
  have hviolations := violationsOf_subset order faults db project claim
  have hlayer1 : (layersOf order faults db project claim).layer1 ⊆
      (layersOf order unfailing db project claim).layer1 :=
    collectLayerNodes_subset order faults db project _ _
  have hlayer2 : (layersOf order faults db project claim).layer2 ⊆
      (layersOf order unfailing db project claim).layer2 :=
    collectLayerNodes_subset order faults db project _ _
  have hlayer3 : (layersOf order faults db project claim).layer3 ⊆
      (layersOf order unfailing db project claim).layer3 :=
    collectLayerNodes_subset order faults db project _ _
  rw [Cautious, verifyOpen_verdict, verifyOpen_verdict]
  simp only [judge_verdict, Misled]
  revert hviolations hlayer1 hlayer2 hlayer3
  generalize layersOf order faults db project claim = seen
  generalize layersOf order unfailing db project claim = all
  generalize violationsOf order faults db project seen = found
  generalize violationsOf order unfailing db project all = present
  intro hviolations hlayer1 hlayer2 hlayer3
  by_cases hseen : seen.layer1 ≠ [] ∧ seen.layer2 ≠ [] ∧ seen.layer3 ≠ []
  · have hall : all.layer1 ≠ [] ∧ all.layer2 ≠ [] ∧ all.layer3 ≠ [] := by
      refine ⟨?_, ?_, ?_⟩
      · exact fun h => hseen.1 (List.subset_nil.mp (h ▸ hlayer1))
      · exact fun h => hseen.2.1 (List.subset_nil.mp (h ▸ hlayer2))
      · exact fun h => hseen.2.2 (List.subset_nil.mp (h ▸ hlayer3))
    rw [if_pos hseen, if_pos hall]
    by_cases hfound : found = []
    · rw [if_neg (not_not_intro hfound)]
      by_cases hforward : forward1 faults db project seen = 0 ∧ forward2 faults db project seen = 0
      · rw [if_pos hforward]
        exact iff_of_true (Or.inr rfl) (fun h => h.2.2.1 hforward)
      · rw [if_neg hforward]
        by_cases hpresent : present = []
        · rw [if_neg (not_not_intro hpresent)]
          by_cases hnone : forward1 unfailing db project all = 0 ∧
              forward2 unfailing db project all = 0
          · rw [if_pos hnone]
            exact iff_of_false (by simp)
              (not_not_intro ⟨hseen, hfound, hforward, Or.inr hnone⟩)
          · rw [if_neg hnone]
            refine iff_of_true (Or.inl rfl) ?_
            rintro ⟨-, -, -, hreverse | hzero⟩
            · exact hreverse hpresent
            · exact hnone hzero
        · rw [if_pos hpresent]
          exact iff_of_false (by simp)
            (not_not_intro ⟨hseen, hfound, hforward, Or.inl hpresent⟩)
    · have hpresent : present ≠ [] := by
        rintro rfl
        exact hfound (List.subset_nil.mp hviolations)
      rw [if_pos hfound, if_pos hpresent]
      exact iff_of_true (Or.inl rfl) (fun h => hfound h.2.1)
  · rw [if_neg hseen]
    exact iff_of_true (Or.inr rfl) (fun h => hseen h.1)

end ArchitectureVerifier

/-! ## The four verifiers -/

/-- A function of the order service. -/
def orderFunction (id : Int) (name : String) : EntityRow where
  id
  project := 1
  kind := 0
  name := str name
  qualifiedName := str name
  filePath := str "order.go"
  language := str "go"
  startRow := 0
  startCol := 0
  endRow := 4
  endCol := 1
  modulePath := []
  visibility := 0
  arity := 0

/-- The controller calls the service, the service the store, and the store the controller. -/
def orderFacts : Facts where
  entity := ⟨[orderFunction 1 "OrderController", orderFunction 2 "OrderService",
    orderFunction 3 "OrderStore"], by decide⟩
  relation := [⟨1, 1, 1, 2, 1⟩, ⟨2, 1, 2, 3, 1⟩, ⟨3, 1, 3, 1, 1⟩]
  scope := []
  capability := [⟨1, str "OrderController"⟩]
  contract := []
  architectureEdge := []
  relationIds := by decide
  scopeIds := List.nodup_nil

/-- Every query delivers its rows in table order. -/
def storedOrder : RowOrder := ⟨fun _ rows => rows, fun _ rows => List.Perm.refl rows⟩

/-- The first step of three queries fails. -/
def threeFailures : QueryFaults
  | .implementing | .functions | .reverse1 => some (.step 0)
  | _ => none

def controllerClaim (type : ClaimType) : Claim :=
  ⟨type, str "OrderController", str "implemented_by", [], str "repository"⟩

def layerClaim : Claim :=
  ⟨.architectureFollows, str "Controller", str "follows", str "Service", str "Repository"⟩

end CodeScope.Verify
