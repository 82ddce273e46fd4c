import CodeScope.Verify.DriftReports

/-! # The drift reports side by side

`engine_detect_drift` asks for an entity of exactly the declared name, `detectCapabilityDrift` for
one that implements it; the contracts are read by a statement that does not fit the schema; and only
some of the reports wait for an entity. The documentation reports alone always agree. -/

namespace CodeScope.Verify

open Text SqlText TextSearch Store

/-! ## Statements -/

theorem contractStatement_unfit : fits contractStatement = false := by
  decide +kernel

theorem capabilityStatement_fits : fits capabilityStatement = true := by
  decide +kernel

variable (db : DriftStore) (project : ℕ)

/-- **No contract is ever reported.** -/
theorem brokenContracts_eq_nil : brokenContracts db project = [] := by
  rw [brokenContracts, select, contractStatement_unfit]
  rfl

/-! ## Capabilities -/

/-- An entity of exactly that name is the target of a relation. -/
def Namesake (name : Str) : Prop :=
  ∃ e ∈ db.entitiesOf project, e.name = name ∧ ∃ r ∈ db.relation, r.targetId = e.id

/-- An entity goes by that name in some spelling, and is called or exported. -/
def Implemented (name : Str) : Prop :=
  name ≠ [] ∧ ∃ e ∈ db.entitiesOf project,
    namesCapability e.name name = true ∧ hasEvidence db.toFacts project e = true

theorem hasNamesake_iff (name : Str) :
    hasNamesake db project name = true ↔ Namesake db project name := by
  simp only [hasNamesake, Namesake, List.any_eq_true, Bool.and_eq_true, decide_eq_true_eq]

theorem countImplementingEntities_pos_iff (name : Str) :
    countImplementingEntities db project name ≠ 0 ↔ Implemented db project name := by
  rw [countImplementingEntities, Implemented]
  by_cases hname : name = []
  · rw [if_pos hname]
    exact iff_of_false (fun h => h rfl) fun h => h.1 hname
  · rw [if_neg hname]
    simp only [implementingEntitiesFor, collect_none, Option.getD_some, id, implementing,
      List.length_map, Ne, List.length_eq_zero_iff, List.filter_eq_nil_iff, Bool.and_eq_true]
    push Not
    exact ⟨fun h => ⟨hname, h⟩, fun h => h.2⟩

theorem filter_perm_iff {α : Type} (p q : α → Bool) (rows : List α) :
    (rows.filter p).Perm (rows.filter q) ↔ ∀ a ∈ rows, p a = q a := by
  constructor
  · intro hperm a ha
    have hmem := hperm.mem_iff (a := a)
    rw [List.mem_filter, List.mem_filter, and_congr_right_iff] at hmem
    exact Bool.eq_iff_iff.mpr (hmem ha)
  · intro heq
    rw [List.filter_congr heq]

theorem missingCapabilities_subjects : (missingCapabilities db project).map DriftItem.subject =
    ((db.capabilitiesOf project).map Declared.name).filter fun n => !hasNamesake db project n := by
  rw [missingCapabilities, select_of_fits (by decide +kernel), List.map_map, List.filter_map]
  rfl

theorem detectCapabilityDrift_subjects
    (hready : evidenceBackendReady unfailing db.toFacts project = true) :
    (detectCapabilityDrift db project).map DriftItem.subject =
      ((db.capabilitiesOf project).map Declared.name).filter fun n =>
        countImplementingEntities db project n = 0 := by
  rw [detectCapabilityDrift, if_pos hready, select_of_fits capabilityStatement_fits, List.map_map,
    List.filter_map]
  rfl

/-- **The capability reports agree exactly when exact names with incoming relations and
    implementations are the same thing** for every declared name. -/
theorem capability_reports_agree_iff
    (hready : evidenceBackendReady unfailing db.toFacts project = true) :
    ((missingCapabilities db project).map DriftItem.subject).Perm
        ((detectCapabilityDrift db project).map DriftItem.subject) ↔
      ∀ c ∈ db.capabilitiesOf project,
        Namesake db project c.name ↔ Implemented db project c.name := by
  rw [missingCapabilities_subjects, detectCapabilityDrift_subjects db project hready,
    filter_perm_iff, List.forall_mem_map]
  refine forall₂_congr fun c _ => ?_
  rw [← hasNamesake_iff, ← countImplementingEntities_pos_iff, Bool.eq_iff_iff,
    decide_eq_true_eq, Bool.not_eq_true', ← Bool.not_eq_true]
  exact not_iff_comm.trans iff_comm

/-! ## Documentation -/

theorem not_pos_iff_eq_zero (n : ℕ) : (!decide (0 < n)) = decide (n = 0) := by
  cases n <;> rfl

/-- **The documentation reports agree as soon as there is an entity.** -/
theorem documentation_reports_agree (hentities : db.entitiesOf project ≠ []) :
    missingLanguages db project = (detectDocumentationDrift db project).map DriftItem.subject := by
  have hpos : ¬ (db.entitiesOf project).length ≤ 0 := fun h =>
    hentities (List.length_eq_zero_iff.mp (Nat.le_zero.mp h))
  simp only [missingLanguages, detectDocumentationDrift, not_pos_iff_eq_zero, if_neg hpos]
  by_cases hreadme : readmeContent db project = []
  · rw [if_pos hreadme, hreadme]
    rfl
  · rw [if_neg hreadme]
    by_cases hclaims : extractLanguageClaims (readmeContent db project) = []
    · rw [if_pos hclaims, hclaims]
      rfl
    · rw [if_neg hclaims, List.map_map]
      rfl

/-! ## No entities -/

theorem countEntitiesByLanguage_of_empty (hnone : db.entitiesOf project = []) (language : Str) :
    countEntitiesByLanguage db project language = 0 := by
  rw [countEntitiesByLanguage, hnone]
  split <;> rfl

theorem missingLanguages_of_empty (hnone : db.entitiesOf project = []) :
    missingLanguages db project =
      (extractLanguageClaims (readmeContent db project)).map LanguageClaim.display := by
  rw [missingLanguages, List.filter_eq_self.mpr]
  intro claim _
  rw [countEntitiesByLanguage_of_empty db project hnone]
  rfl

theorem missingCapabilities_of_empty (hnone : db.entitiesOf project = []) :
    (missingCapabilities db project).map DriftItem.subject =
      (db.capabilitiesOf project).map Declared.name := by
  rw [missingCapabilities_subjects, List.filter_eq_self.mpr]
  intro name _
  rw [hasNamesake, hnone]
  rfl

theorem detectCapabilityDrift_of_empty (hnone : db.entitiesOf project = []) :
    detectCapabilityDrift db project = [] := by
  have hready : ¬ evidenceBackendReady unfailing db.toFacts project = true := by
    rw [evidenceBackendReady, entityCount, hnone]
    simp [countRows, unfailing]
  rw [detectCapabilityDrift, if_neg hready]

theorem detectDocumentationDrift_of_empty (hnone : db.entitiesOf project = []) :
    detectDocumentationDrift db project = [] := by
  simp only [detectDocumentationDrift, hnone, List.length_nil, le_refl, if_true]
  split
  · rfl
  · split <;> rfl

/-- A call edge of the project that breaks the order of the layers. -/
def Violating (edge : EntityRow × EntityRow) : Prop := (edgeItem edge.1 edge.2).isSome

theorem detectArchitectureDrift_eq_nil_iff :
    detectArchitectureDrift db project = [] ↔
      ∀ edge ∈ callEdges db project, ¬ Violating edge := by
  have hlimit : kMaxArchViolations ≠ 0 := by decide
  rw [detectArchitectureDrift, List.take_eq_nil_iff, or_iff_right hlimit,
    List.filterMap_eq_nil_iff]
  refine forall₂_congr fun edge _ => ?_
  rw [Violating, Option.not_isSome_iff_eq_none]

/-! ## One answer -/

/-- The contracts none of whose keywords is part of an entity name. -/
def unkeptContracts : List Declared :=
  (db.contractsOf project).filter fun c => !(db.entitiesOf project).any fun e =>
    (contractKeywords c.name).any fun w => contains (lower w) (lower e.name)

/-- All entry points give one answer, and none without entities. -/
structure OneAnswer : Prop where
  capability : db.entitiesOf project ≠ [] → db.relationsOf project ≠ [] →
    ((missingCapabilities db project).map DriftItem.subject).Perm
      ((detectCapabilityDrift db project).map DriftItem.subject)
  documentation : db.entitiesOf project ≠ [] → db.relationsOf project ≠ [] →
    (missingLanguages db project).Perm
      ((detectDocumentationDrift db project).map DriftItem.subject)
  contract : db.entitiesOf project ≠ [] → db.relationsOf project ≠ [] →
    (brokenContracts db project).Perm (unkeptContracts db project)
  nothing : db.entitiesOf project = [] → ∀ filePath : Declared → Str,
    engineDetectDrift db project filePath = [] ∧
      engineDetectDocumentationDrift db project = [] ∧
      engineDetectCapabilityDrift db project = [] ∧
      engineDetectArchitectureDrift db project = [] ∧
      engineVerifySummaryDrifts db project = []

/-- What the facts have to be for that. -/
structure Unambiguous : Prop where
  namesakes : db.entitiesOf project ≠ [] → db.relationsOf project ≠ [] →
    ∀ c ∈ db.capabilitiesOf project, Namesake db project c.name ↔ Implemented db project c.name
  kept : db.entitiesOf project ≠ [] → db.relationsOf project ≠ [] →
    ∀ c ∈ db.contractsOf project, ∃ e ∈ db.entitiesOf project, ∃ w ∈ contractKeywords c.name,
      contains (lower w) (lower e.name) = true
  undeclared : db.entitiesOf project = [] →
    db.capabilitiesOf project = [] ∧ extractLanguageClaims (readmeContent db project) = [] ∧
      ∀ edge ∈ callEdges db project, ¬ Violating edge

theorem ready_iff : evidenceBackendReady unfailing db.toFacts project = true ↔
    db.entitiesOf project ≠ [] ∧ db.relationsOf project ≠ [] := by
  have hcount : ∀ n, countRows none n = n := fun n => rfl
  simp only [evidenceBackendReady, entityCount, relationCount, unfailing, hcount,
    Bool.and_eq_true, decide_eq_true_eq, List.length_pos_iff]

theorem unkeptContracts_eq_nil_iff : unkeptContracts db project = [] ↔
    ∀ c ∈ db.contractsOf project, ∃ e ∈ db.entitiesOf project, ∃ w ∈ contractKeywords c.name,
      contains (lower w) (lower e.name) = true := by
  simp only [unkeptContracts, List.filter_eq_nil_iff, Bool.not_eq_true', Bool.not_eq_false,
    List.any_eq_true]

theorem silent_iff (hnone : db.entitiesOf project = []) :
    (∀ filePath : Declared → Str, engineDetectDrift db project filePath = [] ∧
      engineDetectDocumentationDrift db project = [] ∧
      engineDetectCapabilityDrift db project = [] ∧
      engineDetectArchitectureDrift db project = [] ∧
      engineVerifySummaryDrifts db project = []) ↔
    db.capabilitiesOf project = [] ∧ extractLanguageClaims (readmeContent db project) = [] ∧
      ∀ edge ∈ callEdges db project, ¬ Violating edge := by
  have hcaps : missingCapabilities db project = [] ↔ db.capabilitiesOf project = [] := by
    rw [← List.map_eq_nil_iff (f := DriftItem.subject), missingCapabilities_of_empty db project hnone,
      List.map_eq_nil_iff]
  have hdocs : engineDetectDocumentationDrift db project = [] ↔
      extractLanguageClaims (readmeContent db project) = [] := by
    rw [engineDetectDocumentationDrift, List.map_eq_nil_iff,
      missingLanguages_of_empty db project hnone, List.map_eq_nil_iff]
  simp only [engineDetectDrift, brokenContracts_eq_nil, List.map_nil, List.append_nil, hcaps, hdocs,
    engineDetectCapabilityDrift, engineDetectArchitectureDrift, engineVerifySummaryDrifts,
    detectCapabilityDrift_of_empty db project hnone,
    detectDocumentationDrift_of_empty db project hnone, List.nil_append,
    detectArchitectureDrift_eq_nil_iff, true_and, and_self, forall_const]

/-- **The entry points give one answer exactly on unambiguous facts.** -/
theorem drift_reports_agree_iff : OneAnswer db project ↔ Unambiguous db project := by
  constructor
  · intro h
    refine ⟨fun hentities hrelations => ?_, fun hentities hrelations => ?_, fun hnone => ?_⟩
    · have hready := (ready_iff db project).mpr ⟨hentities, hrelations⟩
      exact (capability_reports_agree_iff db project hready).mp (h.capability hentities hrelations)
    · have hperm := h.contract hentities hrelations
      rw [brokenContracts_eq_nil] at hperm
      exact (unkeptContracts_eq_nil_iff db project).mp hperm.nil_eq.symm
    · exact (silent_iff db project hnone).mp (h.nothing hnone)
  · intro h
    refine ⟨fun hentities hrelations => ?_, fun hentities _ => ?_, fun hentities hrelations => ?_,
      fun hnone => (silent_iff db project hnone).mpr (h.undeclared hnone)⟩
    · have hready := (ready_iff db project).mpr ⟨hentities, hrelations⟩
      exact (capability_reports_agree_iff db project hready).mpr (h.namesakes hentities hrelations)
    · rw [documentation_reports_agree db project hentities]
    · rw [brokenContracts_eq_nil,
        (unkeptContracts_eq_nil_iff db project).mpr (h.kept hentities hrelations)]

/-- An exported function that the README calls by its name without the language prefix. -/
def exportedEntity : EntityRow where
  id := 1
  project := 7
  kind := 0
  name := str "engine_verify_claim"
  qualifiedName := str "engine_verify_claim"
  filePath := str "engine.cpp"
  language := str "cpp"
  startRow := 0
  startCol := 0
  endRow := 9
  endCol := 1
  modulePath := []
  visibility := 1
  arity := 0

/-- It is called, too, and the project declares it as a capability. -/
def exportedCapability : DriftStore where
  entity := ⟨[exportedEntity], by decide⟩
  relation := [⟨1, 7, 1, 1, kRelationTypeCalls⟩]
  scope := []
  capability := [⟨7, str "VerifyClaim"⟩]
  contract := []
  architectureEdge := []
  relationIds := by decide
  scopeIds := by decide
  document := []

/-- Missing for `engine_detect_drift`, implemented for the others. -/
theorem exported_capability_disputed : ¬ OneAnswer exportedCapability 7 := by
  intro h
  have hperm := h.capability (by decide +kernel) (by decide +kernel)
  have hmissing : (missingCapabilities exportedCapability 7).map DriftItem.subject =
      [str "VerifyClaim"] := by decide +kernel
  have hdrift : (detectCapabilityDrift exportedCapability 7).map DriftItem.subject = [] := by
    decide +kernel
  rw [hmissing, hdrift] at hperm
  exact absurd hperm.length_eq (by decide)

end CodeScope.Verify
