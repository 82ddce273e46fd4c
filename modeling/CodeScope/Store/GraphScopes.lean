import CodeScope.Store.GraphDescription

/-! # Scopes and imports after a rebuild

A module has one scope, as long as one of its entities is there. A rebuild keeps the scopes of the
modules that stay and gives new ones to the others; the function scopes and the imports point to
them. -/

namespace CodeScope.Store

open Text (Str str)

/-! ## Modules -/

/-- The module scopes are those of the numbered records. -/
structure GraphTables.ModulesFit (t : GraphTables) (ids : NodeIds) : Prop where
  names : (t.modules.map (·.name)).Nodup
  scopeIds : (t.modules.map (·.id)).Nodup
  bounds : ∀ m ∈ t.modules, 0 < m.id ∧ m.id ≤ t.scopeSeq
  modules : ∀ name, name ∈ t.modules.map (·.name) ↔
    name ≠ [] ∧ ∃ p ∈ ids, modulePathOf p.1.filePath = name

/-- The scope of a module, 0 when there is none. -/
def GraphTables.moduleId (t : GraphTables) (name : Str) : ℕ :=
  ((KeyedTable.find ModuleScope.name t.modules name).map (·.id)).getD 0

section Modules

variable {project : ℕ} {includeTestFiles : Bool} {changed : Option (List Str)} {R : RecordTable}
  {α : Type} [LinearOrder α] [OrderBot α] {score : EntityRow → ReferenceRow → EntityRow → α}
  {t : GraphTables} {ids : NodeIds}

theorem moduleId_of_mem (hnames : (t.modules.map (·.name)).Nodup) {m : ModuleScope}
    (hm : m ∈ t.modules) : t.moduleId m.name = m.id := by
  rw [GraphTables.moduleId, (KeyedTable.mem_iff_find hnames).mp hm]
  rfl

/-- The tables before the scopes are written. -/
def GraphTables.beforeScopes (t : GraphTables) (project : ℕ) (includeTestFiles : Bool)
    (R : RecordTable) (changed : Option (List Str)) : GraphTables :=
  let files := rebuildFiles project changed R.records
  let ids := entityIds project changed R.records t.entities
  let paths := importPlan (importRows project includeTestFiles
    ⟨R.records, t.entities, none, none⟩ files.toFinset)
  (((t.clear project files).insertEntities includeTestFiles ids).insertReferences
    project includeTestFiles R files.toFinset ids).insertImports paths.flatten

/-- The scopes before those of vanished modules are deleted. -/
def GraphTables.allModules (t : GraphTables) (project : ℕ) (includeTestFiles : Bool)
    (R : RecordTable) (changed : Option (List Str)) : List ModuleScope :=
  t.modules ++ ((t.beforeScopes project includeTestFiles R changed).newModules project
    (rebuildFiles project changed R.records).toFinset).zipIdx.map
      fun m => ⟨t.scopeSeq + 1 + m.2, m.1⟩

theorem modules_rebuild (hsome : rebuildFiles project changed R.records ≠ []) :
    (t.rebuild project includeTestFiles R score changed).modules =
      (t.allModules project includeTestFiles R changed).filter fun m =>
        m.name ∈ (((t.rebuild project includeTestFiles R score changed).projectEntities
          project).map EntityRow.modulePath).filter fun path => path ≠ [] := by
  rw [rebuild_of_cons hsome]
  rfl

theorem projectEntities_beforeScopes (hsome : rebuildFiles project changed R.records ≠ [])
    (hentities : t.projectEntities project = ids.map .ofRecord) :
    (t.beforeScopes project includeTestFiles R changed).projectEntities project =
      (nextIds project includeTestFiles changed R ids t.entities).map .ofRecord := by
  have hnext := projectEntities_rebuild includeTestFiles changed R (fun _ _ _ => (0 : ℕ)) hentities
  rw [← hnext, rebuild_of_cons hsome]
  rfl

theorem mem_newModules (hsome : rebuildFiles project changed R.records ≠ [])
    (hentities : t.projectEntities project = ids.map .ofRecord) {name : Str} :
    name ∈ (t.beforeScopes project includeTestFiles R changed).newModules project
        (rebuildFiles project changed R.records).toFinset ↔
      (name ≠ [] ∧ ∃ p ∈ nextIds project includeTestFiles changed R ids t.entities,
        p.1.filePath ∈ rebuildFiles project changed R.records ∧
          modulePathOf p.1.filePath = name) ∧ name ∉ t.modules.map (·.name) := by
  have hmodules : (t.beforeScopes project includeTestFiles R changed).modules = t.modules := rfl
  rw [GraphTables.newModules, projectEntities_beforeScopes hsome hentities, hmodules,
    List.mem_filter, List.mem_dedup, List.mem_map, decide_eq_true_eq]
  refine and_congr_left fun _ => ?_
  constructor
  · rintro ⟨e, he, rfl⟩
    obtain ⟨hmem, hplace⟩ := List.mem_filter.mp he
    obtain ⟨p, hp, rfl⟩ := List.mem_map.mp hmem
    obtain ⟨hnamed, hfile⟩ := of_decide_eq_true hplace
    exact ⟨hnamed, p, hp, List.mem_toFinset.mp hfile, rfl⟩
  · rintro ⟨hnamed, p, hp, hfile, rfl⟩
    refine ⟨.ofRecord p, List.mem_filter.mpr ⟨List.mem_map_of_mem hp, ?_⟩, rfl⟩
    exact decide_eq_true ⟨hnamed, List.mem_toFinset.mpr hfile⟩

theorem allModules_names : (t.allModules project includeTestFiles R changed).map (·.name) =
    t.modules.map (·.name) ++ (t.beforeScopes project includeTestFiles R changed).newModules project
      (rebuildFiles project changed R.records).toFinset := by
  rw [GraphTables.allModules, List.map_append, List.map_map]
  congr 1
  exact List.zipIdx_map_fst 0 _

theorem allModules_names_nodup (hfit : t.ModulesFit ids) :
    ((t.allModules project includeTestFiles R changed).map (·.name)).Nodup := by
  rw [allModules_names, List.nodup_append]
  refine ⟨hfit.names, (List.nodup_dedup _).filter _, ?_⟩
  rintro name hold _ hnew rfl
  exact of_decide_eq_true (List.mem_filter.mp hnew).2 hold

theorem allModules_ids_nodup (hfit : t.ModulesFit ids) :
    ((t.allModules project includeTestFiles R changed).map (·.id)).Nodup := by
  rw [GraphTables.allModules, List.map_append, List.map_map, List.nodup_append]
  refine ⟨hfit.scopeIds, ?_, ?_⟩
  · have hids : ∀ l : List Str, l.zipIdx.map (ModuleScope.id ∘ fun m =>
        ⟨t.scopeSeq + 1 + m.2, m.1⟩) = (List.range' 0 l.length).map (t.scopeSeq + 1 + ·) := by
      intro l
      rw [← List.zipIdx_map_snd, List.map_map]
      rfl
    rw [hids]
    refine List.Nodup.map ?_ List.nodup_range'
    intro i j hij
    exact Nat.add_left_cancel hij
  · intro i hold j hnew
    obtain ⟨m, hm, rfl⟩ := List.mem_map.mp hold
    obtain ⟨p, _, rfl⟩ := List.mem_map.mp hnew
    have hbound := (hfit.bounds m hm).2
    simp only [Function.comp_apply]
    omega

theorem allModules_bounds (hsome : rebuildFiles project changed R.records ≠ [])
    (hfit : t.ModulesFit ids) {m : ModuleScope}
    (hm : m ∈ t.allModules project includeTestFiles R changed) :
    0 < m.id ∧ m.id ≤ (t.rebuild project includeTestFiles R score changed).scopeSeq := by
  have hseq : t.scopeSeq + ((t.beforeScopes project includeTestFiles R changed).newModules project
      (rebuildFiles project changed R.records).toFinset).length ≤
      (t.rebuild project includeTestFiles R score changed).scopeSeq := by
    rw [rebuild_of_cons hsome]
    exact Nat.le_add_right _ _
  rcases List.mem_append.mp hm with hold | hnew
  · have hbound := hfit.bounds m hold
    omega
  · obtain ⟨p, hp, rfl⟩ := List.mem_map.mp hnew
    have hindex := (List.mem_zipIdx' hp).1
    refine ⟨?_, ?_⟩ <;> dsimp only <;> omega

theorem mem_modulePaths {name : Str} (next : NodeIds) :
    name ∈ (((next.map EntityRow.ofRecord).map EntityRow.modulePath).filter fun path =>
        path ≠ []) ↔
      name ≠ [] ∧ ∃ p ∈ next, modulePathOf p.1.filePath = name := by
  rw [List.mem_filter, List.map_map, List.mem_map, decide_eq_true_eq, and_comm]
  rfl

/-- **Every module has its scope after a run**, and no other scope is left. -/
theorem modulesFit_rebuild (hentities : t.projectEntities project = ids.map .ofRecord)
    (hfit : t.ModulesFit ids) :
    (t.rebuild project includeTestFiles R score changed).ModulesFit
      (nextIds project includeTestFiles changed R ids t.entities) := by
  by_cases hnone : rebuildFiles project changed R.records = []
  · rw [rebuild_of_nil hnone, nextIds_of_nil hnone]
    exact hfit
  · have hmodules : (t.rebuild project includeTestFiles R score changed).modules = _ :=
      modules_rebuild hnone
    rw [projectEntities_rebuild includeTestFiles changed R score hentities] at hmodules
    have hsub : ((t.rebuild project includeTestFiles R score changed).modules).Sublist
        (t.allModules project includeTestFiles R changed) := by
      rw [hmodules]
      exact List.filter_sublist
    refine ⟨(allModules_names_nodup hfit).sublist (hsub.map _),
      (allModules_ids_nodup hfit).sublist (hsub.map _), ?_, ?_⟩
    · intro m hm
      exact allModules_bounds hnone hfit (hsub.subset hm)
    · intro name
      have hname : name ∈
          (t.rebuild project includeTestFiles R score changed).modules.map (·.name) ↔
          name ∈ (t.allModules project includeTestFiles R changed).map (·.name) ∧
            (name ≠ [] ∧ ∃ p ∈ nextIds project includeTestFiles changed R ids t.entities,
              modulePathOf p.1.filePath = name) := by
        rw [hmodules, List.mem_map, List.mem_map, ← mem_modulePaths]
        constructor
        · rintro ⟨m, hm, rfl⟩
          obtain ⟨hall, hpath⟩ := List.mem_filter.mp hm
          exact ⟨⟨m, hall, rfl⟩, of_decide_eq_true hpath⟩
        · rintro ⟨⟨m, hall, rfl⟩, hpath⟩
          exact ⟨m, List.mem_filter.mpr ⟨hall, decide_eq_true hpath⟩, rfl⟩
      rw [hname, and_iff_right_iff_imp]
      rintro ⟨hnamed, p, hp, hpath⟩
      rw [allModules_names, List.mem_append]
      by_cases hold : name ∈ t.modules.map (·.name)
      · exact .inl hold
      · right
        refine (mem_newModules hnone hentities).mpr ⟨⟨hnamed, p, hp, ?_, hpath⟩, hold⟩
        -- a record of a file that is not rebuilt has its scope from before
        rcases List.mem_append.mp hp with hkept | hnew
        · exact absurd ((hfit.modules name).mpr ⟨hnamed, p, List.mem_of_mem_filter hkept, hpath⟩)
            hold
        · exact (mem_newIds hnew).2

theorem moduleId_rebuild (hentities : t.projectEntities project = ids.map .ofRecord)
    (hfit : t.ModulesFit ids) (hsome : rebuildFiles project changed R.records ≠ [])
    {m : ModuleScope} (hm : m ∈ t.allModules project includeTestFiles R changed)
    {p : RecordRow × Int} (hp : p ∈ nextIds project includeTestFiles changed R ids t.entities)
    (hnamed : m.name ≠ []) (hpath : modulePathOf p.1.filePath = m.name) :
    m ∈ (t.rebuild project includeTestFiles R score changed).modules ∧
      (t.rebuild project includeTestFiles R score changed).moduleId m.name = m.id := by
  have hfinal : m ∈ (t.rebuild project includeTestFiles R score changed).modules := by
    rw [modules_rebuild hsome,
      projectEntities_rebuild includeTestFiles changed R score hentities]
    refine List.mem_filter.mpr ⟨hm, decide_eq_true ?_⟩
    exact (mem_modulePaths _).mpr ⟨hnamed, p, hp, hpath⟩
  exact ⟨hfinal, moduleId_of_mem (modulesFit_rebuild hentities hfit).names hfinal⟩

end Modules

/-! ## Functions -/

/-- The scope of an entity, below that of its module. -/
def GraphTables.functionOf (t : GraphTables) (p : RecordRow × Int) : FunctionScope :=
  ⟨t.moduleId (modulePathOf p.1.filePath), p.1.record.name, p.1.record.startRow,
    p.1.record.endRow⟩

/-- The scopes of the entities that have a module. -/
def GraphTables.functionsOf (t : GraphTables) (ids : NodeIds) : List FunctionScope :=
  (ids.filter fun p => modulePathOf p.1.filePath ≠ []).map t.functionOf

section Lost

variable (project : ℕ) (includeTestFiles : Bool) (changed : Option (List Str)) (R R₀ : RecordTable)

/-- The names of the entities that a run clears. -/
def clearedNames : List Str :=
  ((declaredRecords project includeTestFiles R₀).filter fun row =>
    row.filePath ∈ rebuildFiles project changed R.records ∧ row.filePath ≠ []).map (·.record.name)

/-- The entities that lose their scope: those of files that are not rebuilt with the name of one
    that is cleared. -/
def losesScope (row : RecordRow) : Bool :=
  row.filePath ∉ rebuildFiles project changed R.records ∧
    row.record.name ∈ clearedNames project includeTestFiles changed R R₀

end Lost

section Functions

variable {project : ℕ} {includeTestFiles : Bool} {changed : Option (List Str)} {R R₀ : RecordTable}
  {α : Type} [LinearOrder α] [OrderBot α] {score : EntityRow → ReferenceRow → EntityRow → α}
  {t : GraphTables} {ids : NodeIds}

theorem functionsOf_append (a b : NodeIds) :
    t.functionsOf (a ++ b) = t.functionsOf a ++ t.functionsOf b := by
  rw [GraphTables.functionsOf, List.filter_append, List.map_append]
  rfl

theorem modulePathOf_nil : modulePathOf [] = [] := rfl

variable (hentities : t.projectEntities project = ids.map .ofRecord)
include hentities

theorem mem_clearedNames
    (hids : (ids.map (·.1)).Perm (declaredRecords project includeTestFiles R₀)) {name : Str} :
    name ∈ (t.clearedEntities project (rebuildFiles project changed R.records)).map (·.name) ↔
      name ∈ clearedNames project includeTestFiles changed R R₀ := by
  have hnames : (t.clearedEntities project (rebuildFiles project changed R.records)).map (·.name) =
      ((ids.map (·.1)).filter fun row => row.filePath ∈ rebuildFiles project changed R.records ∧
        row.filePath ≠ []).map (·.record.name) := by
    rw [GraphTables.clearedEntities, hentities, List.filter_map, List.map_map, List.filter_map,
      List.map_map]
    rfl
  rw [hnames, clearedNames]
  exact ((hids.filter _).map _).mem_iff

theorem allModules_named (hfit : t.ModulesFit ids)
    (hsome : rebuildFiles project changed R.records ≠ []) {m : ModuleScope}
    (hm : m ∈ t.allModules project includeTestFiles R changed) : m.name ≠ [] := by
  have hname := List.mem_map_of_mem (f := ModuleScope.name) hm
  rw [allModules_names, List.mem_append] at hname
  rcases hname with hold | hnew
  · exact ((hfit.modules _).mp hold).1
  · exact ((mem_newModules hsome hentities).mp hnew).1.1

/-- The scope written for an entity is its own. -/
theorem functionRows_single (hfit : t.ModulesFit ids)
    (hsome : rebuildFiles project changed R.records ≠ []) {before : GraphTables}
    (hbefore : before.modules = t.allModules project includeTestFiles R changed)
    {p : RecordRow × Int} (hp : p ∈ nextIds project includeTestFiles changed R ids t.entities) :
    before.functionRows [.ofRecord p] =
      (t.rebuild project includeTestFiles R score changed).functionsOf [p] := by
  have hfinal : (t.rebuild project includeTestFiles R score changed).ModulesFit _ :=
    modulesFit_rebuild hentities hfit
  have hrows : before.functionRows [.ofRecord p] =
      ((t.allModules project includeTestFiles R changed).filter
        fun m => m.name = modulePathOf p.1.filePath).map fun m =>
          ⟨m.id, p.1.record.name, p.1.record.startRow, p.1.record.endRow⟩ := by
    rw [GraphTables.functionRows, List.flatMap_singleton, hbefore]
    rfl
  rw [hrows, GraphTables.functionsOf, List.filter_singleton]
  by_cases hnamed : modulePathOf p.1.filePath = []
  · have hnone : (t.allModules project includeTestFiles R changed).filter
        (fun m => m.name = modulePathOf p.1.filePath) = [] := by
      rw [List.filter_eq_nil_iff]
      intro m hm hname
      rw [hnamed, decide_eq_true_eq] at hname
      exact allModules_named hentities hfit hsome hm hname
    rw [hnone, hnamed]
    rfl
  · obtain ⟨m, hm, hname⟩ := List.mem_map.mp ((hfinal.modules _).mpr ⟨hnamed, p, hp, rfl⟩)
    have hall : m ∈ t.allModules project includeTestFiles R changed := by
      rw [modules_rebuild hsome] at hm
      exact List.mem_of_mem_filter hm
    have hsingle := KeyedTable.filter_key_eq_singleton (allModules_names_nodup hfit) hall
    rw [hname] at hsingle
    have hkeep : decide (modulePathOf p.1.filePath ≠ []) = true := decide_eq_true hnamed
    rw [hsingle, hkeep, cond_true, List.map_singleton, List.map_singleton, GraphTables.functionOf,
      ← hname, moduleId_of_mem hfinal.names hm]

/-- The scopes written for entities are theirs. -/
theorem functionRows_eq (hfit : t.ModulesFit ids)
    (hsome : rebuildFiles project changed R.records ≠ []) {before : GraphTables}
    (hbefore : before.modules = t.allModules project includeTestFiles R changed) {part : NodeIds}
    (hpart : ∀ p ∈ part, p ∈ nextIds project includeTestFiles changed R ids t.entities) :
    before.functionRows (part.map .ofRecord) =
      (t.rebuild project includeTestFiles R score changed).functionsOf part := by
  induction part with
  | nil => rfl
  | cons p rest ih =>
      have hrest := ih fun q hq => hpart q (List.mem_cons_of_mem p hq)
      have hhead : before.functionRows [.ofRecord p] =
          (t.rebuild project includeTestFiles R score changed).functionsOf [p] :=
        functionRows_single hentities hfit hsome hbefore (hpart p List.mem_cons_self)
      rw [← List.singleton_append, functionsOf_append, ← hrest, ← hhead, List.map_append,
        GraphTables.functionRows, List.flatMap_append]
      rfl

/-- The scopes that are kept, as they are after the run. -/
theorem functions_kept
    (hids : (ids.map (·.1)).Perm (declaredRecords project includeTestFiles R₀))
    (hfit : t.ModulesFit ids) (hsome : rebuildFiles project changed R.records ≠ [])
    (hfunctions : t.functions.Perm (t.functionsOf ids)) :
    (t.clear project (rebuildFiles project changed R.records)).functions.Perm
      ((t.rebuild project includeTestFiles R score changed).functionsOf
        ((keptIds project changed R ids).filter fun p =>
          ! losesScope project includeTestFiles changed R R₀ p.1)) := by
  rw [clear_functions]
  refine (hfunctions.filter _).trans (List.Perm.of_eq ?_)
  have hselect : ((ids.filter fun p => modulePathOf p.1.filePath ≠ []).filter fun p =>
      p.1.record.name ∉ (t.clearedEntities project
        (rebuildFiles project changed R.records)).map (·.name)) =
      (((keptIds project changed R ids).filter fun p =>
        ! losesScope project includeTestFiles changed R R₀ p.1).filter fun p =>
          modulePathOf p.1.filePath ≠ []) := by
    rw [keptIds, List.filter_filter, List.filter_filter, List.filter_filter]
    refine List.filter_congr ?_
    intro p hp
    have hname : p.1.record.name ∈ _ ↔ p.1.record.name ∈ clearedNames project includeTestFiles
        changed R R₀ := mem_clearedNames hentities hids
    rw [Bool.eq_iff_iff]
    simp only [Bool.and_eq_true, decide_eq_true_eq, Bool.not_eq_true', losesScope,
      decide_eq_false_iff_not, hname]
    by_cases hpath : modulePathOf p.1.filePath = []
    · simp [hpath]
    · have hnamed : p.1.filePath ≠ [] := by
        intro hempty
        rw [hempty] at hpath
        exact hpath rfl
      by_cases hfile : p.1.filePath ∈ rebuildFiles project changed R.records
      · -- an entity that is cleared clears its own name
        have hcleared : p.1.record.name ∈ clearedNames project includeTestFiles changed R R₀ := by
          refine List.mem_map_of_mem (List.mem_filter.mpr ⟨?_, decide_eq_true ⟨hfile, hnamed⟩⟩)
          exact hids.mem_iff.mp (List.mem_map_of_mem hp)
        simp [hpath, hfile, hnamed, hcleared]
      · simp [hpath, hfile]
  rw [GraphTables.functionsOf, GraphTables.functionsOf, List.filter_map, ← hselect]
  refine List.map_congr_left ?_
  intro p hp
  obtain ⟨hmem, hpath⟩ := List.mem_filter.mp ((List.Perm.of_eq hselect).mem_iff.mp hp)
  have hkept := List.mem_of_mem_filter hmem
  have hnamed : modulePathOf p.1.filePath ≠ [] := of_decide_eq_true hpath
  obtain ⟨m, hm, hname⟩ := List.mem_map.mp
    ((hfit.modules _).mpr ⟨hnamed, p, List.mem_of_mem_filter hkept, rfl⟩)
  have hnext : p ∈ nextIds project includeTestFiles changed R ids t.entities :=
    List.mem_append_left _ hkept
  have hid : (t.rebuild project includeTestFiles R score changed).moduleId m.name = m.id :=
    (moduleId_rebuild hentities hfit hsome (List.mem_append_left _ hm) hnext (hname ▸ hnamed)
      hname.symm).2
  rw [GraphTables.functionOf, GraphTables.functionOf, ← hname, hid, moduleId_of_mem hfit.names hm]

/-- The scopes of the new entities. -/
theorem functions_new (hfit : t.ModulesFit ids)
    (hsome : rebuildFiles project changed R.records ≠ []) :
    let before := (t.beforeScopes project includeTestFiles R changed).insertModules project
      (rebuildFiles project changed R.records).toFinset
    before.functionRows ((before.projectEntities project).filter fun e =>
        e.filePath ∈ (rebuildFiles project changed R.records).toFinset) =
      (t.rebuild project includeTestFiles R score changed).functionsOf
        (newIds project includeTestFiles changed R t.entities) := by
  intro before
  have hrebuilt : (before.projectEntities project).filter
      (fun e => e.filePath ∈ (rebuildFiles project changed R.records).toFinset) =
      ((nextIds project includeTestFiles changed R ids t.entities).filter fun p =>
        p.1.filePath ∈ rebuildFiles project changed R.records).map .ofRecord := by
    have hsame : before.projectEntities project =
        (t.beforeScopes project includeTestFiles R changed).projectEntities project := rfl
    simp only [hsame, projectEntities_beforeScopes hsome hentities, List.filter_map,
      List.mem_toFinset]
    rfl
  have hnew : (newIds project includeTestFiles changed R t.entities).filter (fun p =>
      p.1.filePath ∈ rebuildFiles project changed R.records) =
      newIds project includeTestFiles changed R t.entities := by
    refine List.filter_eq_self.mpr ?_
    intro p hp
    exact decide_eq_true (mem_newIds hp).2
  have hkept : (t.rebuild project includeTestFiles R score changed).functionsOf
      ((keptIds project changed R ids).filter fun p =>
        p.1.filePath ∈ rebuildFiles project changed R.records) = [] := by
    -- what is kept of a file to rebuild has no path
    rw [GraphTables.functionsOf, List.map_eq_nil_iff, List.filter_eq_nil_iff]
    intro p hp hpath
    obtain ⟨hmem, hfile⟩ := List.mem_filter.mp hp
    rcases of_decide_eq_true (List.mem_filter.mp hmem).2 with hempty | hother
    · rw [hempty, modulePathOf_nil] at hpath
      simp at hpath
    · exact hother (of_decide_eq_true hfile)
  have hwritten : before.functionRows
      (((nextIds project includeTestFiles changed R ids t.entities).filter fun p =>
        p.1.filePath ∈ rebuildFiles project changed R.records).map .ofRecord) =
      (t.rebuild project includeTestFiles R score changed).functionsOf _ :=
    functionRows_eq hentities hfit hsome rfl fun p hp => List.mem_of_mem_filter hp
  rw [hrebuilt, hwritten, nextIds, List.filter_append, functionsOf_append, hkept, hnew,
    List.nil_append]

/-- **The function scopes after a run** are those of its entities, the ones that lose their scope
    apart. -/
theorem functions_rebuild
    (hids : (ids.map (·.1)).Perm (declaredRecords project includeTestFiles R₀))
    (hfit : t.ModulesFit ids) (hfunctions : t.functions.Perm (t.functionsOf ids)) :
    (t.rebuild project includeTestFiles R score changed).functions.Perm
      ((t.rebuild project includeTestFiles R score changed).functionsOf
        ((nextIds project includeTestFiles changed R ids t.entities).filter fun p =>
          ! losesScope project includeTestFiles changed R R₀ p.1)) := by
  by_cases hnone : rebuildFiles project changed R.records = []
  · have hkeep : ∀ p ∈ ids, (! losesScope project includeTestFiles changed R R₀ p.1) = true := by
      intro p _
      simp [losesScope, clearedNames, hnone]
    rw [rebuild_of_nil hnone, nextIds_of_nil hnone, List.filter_eq_self.mpr hkeep]
    exact hfunctions
  · have hnext : ((nextIds project includeTestFiles changed R ids t.entities).filter fun p =>
        ! losesScope project includeTestFiles changed R R₀ p.1) =
        ((keptIds project changed R ids).filter fun p =>
          ! losesScope project includeTestFiles changed R R₀ p.1) ++
          newIds project includeTestFiles changed R t.entities := by
      rw [nextIds, List.filter_append]
      congr 1
      refine List.filter_eq_self.mpr ?_
      intro p hp
      simp [losesScope, (mem_newIds hp).2]
    have hrows : (t.rebuild project includeTestFiles R score changed).functions =
        ((t.clear project (rebuildFiles project changed R.records)).functions ++
          (t.rebuild project includeTestFiles R score changed).functionsOf
            (newIds project includeTestFiles changed R t.entities)).filter fun scope =>
          scope.parentId ∈
            (t.rebuild project includeTestFiles R score changed).modules.map (·.id) := by
      rw [← functions_new hentities hfit hnone, rebuild_of_cons hnone]
      rfl
    have hall : ∀ scope ∈ (t.rebuild project includeTestFiles R score changed).functionsOf
        ((nextIds project includeTestFiles changed R ids t.entities).filter fun p =>
          ! losesScope project includeTestFiles changed R R₀ p.1),
        decide (scope.parentId ∈
          (t.rebuild project includeTestFiles R score changed).modules.map (·.id)) = true := by
      intro scope hscope
      obtain ⟨p, hp, rfl⟩ := List.mem_map.mp hscope
      obtain ⟨hmem, hpath⟩ := List.mem_filter.mp hp
      have hfinal : (t.rebuild project includeTestFiles R score changed).ModulesFit _ :=
        modulesFit_rebuild hentities hfit
      obtain ⟨m, hm, hname⟩ := List.mem_map.mp ((hfinal.modules _).mpr
        ⟨of_decide_eq_true hpath, p, List.mem_of_mem_filter hmem, rfl⟩)
      rw [decide_eq_true_eq, GraphTables.functionOf, ← hname, moduleId_of_mem hfinal.names hm]
      exact List.mem_map_of_mem hm
    have hkept : (t.clear project (rebuildFiles project changed R.records)).functions.Perm
        ((t.rebuild project includeTestFiles R score changed).functionsOf
          ((keptIds project changed R ids).filter fun p =>
            ! losesScope project includeTestFiles changed R R₀ p.1)) :=
      functions_kept hentities hids hfit hnone hfunctions
    rw [hrows]
    refine ((hkept.append_right _).filter _).trans ?_
    rw [← functionsOf_append, ← hnext, List.filter_eq_self.mpr hall]

end Functions

/-! ## Imports -/

section ImportRows

variable (project : ℕ) (includeTestFiles : Bool) (R : RecordTable)

/-- The row of an import: its scope is that of its module. -/
def GraphTables.importOf (t : GraphTables) (p : ℕ × PathRec) : ImportRow :=
  ⟨p.1, ((importModule project includeTestFiles R p.1).map t.moduleId).getD 0, p.2⟩

end ImportRows

section Imports

variable {project : ℕ} {includeTestFiles : Bool} {changed : Option (List Str)} {R R₀ : RecordTable}
  {α : Type} [LinearOrder α] [OrderBot α] {score : EntityRow → ReferenceRow → EntityRow → α}
  {t : GraphTables} {ids : NodeIds}

theorem find_record_eq_some {id : ℕ} {s : StoredRecord} :
    R.rows.find? (fun s => s.rowid = id ∧ s.row.project = project) = some s ↔
      s ∈ R.rows ∧ s.rowid = id ∧ s.row.project = project := by
  constructor
  · intro h
    exact ⟨List.mem_of_find?_eq_some h, by simpa using List.find?_some h⟩
  · rintro ⟨hmem, hid, hproject⟩
    have hsome : (R.rows.find? fun s => s.rowid = id ∧ s.row.project = project).isSome := by
      rw [List.find?_isSome]
      exact ⟨s, hmem, decide_eq_true ⟨hid, hproject⟩⟩
    obtain ⟨s', hs'⟩ := Option.isSome_iff_exists.mp hsome
    have hfound : s'.rowid = id ∧ s'.row.project = project := by simpa using List.find?_some hs'
    rw [hs', List.inj_on_of_nodup_map R.rowids (List.mem_of_find?_eq_some hs') hmem
      (hfound.1.trans hid.symm)]

theorem importModule_eq_some {id : ℕ} {name : Str} :
    importModule project includeTestFiles R id = some name ↔
      ∃ s ∈ R.rows, s.rowid = id ∧ s.row.project = project ∧
        (name ≠ [] ∧ s.row.filePath ∈
          (declaredRecords project includeTestFiles R).map (·.filePath)) ∧
          modulePathOf s.row.filePath = name := by
  rw [importModule, Option.bind_eq_some_iff]
  constructor
  · rintro ⟨s, hfind, hname⟩
    obtain ⟨hmem, hid, hproject⟩ := find_record_eq_some.mp hfind
    split_ifs at hname with hplace
    obtain rfl := Option.some.inj hname
    exact ⟨s, hmem, hid, hproject, hplace, rfl⟩
  · rintro ⟨s, hmem, hid, hproject, hplace, rfl⟩
    exact ⟨s, find_record_eq_some.mpr ⟨hmem, hid, hproject⟩, if_pos hplace⟩

section Found

variable (hentities : t.projectEntities project = ids.map .ofRecord)
include hentities

theorem fileEntities_eq (filePath : Str) : t.fileEntities project filePath =
    (ids.filter fun p => p.1.filePath = filePath).map .ofRecord := by
  rw [GraphTables.fileEntities, hentities, List.filter_map]
  rfl

/-- The module scope that the entities of a file lead to. -/
theorem findModule_of_ids (hfit : t.ModulesFit ids) (filePath : Str) :
    ((t.fileEntities project filePath).findSome? fun e =>
        t.modules.find? fun m => m.name = e.modulePath).map (·.id) =
      Option.map t.moduleId (if modulePathOf filePath ≠ [] ∧
          filePath ∈ (ids.map (·.1)).map (·.filePath)
        then some (modulePathOf filePath) else none) := by
  have hpaths : ∀ e ∈ t.fileEntities project filePath, e.modulePath = modulePathOf filePath := by
    intro e he
    rw [fileEntities_eq hentities] at he
    obtain ⟨p, hp, rfl⟩ := List.mem_map.mp he
    have hfile : p.1.filePath = filePath := of_decide_eq_true (List.mem_filter.mp hp).2
    rw [← hfile]
    rfl
  split_ifs with hplace
  · obtain ⟨hnamed, hdeclared⟩ := hplace
    obtain ⟨row, hrow, rfl⟩ := List.mem_map.mp hdeclared
    obtain ⟨p, hp, rfl⟩ := List.mem_map.mp hrow
    obtain ⟨m, hm, hname⟩ := List.mem_map.mp ((hfit.modules _).mpr ⟨hnamed, p, hp, rfl⟩)
    have hfound : ∀ e ∈ t.fileEntities project p.1.filePath,
        (t.modules.find? fun m => m.name = e.modulePath) = some m := by
      intro e he
      rw [hpaths e he, ← hname]
      exact (KeyedTable.mem_iff_find hfit.names).mp hm
    have hsome : EntityRow.ofRecord p ∈ t.fileEntities project p.1.filePath := by
      rw [fileEntities_eq hentities]
      exact List.mem_map_of_mem (List.mem_filter.mpr ⟨hp, decide_eq_true rfl⟩)
    cases hfiles : t.fileEntities project p.1.filePath with
    | nil =>
        rw [hfiles] at hsome
        exact absurd hsome List.not_mem_nil
    | cons e rest =>
        rw [hfiles] at hfound
        rw [List.findSome?_cons, hfound e List.mem_cons_self, Option.map_some, Option.map_some,
          ← hname, moduleId_of_mem hfit.names hm]
  · have hnone : (t.fileEntities project filePath).findSome? (fun e =>
        t.modules.find? fun m => m.name = e.modulePath) = none := by
      rw [List.findSome?_eq_none_iff]
      intro e he
      rw [List.find?_eq_none]
      intro m hm hname
      rw [decide_eq_true_eq, hpaths e he] at hname
      obtain ⟨hnamed, p, _, _⟩ := (hfit.modules _).mp (List.mem_map_of_mem hm)
      rw [fileEntities_eq hentities] at he
      obtain ⟨q, hq, rfl⟩ := List.mem_map.mp he
      obtain ⟨hmem, hfile⟩ := List.mem_filter.mp hq
      refine hplace ⟨hname ▸ hnamed, ?_⟩
      exact List.mem_map.mpr ⟨q.1, List.mem_map_of_mem hmem, of_decide_eq_true hfile⟩
    rw [hnone]
    rfl

theorem findModule_eq
    (hids : (ids.map (·.1)).Perm (declaredRecords project includeTestFiles R))
    (hfit : t.ModulesFit ids) (filePath : Str) :
    ((t.fileEntities project filePath).findSome? fun e =>
        t.modules.find? fun m => m.name = e.modulePath).map (·.id) =
      Option.map t.moduleId (if modulePathOf filePath ≠ [] ∧
          filePath ∈ (declaredRecords project includeTestFiles R).map (·.filePath)
        then some (modulePathOf filePath) else none) := by
  rw [findModule_of_ids hentities hfit]
  simp only [(hids.map (·.filePath)).mem_iff]

theorem scopeOfImport_eq
    (hids : (ids.map (·.1)).Perm (declaredRecords project includeTestFiles R))
    (hfit : t.ModulesFit ids) (id : ℕ) :
    t.scopeOfImport project R id =
      (importModule project includeTestFiles R id).map t.moduleId := by
  rw [GraphTables.scopeOfImport, importModule, Option.map_bind]
  congr 1
  funext s
  exact findModule_eq hentities hids hfit s.row.filePath

end Found

theorem declared_of_untouched {R' : RecordTable} (hsame : SameOutside project changed R R')
    {filePath : Str} (huntouched : touched changed filePath = false) :
    filePath ∈ (declaredRecords project includeTestFiles R').map (·.filePath) ↔
      filePath ∈ (declaredRecords project includeTestFiles R).map (·.filePath) := by
  have hrows := hsame.filter_perm fun row => row.declares && row.shown includeTestFiles
  rw [List.mem_map, List.mem_map]
  constructor
  · rintro ⟨row, hrow, rfl⟩
    have hmem := hrows.mem_iff.mp (List.mem_filter.mpr ⟨hrow, by rw [huntouched]; rfl⟩)
    exact ⟨row, List.mem_of_mem_filter hmem, rfl⟩
  · rintro ⟨row, hrow, rfl⟩
    have hmem := hrows.mem_iff.mpr (List.mem_filter.mpr ⟨hrow, by rw [huntouched]; rfl⟩)
    exact ⟨row, List.mem_of_mem_filter hmem, rfl⟩

/-- When no file is rebuilt and no record is left, the imports are in the same modules. -/
theorem importModule_same (hsame : SameOutside project changed R R₀)
    (hleft : leftRecords project includeTestFiles changed R R₀ = [])
    (hnone : rebuildFiles project changed R.records = []) (id : ℕ) :
    importModule project includeTestFiles R₀ id = importModule project includeTestFiles R id := by
  have hold : ∀ filePath ∈ (declaredRecords project includeTestFiles R₀).map (·.filePath),
      touched changed filePath = false := by
    intro filePath hdeclared
    obtain ⟨row, hrow, rfl⟩ := List.mem_map.mp hdeclared
    rw [← Bool.not_eq_true]
    intro htouched
    have hmem : row ∈ leftRecords project includeTestFiles changed R R₀ := by
      refine List.mem_filter.mpr ⟨hrow, ?_⟩
      simp [htouched, hnone]
    rw [hleft] at hmem
    exact List.not_mem_nil hmem
  have hnew : ∀ filePath ∈ (declaredRecords project includeTestFiles R).map (·.filePath),
      touched changed filePath = false := by
    intro filePath hdeclared
    obtain ⟨row, hrow, rfl⟩ := List.mem_map.mp hdeclared
    rw [← Bool.not_eq_true]
    intro htouched
    have hmem := (mem_rebuildFiles_of_record (List.mem_of_mem_filter hrow)).mpr htouched
    rw [hnone] at hmem
    exact List.not_mem_nil hmem
  have hstored : ∀ s : StoredRecord, touched changed s.row.filePath = false →
      s.row.project = project → (s ∈ R₀.rows ↔ s ∈ R.rows) := by
    intro s huntouched hproject
    have hiff := hsame.mem_iff (a := s)
    simpa [List.mem_filter, huntouched, hproject] using hiff
  refine Option.ext fun name => ?_
  rw [importModule_eq_some, importModule_eq_some]
  constructor
  · rintro ⟨s, hmem, hid, hproject, ⟨hnamed, hdeclared⟩, rfl⟩
    have huntouched := hold _ hdeclared
    exact ⟨s, (hstored s huntouched hproject).mp hmem, hid, hproject,
      ⟨hnamed, (declared_of_untouched hsame huntouched).mp hdeclared⟩, rfl⟩
  · rintro ⟨s, hmem, hid, hproject, ⟨hnamed, hdeclared⟩, rfl⟩
    have huntouched := hnew _ hdeclared
    exact ⟨s, (hstored s huntouched hproject).mpr hmem, hid, hproject,
      ⟨hnamed, (declared_of_untouched hsame huntouched).mpr hdeclared⟩, rfl⟩

theorem flatten_importPlan (entities : EntityTable) :
    (importPlan (importRows project includeTestFiles ⟨R.records, entities, none, none⟩
        (rebuildFiles project changed R.records).toFinset)).flatten.flatten =
      importPaths project includeTestFiles changed R := by
  rw [importPlan, importRows, List.map_map, List.flatten_flatten, List.map_map, importPaths,
    List.flatMap_def]
  simp only [List.mem_toFinset]
  congr 1
  refine List.map_congr_left ?_
  intro row _
  exact flatten_importBatches [] _

theorem importSeq_rebuild :
    (t.rebuild project includeTestFiles R score changed).importSeq =
      t.importSeq + (importPaths project includeTestFiles changed R).length := by
  by_cases hnone : rebuildFiles project changed R.records = []
  · rw [rebuild_of_nil hnone, importPaths, hnone]
    simp
  · rw [← flatten_importPlan t.entities, rebuild_of_cons hnone]
    rfl

theorem nextImports_of_nil {imports : List (ℕ × PathRec)} {seq : ℕ}
    (hnone : rebuildFiles project changed R.records = []) :
    nextImports project includeTestFiles changed R imports seq = imports := by
  simp [nextImports, importPaths, hnone, numberImports]

theorem importRows_rebuild (hsome : rebuildFiles project changed R.records ≠ []) :
    (t.rebuild project includeTestFiles R score changed).imports =
      ((t.clear project (rebuildFiles project changed R.records)).imports ++
        (numberImports t.importSeq (importPaths project includeTestFiles changed R)).map
          fun p => ImportRow.mk p.1 0 p.2).map fun row =>
        .mk row.id (((t.rebuild project includeTestFiles R score changed).scopeOfImport project R
          row.id).getD 0) row.path := by
  rw [← flatten_importPlan t.entities, rebuild_of_cons hsome]
  rfl

/-- **The imports after a run**: those of the files that are not rebuilt and the new ones, each in
    the scope of its module. -/
theorem imports_rebuild {imports : List (ℕ × PathRec)} (hsame : SameOutside project changed R R₀)
    (hentities : t.projectEntities project = ids.map .ofRecord)
    (hids : (ids.map (·.1)).Perm (declaredRecords project includeTestFiles R₀))
    (hleft : leftRecords project includeTestFiles changed R R₀ = []) (hfit : t.ModulesFit ids)
    (himports : t.imports = imports.map (t.importOf project includeTestFiles R₀)) :
    (t.rebuild project includeTestFiles R score changed).imports =
      (nextImports project includeTestFiles changed R imports t.importSeq).map
        ((t.rebuild project includeTestFiles R score changed).importOf project includeTestFiles
          R) := by
  by_cases hnone : rebuildFiles project changed R.records = []
  · rw [rebuild_of_nil hnone, nextImports_of_nil hnone, himports]
    refine List.map_congr_left ?_
    intro p _
    rw [GraphTables.importOf, GraphTables.importOf, importModule_same hsame hleft hnone]
  · have hrecords :
        ((nextIds project includeTestFiles changed R ids t.entities).map (·.1)).Perm _ :=
      nextIds_records hsame hids
    rw [hleft, List.nil_append] at hrecords
    have hscope := scopeOfImport_eq
      (projectEntities_rebuild includeTestFiles changed R score hentities) hrecords
      (modulesFit_rebuild hentities hfit)
    have hkept : (t.clear project (rebuildFiles project changed R.records)).imports =
        (imports.filter fun p => p.2.file ∉ rebuildFiles project changed R.records ∨
          p.2.file = []).map (t.importOf project includeTestFiles R₀) := by
      rw [clear_imports, himports, List.filter_map]
      rfl
    rw [importRows_rebuild hnone, hkept, nextImports, List.map_append, List.map_append,
      List.map_map, List.map_map]
    simp only [hscope]
    rfl

/-! ## Relations -/

/-- The relations that are kept: both ends belong to files that are not cleared. -/
def keptRelations (project : ℕ) (changed : Option (List Str)) (R : RecordTable) (ids : NodeIds)
    (relations : Finset (Int × Int)) : Finset (Int × Int) :=
  relations.filter fun edge =>
    edge.1 ∈ (keptIds project changed R ids).map (·.2) ∧
      edge.2 ∈ (keptIds project changed R ids).map (·.2)

variable {references : List ReferenceRow}

theorem mem_resolve {entities : List EntityRow} {edge : Int × Int} :
    edge ∈ resolve score entities references ↔
      ∃ ref ∈ references, ∃ caller ∈ entities, caller.id = ref.callerId ∧ ∃ target ∈ entities,
        IsBest (score caller.anonymous ref.anonymous) entities target ∧
          (caller.id, target.id) = edge := by
  simp only [resolve, List.mem_toFinset, List.mem_flatMap, List.mem_map, List.mem_filter,
    decide_eq_true_eq, and_assoc]

theorem resolve_perm {entities : List EntityRow} {references' : List ReferenceRow}
    (h : references.Perm references') :
    resolve score entities references = resolve score entities references' := by
  ext edge
  simp only [mem_resolve, h.mem_iff]

theorem ends_of_resolve {edge : Int × Int} (h : edge ∈ resolve score (ids.map .ofRecord) references) :
    edge.1 ∈ ids.map (·.2) ∧ edge.2 ∈ ids.map (·.2) := by
  obtain ⟨_, _, caller, hcaller, _, target, htarget, _, rfl⟩ := mem_resolve.mp h
  obtain ⟨p, hp, rfl⟩ := List.mem_map.mp hcaller
  obtain ⟨q, hq, rfl⟩ := List.mem_map.mp htarget
  exact ⟨List.mem_map_of_mem hp, List.mem_map_of_mem hq⟩

theorem not_mem_clearedIds (hentities : t.projectEntities project = ids.map .ofRecord) {id : Int}
    (hid : id ∈ ids.map (·.2)) :
    id ∉ (t.clearedEntities project (rebuildFiles project changed R.records)).map (·.id) ↔
      id ∈ (keptIds project changed R ids).map (·.2) := by
  obtain ⟨p, hp, rfl⟩ := List.mem_map.mp hid
  rw [← filter_clearedIds hentities]
  constructor
  · intro hkept
    exact List.mem_map_of_mem (List.mem_filter.mpr ⟨hp, decide_eq_true hkept⟩)
  · intro hkept
    obtain ⟨q, hq, heq⟩ := List.mem_map.mp hkept
    rw [← heq]
    exact of_decide_eq_true (List.mem_filter.mp hq).2

/-- **The relations after a run**: those that are kept and those of the resolver. -/
theorem relations_rebuild (hsame : SameOutside project changed R R₀)
    (hentities : t.projectEntities project = ids.map .ofRecord)
    (hids : (ids.map (·.1)).Perm (declaredRecords project includeTestFiles R₀))
    (hleft : leftRecords project includeTestFiles changed R R₀ = [])
    (hreferences : t.references.Perm
      (referenceRows ids (callRecords project includeTestFiles R₀)))
    (hrelations : t.relations = resolve score (ids.map .ofRecord)
      (referenceRows ids (callRecords project includeTestFiles R₀))) :
    (t.rebuild project includeTestFiles R score changed).relations =
      keptRelations project changed R ids t.relations ∪
        resolve score ((nextIds project includeTestFiles changed R ids t.entities).map .ofRecord)
          (referenceRows (nextIds project includeTestFiles changed R ids t.entities)
            (callRecords project includeTestFiles R)) := by
  have hreferences' : (t.rebuild project includeTestFiles R score changed).references.Perm _ :=
    references_rebuild hsame hentities hids hleft hreferences
  have hends : ∀ edge ∈ t.relations, edge.1 ∈ ids.map (·.2) ∧ edge.2 ∈ ids.map (·.2) := by
    intro edge hedge
    rw [hrelations] at hedge
    exact ends_of_resolve hedge
  by_cases hnone : rebuildFiles project changed R.records = []
  · have hkept : keptRelations project changed R ids t.relations = t.relations := by
      rw [keptRelations, keptIds_of_nil hnone]
      exact Finset.filter_true_of_mem hends
    rw [rebuild_of_nil hnone, nextIds_of_nil hnone] at hreferences'
    rw [rebuild_of_nil hnone, nextIds_of_nil hnone, hkept, ← resolve_perm hreferences',
      resolve_perm hreferences, ← hrelations, Finset.union_self]
  · have hkept : (t.clear project (rebuildFiles project changed R.records)).relations =
        keptRelations project changed R ids t.relations := by
      rw [clear_relations, keptRelations]
      refine Finset.filter_congr ?_
      intro edge hedge
      obtain ⟨hsource, htarget⟩ := hends edge hedge
      rw [not_or, not_mem_clearedIds hentities hsource, not_mem_clearedIds hentities htarget]
    have hrows : (t.rebuild project includeTestFiles R score changed).relations =
        (t.clear project (rebuildFiles project changed R.records)).relations ∪
          resolve score
            ((t.rebuild project includeTestFiles R score changed).projectEntities project)
            (t.rebuild project includeTestFiles R score changed).references := by
      rw [rebuild_of_cons hnone]
      rfl
    rw [hrows, hkept, projectEntities_rebuild includeTestFiles changed R score hentities,
      resolve_perm hreferences']

end Imports

end CodeScope.Store
