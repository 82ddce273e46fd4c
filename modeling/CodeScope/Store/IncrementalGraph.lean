import CodeScope.Library.Renaming
import CodeScope.Store.GraphScopes
import Mathlib.Data.Finset.Card

/-! # Incremental rebuilds

A rebuild of the changed files should leave what a full rebuild from empty tables leaves, up to row
ids. Four things come in between: records that leave the graph but are not cleared from it, function
scopes that are deleted by their name, relations that the resolver would not choose any more, and
imports whose scope is found through the `rowid` of an unrelated record. -/

namespace CodeScope.Store

open Text (Str str)

/-! ## Up to row ids -/

def EntityRow.rename (f : Int → Int) (e : EntityRow) : EntityRow := { e with id := f e.id }

def ReferenceRow.rename (f : Int → Int) (ref : ReferenceRow) : ReferenceRow :=
  { ref with callerId := f ref.callerId }

def ModuleScope.rename (g : ℕ → ℕ) (m : ModuleScope) : ModuleScope := { m with id := g m.id }

def FunctionScope.rename (g : ℕ → ℕ) (scope : FunctionScope) : FunctionScope :=
  { scope with parentId := g scope.parentId }

/-- Nothing points to an import: its own id is dropped. -/
def ImportRow.rename (g : ℕ → ℕ) (row : ImportRow) : ImportRow :=
  { row with id := 0, sourceScopeId := g row.sourceScopeId }

/-- The tables of the project are the same when the entities are renamed by `f` and the scopes by
    `g`. Both are one-to-one where it matters: the ids of a table are distinct. -/
structure RenamesTo (project : ℕ) (f : Int → Int) (g : ℕ → ℕ) (t t' : GraphTables) : Prop where
  entities : ((t.projectEntities project).map (.rename f)).Perm (t'.projectEntities project)
  references : (t.references.map (.rename f)).Perm t'.references
  relations : t.relations.image (Prod.map f f) = t'.relations
  modules : (t.modules.map (.rename g)).Perm t'.modules
  functions : (t.functions.map (.rename g)).Perm t'.functions
  imports : (t.imports.map (ImportRow.rename g)).Perm (t'.imports.map (ImportRow.rename id))
  noScope : g 0 = 0

/-- The same rows up to row ids. -/
def SameUpToIds (project : ℕ) (t t' : GraphTables) : Prop := ∃ f g, RenamesTo project f g t t'

/-- No rows of the project. -/
structure GraphTables.IsEmpty (t : GraphTables) (project : ℕ) : Prop where
  entities : t.projectEntities project = []
  references : t.references = []
  relations : t.relations = ∅
  modules : t.modules = []
  functions : t.functions = []
  imports : t.imports = []

/-! ## Tables that follow the records -/

section Follows

variable (project : ℕ) (includeTestFiles : Bool) (R : RecordTable)
  {α : Type} [LinearOrder α] [OrderBot α] (score : EntityRow → ReferenceRow → EntityRow → α)

/-- The relations that the resolver finds for numbered records. -/
def resolvedEdges (ids : NodeIds) : Finset (Int × Int) :=
  resolve score (ids.map .ofRecord) (referenceRows ids (callRecords project includeTestFiles R))

/-- The tables are those of the records, numbered by `ids`. -/
structure GraphTables.Follows (t : GraphTables) (ids : NodeIds) (imports : List (ℕ × PathRec)) :
    Prop where
  entities : t.projectEntities project = ids.map .ofRecord
  records : (ids.map (·.1)).Perm (declaredRecords project includeTestFiles R)
  references : t.references.Perm (referenceRows ids (callRecords project includeTestFiles R))
  relations : t.relations = resolvedEdges project includeTestFiles R score ids
  modulesFit : t.ModulesFit ids
  functions : t.functions.Perm (t.functionsOf ids)
  imports : t.imports = imports.map (t.importOf project includeTestFiles R)

end Follows

section Steps

variable {project : ℕ} {includeTestFiles : Bool} {changed : Option (List Str)} {R R₀ : RecordTable}
  {α : Type} [LinearOrder α] [OrderBot α] {score : EntityRow → ReferenceRow → EntityRow → α}
  {t : GraphTables} {ids : NodeIds} {imports : List (ℕ × PathRec)}

theorem functionsOf_filter {next : NodeIds}
    (hscopes : ∀ p ∈ next, modulePathOf p.1.filePath ≠ [] →
      losesScope project includeTestFiles changed R R₀ p.1 = false) :
    t.functionsOf (next.filter fun p => ! losesScope project includeTestFiles changed R R₀ p.1) =
      t.functionsOf next := by
  rw [GraphTables.functionsOf, GraphTables.functionsOf, List.filter_filter]
  congr 1
  refine List.filter_congr ?_
  intro p hp
  by_cases hpath : modulePathOf p.1.filePath = []
  · simp [hpath]
  · simp [hpath, hscopes p hp hpath]

/-- **A rebuild keeps the tables with the records** when nothing is left and nothing is lost. -/
theorem follows_rebuild (h : t.Follows project includeTestFiles R₀ score ids imports)
    (hsame : SameOutside project changed R R₀)
    (hleft : leftRecords project includeTestFiles changed R R₀ = [])
    (hscopes : ∀ row ∈ declaredRecords project includeTestFiles R, modulePathOf row.filePath ≠ [] →
      losesScope project includeTestFiles changed R R₀ row = false)
    (hrelations : keptRelations project changed R ids
        (resolvedEdges project includeTestFiles R₀ score ids) ⊆
      resolvedEdges project includeTestFiles R score
        (nextIds project includeTestFiles changed R ids t.entities)) :
    (t.rebuild project includeTestFiles R score changed).Follows project includeTestFiles R score
      (nextIds project includeTestFiles changed R ids t.entities)
      (nextImports project includeTestFiles changed R imports t.importSeq) := by
  have hrecords : ((nextIds project includeTestFiles changed R ids t.entities).map (·.1)).Perm
      (declaredRecords project includeTestFiles R) := by
    have hnext : ((nextIds project includeTestFiles changed R ids t.entities).map (·.1)).Perm _ :=
      nextIds_records hsame h.records
    rwa [hleft] at hnext
  refine ⟨projectEntities_rebuild includeTestFiles changed R score h.entities, hrecords,
    references_rebuild hsame h.entities h.records hleft h.references, ?_,
    modulesFit_rebuild h.entities h.modulesFit, ?_,
    imports_rebuild hsame h.entities h.records hleft h.modulesFit h.imports⟩
  · rw [relations_rebuild hsame h.entities h.records hleft h.references h.relations, h.relations]
    exact Finset.union_eq_right.mpr hrelations
  · have hfunctions : (t.rebuild project includeTestFiles R score changed).functions.Perm _ :=
      functions_rebuild h.entities h.records h.modulesFit h.functions
    rw [functionsOf_filter] at hfunctions
    · exact hfunctions
    · intro p hp
      exact hscopes p.1 (hrecords.mem_iff.mp (List.mem_map_of_mem hp))

theorem follows_nil (hempty : t.IsEmpty project) :
    t.Follows project includeTestFiles ⟨[], List.nodup_nil⟩ score [] [] := by
  refine ⟨hempty.entities, List.Perm.refl _, ?_, ?_, ?_, ?_, ?_⟩
  · rw [hempty.references]
    exact List.Perm.refl _
  · rw [hempty.relations]
    rfl
  · refine ⟨?_, ?_, ?_, ?_⟩ <;> simp [hempty.modules]
  · rw [hempty.functions]
    exact List.Perm.refl _
  · rw [hempty.imports, List.map_nil]

/-- **A full rebuild from empty tables** leaves tables that follow the records. -/
theorem follows_fresh (hempty : t.IsEmpty project) :
    (t.rebuild project includeTestFiles R score none).Follows project includeTestFiles R score
      (newIds project includeTestFiles none R t.entities)
      (numberImports t.importSeq (importPaths project includeTestFiles none R)) := by
  refine follows_rebuild (follows_nil hempty) ?_ rfl ?_ ?_
  · rw [SameOutside]
    simp [touched]
  · intro row _ _
    simp [losesScope, clearedNames, declaredRecords, recordsOf, RecordTable.records]
  · exact Finset.empty_subset _

end Steps

/-! ## When a rebuild leaves what a full one leaves -/

section Fits

variable (project : ℕ) (includeTestFiles : Bool) {α : Type} [LinearOrder α] [OrderBot α]
  (score : EntityRow → ReferenceRow → EntityRow → α) (start fresh : GraphTables)
  (changed : Option (List Str)) (R₀ R : RecordTable)

/-- What an import becomes, its ids apart. -/
def importFact (p : ℕ × PathRec) : PathRec × Option Str :=
  (p.2, importModule project includeTestFiles R p.1)

/-- The condition on the tables of records, old and new. -/
structure RebuildFits : Prop where
  /-- no declared record was in a changed file that has no records any more, or no path -/
  left : leftRecords project includeTestFiles changed R R₀ = []
  /-- no entity of a file that is not rebuilt has the name of one that is cleared -/
  scopes : ∀ row ∈ declaredRecords project includeTestFiles R, modulePathOf row.filePath ≠ [] →
    losesScope project includeTestFiles changed R R₀ row = false
  /-- an edge of the resolver between files that are not rebuilt is one for the new records too,
      whatever ids the new entities get -/
  relations : ∀ new : NodeIds,
    (new.map (·.1)).Perm ((declaredRecords project includeTestFiles R).filter fun row =>
      touched changed row.filePath) →
    let ids₀ := newIds project includeTestFiles none R₀ start.entities
    ((keptIds project changed R ids₀ ++ new).map (·.2)).Nodup →
    keptRelations project changed R ids₀
        (resolvedEdges project includeTestFiles R₀ score ids₀) ⊆
      resolvedEdges project includeTestFiles R score (keptIds project changed R ids₀ ++ new)
  /-- the records with the ids of the imports as their `rowid` lead to the same modules as in a full
      rebuild -/
  imports :
    let imports₀ := numberImports start.importSeq (importPaths project includeTestFiles none R₀)
    ((nextImports project includeTestFiles changed R imports₀
        (start.importSeq + imports₀.length)).map (importFact project includeTestFiles R)).Perm
      ((numberImports fresh.importSeq (importPaths project includeTestFiles none R)).map
        (importFact project includeTestFiles R))

end Fits

/-! ## Renaming the entities -/

section RenameEntities

variable {project : ℕ} {includeTestFiles : Bool} {R : RecordTable}
  {α : Type} [LinearOrder α] [OrderBot α] {score : EntityRow → ReferenceRow → EntityRow → α}
  {ids ids' : NodeIds} {f : Int → Int}

theorem referenceRows_rename (calls : List RecordRow) :
    (referenceRows ids calls).map (ReferenceRow.rename f) =
      referenceRows (ids.map (Prod.map id f)) calls := by
  simp only [referenceRows, callersOf, List.map_flatMap, List.filter_map, List.map_map]
  rfl

theorem referenceRows_perm (h : ids.Perm ids') (calls : List RecordRow) :
    (referenceRows ids calls).Perm (referenceRows ids' calls) :=
  List.Perm.flatMap_left calls fun _ _ => (h.filter _).map _

theorem isBest_rename {entities : List EntityRow} {s : EntityRow → α} {target : EntityRow}
    (hf : (entities.map fun e => f e.id).Nodup) (htarget : target ∈ entities) :
    IsBest s (entities.map (.rename f)) (target.rename f) ↔ IsBest s entities target := by
  rw [IsBest, IsBest, List.forall_mem_map]
  refine and_congr_right fun _ => forall₂_congr fun other hother => ?_
  refine imp_congr_left (not_congr ⟨?_, congrArg f⟩)
  intro heq
  rw [List.inj_on_of_nodup_map hf hother htarget heq]

/-- **The resolver does not depend on the ids.** -/
theorem resolvedEdges_rename (hf : ((ids.map (Prod.map id f)).map (·.2)).Nodup) :
    resolvedEdges project includeTestFiles R score (ids.map (Prod.map id f)) =
      (resolvedEdges project includeTestFiles R score ids).image (Prod.map f f) := by
  have hentities : (ids.map (Prod.map id f)).map EntityRow.ofRecord =
      (ids.map EntityRow.ofRecord).map (.rename f) := by
    rw [List.map_map, List.map_map]
    rfl
  have hinj : ((ids.map EntityRow.ofRecord).map fun e => f e.id).Nodup := by
    rw [List.map_map] at hf ⊢
    exact hf
  rw [resolvedEdges, resolvedEdges, hentities, ← referenceRows_rename]
  ext edge
  rw [mem_resolve, Finset.mem_image]
  constructor
  · rintro ⟨_, hmem, _, hmem', hcalls, _, hmem'', hbest, rfl⟩
    obtain ⟨ref, href, rfl⟩ := List.mem_map.mp hmem
    obtain ⟨caller, hcaller, rfl⟩ := List.mem_map.mp hmem'
    obtain ⟨target, htarget, rfl⟩ := List.mem_map.mp hmem''
    obtain ⟨row, hrow, hcallers⟩ := List.mem_flatMap.mp href
    obtain ⟨p, hp, rfl⟩ := List.mem_map.mp hcallers
    have hsame : caller = .ofRecord p := List.inj_on_of_nodup_map hinj hcaller
      (List.mem_map_of_mem (List.mem_of_mem_filter hp)) hcalls
    refine ⟨(caller.id, target.id), mem_resolve.mpr ⟨_, href, caller, hcaller, ?_, target, htarget,
      (isBest_rename hinj htarget).mp hbest, rfl⟩, rfl⟩
    rw [hsame]
    rfl
  · rintro ⟨_, hedge, rfl⟩
    obtain ⟨ref, href, caller, hcaller, hcalls, target, htarget, hbest, rfl⟩ := mem_resolve.mp hedge
    exact ⟨_, List.mem_map_of_mem href, _, List.mem_map_of_mem hcaller, congrArg f hcalls, _,
      List.mem_map_of_mem htarget, (isBest_rename hinj htarget).mpr hbest, rfl⟩

theorem resolvedEdges_perm (h : ids.Perm ids') :
    resolvedEdges project includeTestFiles R score ids =
      resolvedEdges project includeTestFiles R score ids' := by
  have hentities : (ids.map EntityRow.ofRecord).Perm (ids'.map EntityRow.ofRecord) := h.map _
  rw [resolvedEdges, resolvedEdges, resolve_perm (referenceRows_perm h _)]
  ext edge
  simp only [mem_resolve, IsBest, hentities.mem_iff]

end RenameEntities

/-! ## Renaming the scopes -/

section RenameScopes

variable {project : ℕ} {includeTestFiles : Bool} {R : RecordTable} {t t' : GraphTables}
  {ids ids' : NodeIds} {g : ℕ → ℕ}

theorem moduleNames_perm (hfit : t.ModulesFit ids) (hfit' : t'.ModulesFit ids')
    (hrecords : (ids.map (·.1)).Perm (ids'.map (·.1))) :
    (t.modules.map (·.name)).Perm (t'.modules.map (·.name)) := by
  have hpaths : ∀ (l : NodeIds) (name : Str), (∃ p ∈ l, modulePathOf p.1.filePath = name) ↔
      ∃ row ∈ l.map (·.1), modulePathOf row.filePath = name := by
    intro l name
    simp only [List.mem_map, exists_exists_and_eq_and]
  rw [List.perm_ext_iff_of_nodup hfit.names hfit'.names]
  intro name
  rw [hfit.modules, hfit'.modules, hpaths, hpaths]
  simp only [hrecords.mem_iff]

theorem exists_rename_scopes (hfit : t.ModulesFit ids) (hfit' : t'.ModulesFit ids')
    (hrecords : (ids.map (·.1)).Perm (ids'.map (·.1))) :
    ∃ g : ℕ → ℕ, g 0 = 0 ∧ (t.modules.map (.rename g)).Perm t'.modules := by
  have hvalues : ((t.modules.map fun m => (m.name, m.id)).map Prod.fst).Perm
      ((t'.modules.map fun m => (m.name, m.id)).map Prod.fst) := by
    rw [List.map_map, List.map_map]
    exact moduleNames_perm hfit hfit' hrecords
  have hkeys : ((t.modules.map fun m => (m.name, m.id)).map Prod.snd).Nodup := by
    rw [List.map_map]
    exact hfit.scopeIds
  obtain ⟨f, hf⟩ := Renaming.exists_renaming hvalues hkeys
  refine ⟨Function.update f 0 0, Function.update_self 0 0 f, ?_⟩
  have hrows := hf.map fun p => ModuleScope.mk p.2 p.1
  rw [List.map_map, List.map_map, List.map_map] at hrows
  have hsame : t.modules.map (.rename (Function.update f 0 0)) =
      t.modules.map ((fun p => ModuleScope.mk p.2 p.1) ∘ Prod.map id f ∘
        fun m => (m.name, m.id)) := by
    refine List.map_congr_left ?_
    intro m hm
    rw [ModuleScope.rename, Function.update_of_ne (hfit.bounds m hm).1.ne']
    rfl
  rw [hsame]
  exact hrows.trans (List.Perm.of_eq (List.map_id _))

/-- The scope of a module goes to the scope of the module. -/
theorem moduleId_rename (hmodules : (t.modules.map (.rename g)).Perm t'.modules)
    (hnames : (t.modules.map (·.name)).Nodup) (hzero : g 0 = 0) (name : Str) :
    g (t.moduleId name) = t'.moduleId name := by
  have hperm : (t.modules.map (·.name)).Perm (t'.modules.map (·.name)) := by
    have hmap := hmodules.map (·.name)
    rwa [List.map_map] at hmap
  by_cases hname : name ∈ t.modules.map (·.name)
  · obtain ⟨m, hm, rfl⟩ := List.mem_map.mp hname
    have hm' : m.rename g ∈ t'.modules := hmodules.mem_iff.mp (List.mem_map_of_mem hm)
    rw [moduleId_of_mem hnames hm]
    exact (moduleId_of_mem (hperm.nodup_iff.mp hnames) hm').symm
  · have hnone : ∀ t : GraphTables, name ∉ t.modules.map (·.name) → t.moduleId name = 0 := by
      intro t hname
      have hfind : KeyedTable.find ModuleScope.name t.modules name = none := by
        rw [KeyedTable.find, List.find?_eq_none]
        intro m hm heq
        exact hname (of_decide_eq_true heq ▸ List.mem_map_of_mem hm)
      rw [GraphTables.moduleId, hfind]
      rfl
    rw [hnone t hname, hnone t' (fun h => hname (hperm.mem_iff.mpr h)), hzero]

theorem functionsOf_rename (hrecords : (ids.map (·.1)).Perm (ids'.map (·.1)))
    (hids : ∀ name, g (t.moduleId name) = t'.moduleId name) :
    ((t.functionsOf ids).map (.rename g)).Perm (t'.functionsOf ids') := by
  have hrows : ∀ (t : GraphTables) (l : NodeIds), t.functionsOf l =
      ((l.map (·.1)).filter fun row => modulePathOf row.filePath ≠ []).map
        fun row => t.functionOf (row, 0) := by
    intro t l
    rw [GraphTables.functionsOf, List.filter_map, List.map_map]
    rfl
  have hrename : ∀ row, (t.functionOf (row, 0)).rename g = t'.functionOf (row, 0) := by
    intro row
    rw [GraphTables.functionOf, GraphTables.functionOf, FunctionScope.rename, hids]
  rw [hrows, hrows, List.map_map]
  simp only [Function.comp_def, hrename]
  exact (hrecords.filter _).map _

/-- The row of an import without its own id. -/
def GraphTables.importRow (t : GraphTables) (fact : PathRec × Option Str) : ImportRow :=
  ⟨0, (fact.2.map t.moduleId).getD 0, fact.1⟩

theorem imports_rename (hids : ∀ name, g (t.moduleId name) = t'.moduleId name) (hzero : g 0 = 0)
    (imports : List (ℕ × PathRec)) :
    (imports.map (t.importOf project includeTestFiles R)).map (ImportRow.rename g) =
      (imports.map (importFact project includeTestFiles R)).map t'.importRow := by
  rw [List.map_map, List.map_map]
  refine List.map_congr_left ?_
  intro p _
  simp only [Function.comp_apply, GraphTables.importOf, GraphTables.importRow, importFact,
    ImportRow.rename]
  cases importModule project includeTestFiles R p.1 with
  | none => simp [hzero]
  | some name => simp [hids]

/-- The module can be read off the scope. -/
theorem importFact_of_importRow (hfit : t.ModulesFit ids)
    (hrecords : (ids.map (·.1)).Perm (declaredRecords project includeTestFiles R))
    (imports : List (ℕ × PathRec)) :
    ((imports.map (importFact project includeTestFiles R)).map t.importRow).map
        (fun row => (row.path, (KeyedTable.find ModuleScope.id t.modules row.sourceScopeId).map
          (·.name))) =
      imports.map (importFact project includeTestFiles R) := by
  rw [List.map_map, List.map_map]
  refine List.map_congr_left ?_
  intro p _
  simp only [Function.comp_apply, GraphTables.importRow, importFact]
  cases hmodule : importModule project includeTestFiles R p.1 with
  | none =>
      have hnone : KeyedTable.find ModuleScope.id t.modules 0 = none := by
        rw [KeyedTable.find, List.find?_eq_none]
        intro m hm heq
        exact (hfit.bounds m hm).1.ne' (of_decide_eq_true heq)
      simp [hnone]
  | some name =>
      obtain ⟨s, _, _, _, ⟨hnamed, hdeclared⟩, hpath⟩ := importModule_eq_some.mp hmodule
      obtain ⟨row, hrow, hfile⟩ := List.mem_map.mp hdeclared
      obtain ⟨q, hq, rfl⟩ := List.mem_map.mp (hrecords.mem_iff.mpr hrow)
      obtain ⟨m, hm, rfl⟩ := List.mem_map.mp ((hfit.modules name).mpr
        ⟨hnamed, q, hq, by rw [hfile, hpath]⟩)
      have hfound := (KeyedTable.mem_iff_find hfit.scopeIds).mp hm
      simp [moduleId_of_mem hfit.names hm, hfound]

end RenameScopes

/-! ## Both directions -/

section Main

variable {project : ℕ} {includeTestFiles : Bool} {changed : Option (List Str)} {R R₀ : RecordTable}
  {α : Type} [LinearOrder α] [OrderBot α] {score : EntityRow → ReferenceRow → EntityRow → α}
  {t t' start fresh : GraphTables} {ids ids' : NodeIds} {imports imports' : List (ℕ × PathRec)}

theorem exists_rename_ids (hrecords : (ids.map (·.1)).Perm (ids'.map (·.1)))
    (hids : (ids.map (·.2)).Nodup) (hids' : (ids'.map (·.2)).Nodup) :
    ∃ f : Int → Int, (ids.map (Prod.map id f)).Perm ids' ∧
      (resolvedEdges project includeTestFiles R score ids).image (Prod.map f f) =
        resolvedEdges project includeTestFiles R score ids' := by
  obtain ⟨f, hf⟩ := Renaming.exists_renaming hrecords hids
  refine ⟨f, hf, ?_⟩
  rw [← resolvedEdges_rename ((hf.map (·.2)).nodup_iff.mpr hids'), resolvedEdges_perm hf]

/-- **Tables that follow the same records are the same up to row ids**, if their imports are. -/
theorem same_of_follows (h : t.Follows project includeTestFiles R score ids imports)
    (h' : t'.Follows project includeTestFiles R score ids' imports')
    (himports : (imports.map (importFact project includeTestFiles R)).Perm
      (imports'.map (importFact project includeTestFiles R))) :
    SameUpToIds project t t' := by
  have hrecords := h.records.trans h'.records.symm
  obtain ⟨f, hf, hedges⟩ : ∃ f : Int → Int, (ids.map (Prod.map id f)).Perm ids' ∧
      (resolvedEdges project includeTestFiles R score ids).image (Prod.map f f) = _ :=
    exists_rename_ids hrecords (ids_nodup h.entities) (ids_nodup h'.entities)
  obtain ⟨g, hzero, hmodules⟩ := exists_rename_scopes h.modulesFit h'.modulesFit hrecords
  have hscopes := moduleId_rename hmodules h.modulesFit.names hzero
  refine ⟨f, g, ?_, ?_, ?_, hmodules, ?_, ?_, hzero⟩
  · rw [h.entities, h'.entities]
    have hrows := hf.map EntityRow.ofRecord
    rw [List.map_map] at hrows ⊢
    exact hrows
  · refine (h.references.map _).trans ?_
    rw [referenceRows_rename]
    exact (referenceRows_perm hf _).trans h'.references.symm
  · rw [h.relations, h'.relations, hedges]
  · refine (h.functions.map _).trans ?_
    exact (functionsOf_rename hrecords hscopes).trans h'.functions.symm
  · rw [h.imports, h'.imports, imports_rename hscopes hzero, imports_rename (fun _ => rfl) rfl]
    exact himports.map _

/-- An edge between kept entities does not depend on the ids of the new ones. -/
theorem resolvedEdges_kept {kept new new' : NodeIds}
    (hrecords : (new.map (·.1)).Perm (new'.map (·.1)))
    (hids : ((kept ++ new).map (·.2)).Nodup) (hids' : ((kept ++ new').map (·.2)).Nodup)
    {edge : Int × Int} (hsource : edge.1 ∈ kept.map (·.2)) (htarget : edge.2 ∈ kept.map (·.2))
    (hedge : edge ∈ resolvedEdges project includeTestFiles R score (kept ++ new)) :
    edge ∈ resolvedEdges project includeTestFiles R score (kept ++ new') := by
  rw [List.map_append, List.nodup_append] at hids
  obtain ⟨_, hnew, hdisjoint⟩ := hids
  obtain ⟨f, hf⟩ := Renaming.exists_renaming hrecords hnew
  let h : Int → Int := fun i => if i ∈ kept.map (·.2) then i else f i
  have hfix : ∀ i ∈ kept.map (·.2), h i = i := fun i hi => if_pos hi
  have hkept : kept.map (Prod.map id h) = kept := by
    refine (List.map_congr_left ?_).trans (List.map_id kept)
    intro p hp
    exact Prod.ext rfl (hfix p.2 (List.mem_map_of_mem hp))
  have hmoved : new.map (Prod.map id h) = new.map (Prod.map id f) := by
    refine List.map_congr_left ?_
    intro p hp
    refine Prod.ext rfl (if_neg ?_)
    intro hmem
    exact hdisjoint p.2 hmem p.2 (List.mem_map_of_mem hp) rfl
  have hperm : ((kept ++ new).map (Prod.map id h)).Perm (kept ++ new') := by
    rw [List.map_append, hkept, hmoved]
    exact hf.append_left kept
  rw [← resolvedEdges_perm hperm, resolvedEdges_rename ((hperm.map (·.2)).nodup_iff.mpr hids')]
  refine Finset.mem_image.mpr ⟨edge, hedge, ?_⟩
  exact Prod.ext (hfix _ hsource) (hfix _ htarget)

theorem length_numberImports (seq : ℕ) (paths : List PathRec) :
    (numberImports seq paths).length = paths.length := by
  rw [numberImports, List.length_map, List.length_zipIdx]

/-- **Enough**: when the condition holds, the tables are those of a full rebuild. -/
theorem same_of_fits (hstart : start.IsEmpty project) (hfresh : fresh.IsEmpty project)
    (hsame : SameOutside project changed R R₀)
    (hfits : RebuildFits project includeTestFiles score start fresh changed R₀ R) :
    SameUpToIds project
      ((start.rebuild project includeTestFiles R₀ score none).rebuild project includeTestFiles R
        score changed)
      (fresh.rebuild project includeTestFiles R score none) := by
  have hbefore : (start.rebuild project includeTestFiles R₀ score none).Follows project
      includeTestFiles R₀ score _ _ := follows_fresh hstart
  have hnodup := ids_nodup
    (projectEntities_rebuild includeTestFiles changed R score hbefore.entities)
  have hafter := follows_rebuild hbefore hsame hfits.left hfits.scopes
    (hfits.relations _ newIds_records hnodup)
  refine same_of_follows hafter (follows_fresh hfresh) ?_
  have himports := hfits.imports
  dsimp only at himports
  rw [length_numberImports] at himports
  rw [importSeq_rebuild]
  exact himports

/-! ## What the tables tell

The old tables follow the old records, and the tables after the rebuild are those of a full one:
then the condition holds, part by part. -/

section Necessary

variable {f : Int → Int} {g : ℕ → ℕ}
  (h : t.Follows project includeTestFiles R₀ score ids imports)
  (h' : t'.Follows project includeTestFiles R score ids' imports')
  (hsame : SameOutside project changed R R₀)
  (hren : RenamesTo project f g (t.rebuild project includeTestFiles R score changed) t')

include h h' hsame hren

theorem left_of_renames : leftRecords project includeTestFiles changed R R₀ = [] := by
  have hcount := hren.entities.length_eq
  rw [projectEntities_rebuild includeTestFiles changed R score h.entities, h'.entities,
    List.length_map, List.length_map, List.length_map] at hcount
  have hnext : ((nextIds project includeTestFiles changed R ids t.entities).map (·.1)).Perm _ :=
    nextIds_records hsame h.records
  have hlength := hnext.length_eq
  have hlength' := h'.records.length_eq
  rw [List.length_map, List.length_append] at hlength
  rw [List.length_map] at hlength'
  exact List.length_eq_zero_iff.mp (by omega)

theorem records_of_renames :
    ((nextIds project includeTestFiles changed R ids t.entities).map (·.1)).Perm
      (declaredRecords project includeTestFiles R) := by
  have hnext : ((nextIds project includeTestFiles changed R ids t.entities).map (·.1)).Perm _ :=
    nextIds_records hsame h.records
  rwa [left_of_renames h h' hsame hren] at hnext

/-- There are as many function scopes, so none is lost. -/
theorem scopes_of_renames : ∀ row ∈ declaredRecords project includeTestFiles R,
    modulePathOf row.filePath ≠ [] →
      losesScope project includeTestFiles changed R R₀ row = false := by
  have hrecords := records_of_renames h h' hsame hren
  have hcount := hren.functions.length_eq
  have hfunctions : (t.rebuild project includeTestFiles R score changed).functions.Perm _ :=
    functions_rebuild h.entities h.records h.modulesFit h.functions
  have hwhole : ∀ (t : GraphTables) (l : NodeIds), (t.functionsOf l).length =
      ((l.map (·.1)).filter fun row => modulePathOf row.filePath ≠ []).length := by
    intro t l
    rw [GraphTables.functionsOf, List.length_map, List.filter_map, List.length_map]
    rfl
  rw [List.length_map, hfunctions.length_eq, h'.functions.length_eq, hwhole, hwhole,
    (h'.records.filter _).length_eq, ← (hrecords.filter _).length_eq] at hcount
  have hsplit : (((nextIds project includeTestFiles changed R ids t.entities).filter fun p =>
      ! losesScope project includeTestFiles changed R R₀ p.1).map (·.1)).filter
        (fun row => modulePathOf row.filePath ≠ []) =
      (((nextIds project includeTestFiles changed R ids t.entities).map (·.1)).filter
        fun row => modulePathOf row.filePath ≠ []).filter fun row =>
          ! losesScope project includeTestFiles changed R R₀ row := by
    rw [List.filter_map, List.filter_map, List.filter_map, List.filter_filter, List.filter_filter]
    congr 1
    refine List.filter_congr ?_
    intro p _
    exact Bool.and_comm _ _
  rw [hsplit, List.length_filter_eq_length_iff] at hcount
  intro row hrow hpath
  have hkeep := hcount row (List.mem_filter.mpr ⟨hrecords.mem_iff.mpr hrow, decide_eq_true hpath⟩)
  simpa using hkeep

/-- There are as many relations, so none is left that the resolver does not find. -/
theorem relations_of_renames :
    keptRelations project changed R ids (resolvedEdges project includeTestFiles R₀ score ids) ⊆
      resolvedEdges project includeTestFiles R score
        (nextIds project includeTestFiles changed R ids t.entities) := by
  have hleft := left_of_renames h h' hsame hren
  have hrecords := records_of_renames h h' hsame hren
  have hentities := projectEntities_rebuild includeTestFiles changed R score h.entities
  have hrelations : (t.rebuild project includeTestFiles R score changed).relations = _ :=
    relations_rebuild hsame h.entities h.records hleft h.references h.relations
  rw [h.relations] at hrelations
  -- `f` keeps the edges apart, so there are as many after the rebuild as in the full one
  have hinj : (((nextIds project includeTestFiles changed R ids t.entities).map
      (·.2)).map f).Nodup := by
    have hids := hren.entities.map (·.id)
    rw [hentities, h'.entities, List.map_map, List.map_map, List.map_map] at hids
    rw [List.map_map]
    refine hids.nodup_iff.mpr ?_
    exact ids_nodup h'.entities
  have hends : ∀ edge ∈ (t.rebuild project includeTestFiles R score changed).relations,
      edge.1 ∈ (nextIds project includeTestFiles changed R ids t.entities).map (·.2) ∧
        edge.2 ∈ (nextIds project includeTestFiles changed R ids t.entities).map (·.2) := by
    intro edge hedge
    rw [hrelations] at hedge
    rcases Finset.mem_union.mp hedge with hkept | hnew
    · obtain ⟨_, hsource, htarget⟩ := Finset.mem_filter.mp hkept
      rw [nextIds, List.map_append]
      exact ⟨List.mem_append_left _ hsource, List.mem_append_left _ htarget⟩
    · exact ends_of_resolve hnew
  have hcount : t'.relations.card =
      (t.rebuild project includeTestFiles R score changed).relations.card := by
    rw [← hren.relations]
    refine Finset.card_image_of_injOn ?_
    intro edge hedge edge' hedge' heq
    obtain ⟨hsource, htarget⟩ := Prod.mk.inj heq
    exact Prod.ext
      (List.inj_on_of_nodup_map hinj (hends edge hedge).1 (hends edge' hedge').1 hsource)
      (List.inj_on_of_nodup_map hinj (hends edge hedge).2 (hends edge' hedge').2 htarget)
  obtain ⟨f', _, hedges⟩ : ∃ f' : Int → Int, _ ∧
      (resolvedEdges project includeTestFiles R score
        (nextIds project includeTestFiles changed R ids t.entities)).image (Prod.map f' f') = _ :=
    exists_rename_ids (hrecords.trans h'.records.symm) (ids_nodup hentities)
      (ids_nodup h'.entities)
  have hfewer : t'.relations.card ≤ (resolvedEdges project includeTestFiles R score
      (nextIds project includeTestFiles changed R ids t.entities)).card := by
    rw [h'.relations, ← hedges]
    exact Finset.card_image_le
  rw [hcount, hrelations] at hfewer
  have hsame := Finset.eq_of_subset_of_card_le Finset.subset_union_right hfewer
  rw [← resolvedEdges] at hsame
  rw [hsame]
  exact Finset.subset_union_left

/-- The imports lead to the same modules. -/
theorem imports_of_renames :
    ((nextImports project includeTestFiles changed R imports t.importSeq).map
        (importFact project includeTestFiles R)).Perm
      (imports'.map (importFact project includeTestFiles R)) := by
  have hleft := left_of_renames h h' hsame hren
  have hfit : (t.rebuild project includeTestFiles R score changed).ModulesFit _ :=
    modulesFit_rebuild h.entities h.modulesFit
  have hscopes := moduleId_rename hren.modules hfit.names hren.noScope
  have himports := hren.imports
  rw [imports_rebuild hsame h.entities h.records hleft h.modulesFit h.imports, h'.imports,
    imports_rename hscopes hren.noScope, imports_rename (fun _ => rfl) rfl] at himports
  have hfacts := himports.map fun row =>
    (row.path, (KeyedTable.find ModuleScope.id t'.modules row.sourceScopeId).map (·.name))
  rwa [importFact_of_importRow h'.modulesFit h'.records,
    importFact_of_importRow h'.modulesFit h'.records] at hfacts

end Necessary

/-- **Necessary**: when the tables are those of a full rebuild, the condition holds. -/
theorem fits_of_same (hstart : start.IsEmpty project) (hfresh : fresh.IsEmpty project)
    (hsame : SameOutside project changed R R₀)
    (hequal : SameUpToIds project
      ((start.rebuild project includeTestFiles R₀ score none).rebuild project includeTestFiles R
        score changed)
      (fresh.rebuild project includeTestFiles R score none)) :
    RebuildFits project includeTestFiles score start fresh changed R₀ R := by
  obtain ⟨f, g, hren⟩ := hequal
  have hbefore : (start.rebuild project includeTestFiles R₀ score none).Follows project
      includeTestFiles R₀ score _ _ := follows_fresh hstart
  have hfull : (fresh.rebuild project includeTestFiles R score none).Follows project
      includeTestFiles R score _ _ := follows_fresh hfresh
  refine ⟨left_of_renames hbefore hfull hsame hren, scopes_of_renames hbefore hfull hsame hren,
    ?_, ?_⟩
  · intro new hnew ids₀ hids edge hedge
    have hfound := relations_of_renames hbefore hfull hsame hren hedge
    obtain ⟨_, hsource, htarget⟩ := Finset.mem_filter.mp hedge
    exact resolvedEdges_kept (newIds_records.trans hnew.symm)
      (ids_nodup (projectEntities_rebuild includeTestFiles changed R score hbefore.entities)) hids
      hsource htarget hfound
  · intro imports₀
    have himports := imports_of_renames hbefore hfull hsame hren
    rw [importSeq_rebuild] at himports
    rw [length_numberImports]
    exact himports

end Main

def noTables : GraphTables := ⟨⟨[], List.nodup_nil⟩, [], ∅, [], [], [], 0, 0⟩

theorem noTables_isEmpty (project : ℕ) : noTables.IsEmpty project :=
  ⟨rfl, rfl, rfl, rfl, rfl, rfl⟩

end CodeScope.Store
