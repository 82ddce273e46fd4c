import CodeScope.Library.Collapse
import CodeScope.Library.Text

/-! # The repair of the scopes

Earlier versions appended a scope for every module and function on each rebuild. Three statements of
`runSchemaMigrations` collapse the duplicates: functions are moved below the first scope of their
module, then the other module scopes are deleted, then functions that have become the same. The
summaries of modules were made unique before. Every statement is taken to succeed. -/

namespace CodeScope.Store

open Text (Str str)
open Collapse

/-! ## Tables -/

/-- A row of `scope`; `none` is NULL. -/
structure ScopeRow where
  id : ℤ
  project : ℤ
  parent : Option ℤ
  kind : ℤ
  name : Str
  startRow : Option ℤ
  endRow : Option ℤ
deriving DecidableEq

def ScopeRow.isModule (s : ScopeRow) : Bool := s.kind = 1

def ScopeRow.isFunction (s : ScopeRow) : Bool := s.kind = 2

/-- A row of `import`, as far as scopes go. -/
structure ScopeImport where
  id : ℤ
  project : ℤ
  sourceScopeId : ℤ
deriving DecidableEq

/-- A row of `module_summary`, as far as scopes go. -/
structure ScopeSummary where
  id : ℤ
  project : ℤ
  moduleId : ℤ
deriving DecidableEq

@[ext]
structure ScopeDb where
  scopes : List ScopeRow
  imports : List ScopeImport
  summaries : List ScopeSummary
  ids : (scopes.map ScopeRow.id).Nodup
  importIds : (imports.map ScopeImport.id).Nodup
  summaryIds : (summaries.map ScopeSummary.id).Nodup

/-! ## Statements -/

/-- `GROUP BY project_id, name` -/
def ScopeRow.moduleKey (s : ScopeRow) : ℤ × Str := (s.project, s.name)

/-- `GROUP BY project_id, parent_id, name, start_row, end_row` -/
def ScopeRow.functionKey (s : ScopeRow) : ℤ × Option ℤ × Str × Option ℤ × Option ℤ :=
  (s.project, s.parent, s.name, s.startRow, s.endRow)

/-- `SELECT MIN(id) FROM scope WHERE kind = 1 GROUP BY project_id, name` -/
abbrev KeptModule (rows : List ScopeRow) (i : ℤ) : Prop :=
  Kept ScopeRow.id ScopeRow.moduleKey ScopeRow.isModule rows i

/-- A function below a module scope that is a duplicate. -/
def Misplaced (rows : List ScopeRow) (child : ScopeRow) : Prop :=
  child.isFunction = true ∧
    ∃ d ∈ rows, d.isModule = true ∧ ¬ KeptModule rows d.id ∧ child.parent = some d.id

instance (rows : List ScopeRow) (child : ScopeRow) : Decidable (Misplaced rows child) := by
  unfold Misplaced
  infer_instance

/-- The module scopes with the project and the name of the parent. -/
def keepers (rows : List ScopeRow) (child : ScopeRow) : List ScopeRow :=
  rows.filter fun keep => keep.isModule && rows.any fun dup =>
    child.parent = some dup.id && keep.project = dup.project && keep.name = dup.name

/-- `SELECT MIN(keep.id)` -/
def newParent (rows : List ScopeRow) (child : ScopeRow) : Option ℤ :=
  ((keepers rows child).map ScopeRow.id).min?

def reparent (rows : List ScopeRow) (child : ScopeRow) : ScopeRow :=
  if Misplaced rows child then { child with parent := newParent rows child } else child

def deleteModules (rows : List ScopeRow) : List ScopeRow :=
  collapse ScopeRow.id ScopeRow.moduleKey ScopeRow.isModule rows

def deleteFunctions (rows : List ScopeRow) : List ScopeRow :=
  collapse ScopeRow.id ScopeRow.functionKey ScopeRow.isFunction rows

theorem reparent_id (rows : List ScopeRow) (child : ScopeRow) :
    (reparent rows child).id = child.id := by
  rw [reparent]
  split <;> rfl

/-- The three statements, in their order. -/
def repairedScopes (rows : List ScopeRow) : List ScopeRow :=
  deleteFunctions (deleteModules (rows.map (reparent rows)))

/-- The newest summary of each module stays. -/
def uniqueSummaries (rows : List ScopeSummary) : List ScopeSummary :=
  collapse (fun s => - s.id) (fun s => (s.project, s.moduleId)) (fun _ => true) rows

/-- The migrations that touch the scopes and what designates them. -/
def ScopeDb.repair (db : ScopeDb) : ScopeDb where
  scopes := repairedScopes db.scopes
  imports := db.imports
  summaries := uniqueSummaries db.summaries
  ids := by
    have hids : ((db.scopes.map (reparent db.scopes)).map ScopeRow.id).Nodup := by
      rw [List.map_map]
      exact (List.map_congr_left fun r _ => reparent_id db.scopes r :
        db.scopes.map (ScopeRow.id ∘ reparent db.scopes) = _) ▸ db.ids
    exact hids.sublist ((List.filter_sublist.trans List.filter_sublist).map _)
  importIds := db.importIds
  summaryIds := db.summaryIds.sublist (List.filter_sublist.map _)

/-! ## What the repair is for -/

/-- The scope is a module of the project with the name. -/
def ScopeDb.IsModule (db : ScopeDb) (project : ℤ) (name : Str) (m : ScopeRow) : Prop :=
  m ∈ db.scopes ∧ m.isModule = true ∧ m.project = project ∧ m.name = name

/-- What tells a function from another one: its module, its name and its place. -/
structure FunctionPlace where
  project : ℤ
  moduleProject : ℤ
  moduleName : Str
  name : Str
  startRow : Option ℤ
  endRow : Option ℤ

/-- The scope is a function at the place. -/
def ScopeDb.IsFunctionAt (db : ScopeDb) (place : FunctionPlace) (f : ScopeRow) : Prop :=
  f ∈ db.scopes ∧ f.isFunction = true ∧
    (∃ p, db.IsModule place.moduleProject place.moduleName p ∧ f.parent = some p.id) ∧
    f.project = place.project ∧ f.name = place.name ∧
    f.startRow = place.startRow ∧ f.endRow = place.endRow

/-- A repair keeps the meaning of the tables. -/
structure ScopesRepaired (repair : ScopeDb → ScopeDb) (db : ScopeDb) : Prop where
  modules : ∀ project name, (∃ m, db.IsModule project name m) ↔
    ∃ m, (repair db).IsModule project name m
  one_module : ∀ project name m m', (repair db).IsModule project name m →
    (repair db).IsModule project name m' → m = m'
  /-- a function stays below its module -/
  parents : ∀ f ∈ db.scopes, ∀ f' ∈ (repair db).scopes, f'.id = f.id → f.isFunction = true →
    ∀ project name p, db.IsModule project name p → f.parent = some p.id →
      ∃ p', (repair db).IsModule project name p' ∧ f'.parent = some p'.id
  functions : ∀ place, (∃ f, db.IsFunctionAt place f) ↔ ∃ f, (repair db).IsFunctionAt place f
  one_function : ∀ place f f', (repair db).IsFunctionAt place f →
    (repair db).IsFunctionAt place f' → f = f'
  /-- what designated a module designates one of the same name -/
  imports : ∀ i ∈ db.imports, ∀ i' ∈ (repair db).imports, i'.id = i.id →
    ∀ project name m, db.IsModule project name m → i.sourceScopeId = m.id →
      ∃ m', (repair db).IsModule project name m' ∧ i'.sourceScopeId = m'.id
  summaries : ∀ s ∈ db.summaries, ∀ s' ∈ (repair db).summaries, s'.id = s.id →
    ∀ project name m, db.IsModule project name m → s.moduleId = m.id →
      ∃ m', (repair db).IsModule project name m' ∧ s'.moduleId = m'.id
  others : (repair db).scopes.filter (fun s => !s.isModule && !s.isFunction) =
    db.scopes.filter fun s => !s.isModule && !s.isFunction
  again : repair (repair db) = repair db

/-! ## One statement after the other -/

section Statements

variable {rows : List ScopeRow} {child m : ScopeRow}

theorem ScopeRow.not_isFunction (h : m.isModule = true) : m.isFunction = false := by
  have hkind : m.kind = 1 := of_decide_eq_true h
  rw [isFunction, hkind]
  rfl

theorem reparent_of_not (h : ¬ Misplaced rows child) : reparent rows child = child := if_neg h

theorem reparent_fields (rows : List ScopeRow) (child : ScopeRow) :
    (reparent rows child).project = child.project ∧ (reparent rows child).kind = child.kind ∧
      (reparent rows child).name = child.name ∧
      (reparent rows child).startRow = child.startRow ∧
      (reparent rows child).endRow = child.endRow := by
  rw [reparent]
  split <;> exact ⟨rfl, rfl, rfl, rfl, rfl⟩

theorem reparent_isFunction (rows : List ScopeRow) (child : ScopeRow) :
    (reparent rows child).isFunction = child.isFunction := by
  rw [ScopeRow.isFunction, (reparent_fields rows child).2.1, ScopeRow.isFunction]

theorem reparent_isModule (rows : List ScopeRow) (child : ScopeRow) :
    (reparent rows child).isModule = child.isModule := by
  rw [ScopeRow.isModule, (reparent_fields rows child).2.1, ScopeRow.isModule]

theorem reparent_of_not_function (h : child.isFunction = false) : reparent rows child = child := by
  refine reparent_of_not ?_
  rintro ⟨hfunction, -⟩
  exact Bool.false_ne_true (h.symm.trans hfunction)

theorem kept_reparent {i : ℤ} : KeptModule (rows.map (reparent rows)) i ↔ KeptModule rows i := by
  refine kept_map (fun r _ => reparent_id rows r) (fun r _ => reparent_isModule rows r) ?_
  intro r _
  rw [ScopeRow.moduleKey, (reparent_fields rows r).1, (reparent_fields rows r).2.2.1,
    ScopeRow.moduleKey]

theorem mem_deleteModules (h : m.isModule = true) :
    m ∈ deleteModules rows ↔ m ∈ rows ∧ KeptModule rows m.id := by
  rw [deleteModules, mem_collapse]
  exact and_congr_right fun _ => ⟨fun hkept => hkept h, fun hkept _ => hkept⟩

/-- **The modules after the repair are those that are first in their group.** -/
theorem mem_repaired_module (h : m.isModule = true) :
    m ∈ repairedScopes rows ↔ m ∈ rows ∧ KeptModule rows m.id := by
  have hfunction := ScopeRow.not_isFunction h
  rw [repairedScopes, deleteFunctions, mem_collapse_of_other hfunction, mem_deleteModules h,
    kept_reparent]
  refine and_congr_left fun _ => ?_
  rw [List.mem_map]
  constructor
  · rintro ⟨r, hr, rfl⟩
    rw [reparent_isFunction] at hfunction
    rwa [reparent_of_not_function hfunction]
  · intro hmem
    exact ⟨m, hmem, reparent_of_not_function hfunction⟩

theorem mem_moved_function (h : child.isFunction = true) :
    child ∈ deleteModules (rows.map (reparent rows)) ↔
      ∃ f ∈ rows, f.isFunction = true ∧ reparent rows f = child := by
  have hmodule : child.isModule = false := by
    by_contra hmodule
    rw [ScopeRow.not_isFunction (by simpa using hmodule)] at h
    exact Bool.false_ne_true h
  rw [deleteModules, mem_collapse_of_other hmodule, List.mem_map]
  constructor
  · rintro ⟨f, hf, rfl⟩
    exact ⟨f, hf, by rwa [reparent_isFunction] at h, rfl⟩
  · rintro ⟨f, hf, -, rfl⟩
    exact ⟨f, hf, rfl⟩

theorem exists_of_repaired_function (h : child.isFunction = true)
    (hmem : child ∈ repairedScopes rows) :
    ∃ f ∈ rows, f.isFunction = true ∧ reparent rows f = child :=
  (mem_moved_function h).mp (mem_collapse.mp hmem).1

section Parents

variable (hids : ∀ a ∈ rows, ∀ b ∈ rows, a.id = b.id → a = b)

include hids

/-- **The parent of a function after the first statement**: the first scope of the module that its
    parent is a scope of. -/
theorem exists_parent_reparent {f p : ScopeRow} (hf : f.isFunction = true) (hp : p ∈ rows)
    (hmodule : p.isModule = true) (hparent : f.parent = some p.id) :
    ∃ m ∈ rows, m.isModule = true ∧ KeptModule rows m.id ∧ m.project = p.project ∧
      m.name = p.name ∧ (reparent rows f).parent = some m.id := by
  by_cases hkept : KeptModule rows p.id
  · -- the parent stays
    have hplaced : ¬ Misplaced rows f := by
      rintro ⟨-, d, hd, -, hnot, hparent'⟩
      have hsame : d = p := hids d hd p hp (Option.some.inj (hparent'.symm.trans hparent))
      exact hnot (hsame ▸ hkept)
    rw [reparent_of_not hplaced]
    exact ⟨p, hp, hmodule, hkept, rfl, rfl, hparent⟩
  · have hmisplaced : Misplaced rows f := ⟨hf, p, hp, hmodule, hkept, hparent⟩
    -- the keepers are the scopes of the parent's module
    have hkeeper : ∀ k, k ∈ keepers rows f ↔
        k ∈ rows ∧ k.isModule = true ∧ k.moduleKey = p.moduleKey := by
      intro k
      rw [keepers, List.mem_filter, Bool.and_eq_true, List.any_eq_true]
      refine and_congr_right fun _ => and_congr_right fun _ => ?_
      rw [ScopeRow.moduleKey, ScopeRow.moduleKey, Prod.mk.injEq]
      constructor
      · rintro ⟨dup, hdup, htest⟩
        simp only [Bool.and_eq_true, decide_eq_true_eq] at htest
        have hsame : dup = p :=
          hids dup hdup p hp (Option.some.inj (htest.1.1.symm.trans hparent))
        exact ⟨hsame ▸ htest.1.2, hsame ▸ htest.2⟩
      · rintro ⟨hproject, hname⟩
        exact ⟨p, hp, by simp [hparent, hproject, hname]⟩
    cases hmin : ((keepers rows f).map ScopeRow.id).min? with
    | none =>
        rw [List.min?_eq_none_iff, List.map_eq_nil_iff] at hmin
        have hself := (hkeeper p).mpr ⟨hp, hmodule, rfl⟩
        rw [hmin] at hself
        exact absurd hself List.not_mem_nil
    | some i =>
        obtain ⟨hmem, hleast⟩ := List.min?_eq_some_iff.mp hmin
        obtain ⟨m, hm, rfl⟩ := List.mem_map.mp hmem
        obtain ⟨hrow, hkind, hkey⟩ := (hkeeper m).mp hm
        refine ⟨m, hrow, hkind, ⟨m, hrow, hkind, rfl, ?_⟩, (Prod.mk.inj hkey).1,
          (Prod.mk.inj hkey).2, ?_⟩
        · intro r hr hrkind hrkey
          exact hleast _ (List.mem_map_of_mem ((hkeeper r).mpr ⟨hr, hrkind, hrkey.trans hkey⟩))
        · rw [reparent, if_pos hmisplaced]
          exact hmin

/-- The parent that a function has after the first statement is a scope of the module that its
    parent was a scope of. -/
theorem exists_parent_of_reparent {f p : ScopeRow} (hf : f.isFunction = true) (hp : p ∈ rows)
    (hmodule : p.isModule = true) (hparent : (reparent rows f).parent = some p.id) :
    ∃ d ∈ rows, d.isModule = true ∧ d.project = p.project ∧ d.name = p.name ∧
      f.parent = some d.id := by
  by_cases hmisplaced : Misplaced rows f
  · obtain ⟨-, d, hd, hdmodule, -, hdparent⟩ := hmisplaced
    obtain ⟨m, hm, -, -, hproject, hname, hparent'⟩ :=
      exists_parent_reparent hids hf hd hdmodule hdparent
    have hsame : m = p := hids m hm p hp (Option.some.inj (hparent'.symm.trans hparent))
    exact ⟨d, hd, hdmodule, hsame ▸ hproject.symm, hsame ▸ hname.symm, hdparent⟩
  · rw [reparent_of_not hmisplaced] at hparent
    exact ⟨p, hp, hmodule, rfl, rfl, hparent⟩

end Parents

end Statements

/-! ## The whole repair -/

section Repair

variable {db : ScopeDb} {project : ℤ} {name : Str} {m f : ScopeRow} {place : FunctionPlace}

theorem ScopeDb.eq_of_id (db : ScopeDb) :
    ∀ a ∈ db.scopes, ∀ b ∈ db.scopes, a.id = b.id → a = b :=
  fun _ ha _ hb => List.inj_on_of_nodup_map db.ids ha hb

theorem ScopeDb.isModule_repair :
    db.repair.IsModule project name m ↔ db.IsModule project name m ∧ KeptModule db.scopes m.id := by
  unfold IsModule
  constructor
  · rintro ⟨hmem, hmodule, hproject, hname⟩
    obtain ⟨hrow, hkept⟩ := (mem_repaired_module hmodule).mp hmem
    exact ⟨⟨hrow, hmodule, hproject, hname⟩, hkept⟩
  · rintro ⟨⟨hrow, hmodule, hproject, hname⟩, hkept⟩
    exact ⟨(mem_repaired_module hmodule).mpr ⟨hrow, hkept⟩, hmodule, hproject, hname⟩

theorem ScopeDb.modules_repair :
    (∃ m, db.IsModule project name m) ↔ ∃ m, db.repair.IsModule project name m := by
  constructor
  · rintro ⟨m, hrow, hmodule, rfl, rfl⟩
    obtain ⟨g, hg, hgmodule, hkey, hleast⟩ :=
      exists_least ScopeRow.id ScopeRow.moduleKey hrow hmodule
    refine ⟨g, isModule_repair.mpr ⟨⟨hg, hgmodule, (Prod.mk.inj hkey).1, (Prod.mk.inj hkey).2⟩,
      g, hg, hgmodule, rfl, ?_⟩⟩
    intro r hr hrmodule hrkey
    exact hleast r hr hrmodule (hrkey.trans hkey)
  · rintro ⟨m, hm⟩
    exact ⟨m, (isModule_repair.mp hm).1⟩

/-- **A module has one scope after the repair.** -/
theorem ScopeDb.eq_of_isModule_repair {m' : ScopeRow} (hm : db.repair.IsModule project name m)
    (hm' : db.repair.IsModule project name m') : m = m' := by
  obtain ⟨⟨hrow, hmodule, hproject, hname⟩, hkept⟩ := isModule_repair.mp hm
  obtain ⟨⟨hrow', hmodule', hproject', hname'⟩, hkept'⟩ := isModule_repair.mp hm'
  refine eq_of_mem_collapse db.eq_of_id ((mem_deleteModules hmodule).mpr ⟨hrow, hkept⟩)
    ((mem_deleteModules hmodule').mpr ⟨hrow', hkept'⟩) hmodule hmodule' ?_
  rw [ScopeRow.moduleKey, ScopeRow.moduleKey, hproject, hproject', hname, hname']

theorem ScopeDb.parents_repair {f' p : ScopeRow} (hf : f ∈ db.scopes)
    (hf' : f' ∈ db.repair.scopes) (hid : f'.id = f.id) (hfunction : f.isFunction = true)
    (hp : db.IsModule project name p) (hparent : f.parent = some p.id) :
    ∃ p', db.repair.IsModule project name p' ∧ f'.parent = some p'.id := by
  have hmoved : reparent db.scopes f = f' := by
    have hmem : f' ∈ db.scopes.map (reparent db.scopes) :=
      (mem_collapse.mp (mem_collapse.mp hf').1).1
    obtain ⟨g, hg, rfl⟩ := List.mem_map.mp hmem
    rw [db.eq_of_id g hg f hf ((reparent_id _ _).symm.trans hid)]
  obtain ⟨hrow, hmodule, rfl, rfl⟩ := hp
  obtain ⟨m, hm, hmodule', hkept, hproject, hname, hmparent⟩ :=
    exists_parent_reparent db.eq_of_id hfunction hrow hmodule hparent
  exact ⟨m, isModule_repair.mpr ⟨⟨hm, hmodule', hproject, hname⟩, hkept⟩, hmoved ▸ hmparent⟩

/-- A function at a place has one at the place after the repair. -/
theorem ScopeDb.exists_isFunctionAt_repair (h : db.IsFunctionAt place f) :
    ∃ f', db.repair.IsFunctionAt place f' := by
  obtain ⟨hrow, hfunction, ⟨p, ⟨hp, hmodule, hpproject, hpname⟩, hparent⟩, hproject, hname, hstart,
    hend⟩ := h
  obtain ⟨m, hm, hmodule', hkept, hmproject, hmname, hmparent⟩ :=
    exists_parent_reparent db.eq_of_id hfunction hp hmodule hparent
  obtain ⟨hfields, -, hfname, hfstart, hfend⟩ := reparent_fields db.scopes f
  have hmoved : reparent db.scopes f ∈ deleteModules (db.scopes.map (reparent db.scopes)) :=
    (mem_moved_function (by rwa [reparent_isFunction])).mpr ⟨f, hrow, hfunction, rfl⟩
  -- the first of the functions that are the same now
  obtain ⟨g, hg, hgfunction, hkey, hleast⟩ := exists_least ScopeRow.id ScopeRow.functionKey hmoved
    (by rwa [reparent_isFunction] : (reparent db.scopes f).isFunction = true)
  have hfields' : g.project = f.project ∧ g.parent = some m.id ∧ g.name = f.name ∧
      g.startRow = f.startRow ∧ g.endRow = f.endRow := by
    simp only [ScopeRow.functionKey, Prod.mk.injEq, hfields, hfname, hfstart, hfend,
      hmparent] at hkey
    exact hkey
  obtain ⟨hgproject, hgparent, hgname, hgstart, hgend⟩ := hfields'
  refine ⟨g, mem_collapse_of_least hg hgfunction ?_, hgfunction, ⟨m, ?_, hgparent⟩,
    hgproject.trans hproject, hgname.trans hname, hgstart.trans hstart, hgend.trans hend⟩
  · intro r hr hrfunction hrkey
    exact hleast r hr hrfunction (hrkey.trans hkey)
  · exact isModule_repair.mpr
      ⟨⟨hm, hmodule', hmproject.trans hpproject, hmname.trans hpname⟩, hkept⟩

theorem ScopeDb.exists_isFunctionAt_of_repair (h : db.repair.IsFunctionAt place f) :
    ∃ f', db.IsFunctionAt place f' := by
  obtain ⟨hrow, hfunction, ⟨p, hp, hparent⟩, hproject, hname, hstart, hend⟩ := h
  obtain ⟨⟨hprow, hmodule, hpproject, hpname⟩, -⟩ := isModule_repair.mp hp
  obtain ⟨g, hg, hgfunction, rfl⟩ := exists_of_repaired_function hfunction hrow
  obtain ⟨hfields, -, hfname, hfstart, hfend⟩ := reparent_fields db.scopes g
  obtain ⟨d, hd, hdmodule, hdproject, hdname, hdparent⟩ :=
    exists_parent_of_reparent db.eq_of_id hgfunction hprow hmodule hparent
  exact ⟨g, hg, hgfunction,
    ⟨d, ⟨hd, hdmodule, hdproject.trans hpproject, hdname.trans hpname⟩, hdparent⟩,
    hfields.symm.trans hproject, hfname.symm.trans hname, hfstart.symm.trans hstart,
    hfend.symm.trans hend⟩

/-- **There is one function at a place after the repair.** -/
theorem ScopeDb.eq_of_isFunctionAt_repair {f' : ScopeRow} (h : db.repair.IsFunctionAt place f)
    (h' : db.repair.IsFunctionAt place f') : f = f' := by
  obtain ⟨hrow, hfunction, ⟨p, hp, hparent⟩, hproject, hname, hstart, hend⟩ := h
  obtain ⟨hrow', hfunction', ⟨p', hp', hparent'⟩, hproject', hname', hstart', hend'⟩ := h'
  have hsame : p = p' := eq_of_isModule_repair hp hp'
  refine db.repair.eq_of_id f hrow f' hrow' (congrArg ScopeRow.id ?_)
  have hids : ∀ a ∈ deleteModules (db.scopes.map (reparent db.scopes)),
      ∀ b ∈ deleteModules (db.scopes.map (reparent db.scopes)), a.id = b.id → a = b := by
    intro a ha b hb hid
    obtain ⟨x, hx, rfl⟩ := List.mem_map.mp (mem_collapse.mp ha).1
    obtain ⟨y, hy, rfl⟩ := List.mem_map.mp (mem_collapse.mp hb).1
    rw [reparent_id, reparent_id] at hid
    rw [db.eq_of_id x hx y hy hid]
  refine eq_of_mem_collapse hids hrow hrow' hfunction hfunction' ?_
  rw [ScopeRow.functionKey, ScopeRow.functionKey, hproject, hproject', hname, hname', hstart,
    hstart', hend, hend', hparent, hparent', hsame]

theorem ScopeDb.others_repair :
    db.repair.scopes.filter (fun s => !s.isModule && !s.isFunction) =
      db.scopes.filter fun s => !s.isModule && !s.isFunction := by
  have hother : ∀ {w : ScopeRow → Bool} {κ : Type} [DecidableEq κ] {key : ScopeRow → κ}
      {l : List ScopeRow}, (∀ s, (!s.isModule && !s.isFunction) = true → w s = false) →
      (collapse ScopeRow.id key w l).filter (fun s => !s.isModule && !s.isFunction) =
        l.filter fun s => !s.isModule && !s.isFunction := by
    intro w κ _ key l hw
    rw [collapse, List.filter_filter]
    refine List.filter_congr fun s _ => ?_
    by_cases hs : (!s.isModule && !s.isFunction) = true
    · simp [hw s hs, hs]
    · simp [hs]
  have hmap : (db.scopes.map (reparent db.scopes)).filter
      (fun s => !s.isModule && !s.isFunction) =
      db.scopes.filter fun s => !s.isModule && !s.isFunction := by
    rw [List.filter_map]
    simp only [Function.comp_def, reparent_isModule, reparent_isFunction]
    refine (List.map_congr_left ?_).trans (List.map_id _)
    intro s hs
    have htest := (List.mem_filter.mp hs).2
    rw [Bool.and_eq_true, Bool.not_eq_true', Bool.not_eq_true'] at htest
    exact reparent_of_not_function htest.2
  show (deleteFunctions (deleteModules (db.scopes.map (reparent db.scopes)))).filter _ = _
  rw [deleteFunctions, hother, deleteModules, hother, hmap]
  · intro s hs
    rw [Bool.and_eq_true, Bool.not_eq_true'] at hs
    exact hs.1
  · intro s hs
    rw [Bool.and_eq_true, Bool.not_eq_true', Bool.not_eq_true'] at hs
    exact hs.2

theorem kept_repaired {rows : List ScopeRow} (hm : m ∈ repairedScopes rows)
    (hmodule : m.isModule = true) : KeptModule (repairedScopes rows) m.id := by
  obtain ⟨hrow, g, hg, hgmodule, hrank, hleast⟩ := (mem_repaired_module hmodule).mp hm
  refine ⟨g, (mem_repaired_module hgmodule).mpr ⟨hg, g, hg, hgmodule, rfl, ?_⟩, hgmodule, hrank, ?_⟩
  · intro r hr hrmodule hkey
    exact hrank.le.trans (hleast r hr hrmodule hkey)
  · intro r hr hrmodule hkey
    exact hleast r ((mem_repaired_module hrmodule).mp hr).1 hrmodule hkey

/-- **A second run changes nothing.** -/
theorem repairedScopes_again (rows : List ScopeRow) :
    repairedScopes (repairedScopes rows) = repairedScopes rows := by
  have hplaced : (repairedScopes rows).map (reparent (repairedScopes rows)) =
      repairedScopes rows := by
    refine (List.map_congr_left ?_).trans (List.map_id _)
    intro s _
    refine reparent_of_not ?_
    rintro ⟨-, d, hd, hmodule, hnot, -⟩
    exact hnot (kept_repaired hd hmodule)
  have hmodules : deleteModules (repairedScopes rows) = repairedScopes rows := by
    rw [deleteModules, collapse, List.filter_eq_self]
    intro s hs
    cases hmodule : s.isModule with
    | false => rfl
    | true =>
        rw [decide_eq_true (kept_repaired hs hmodule)]
        rfl
  have hagain : repairedScopes (repairedScopes rows) = deleteFunctions (repairedScopes rows) := by
    rw [repairedScopes.eq_1 (repairedScopes rows), hplaced, hmodules]
  rw [hagain]
  exact collapse_idem

theorem ScopeDb.repair_again : db.repair.repair = db.repair :=
  ScopeDb.ext (repairedScopes_again db.scopes) rfl collapse_idem

end Repair

/-! ## What designates a module -/

/-- No import and no summary designates a module scope that another one precedes. -/
structure ScopeDb.NoneDangle (db : ScopeDb) : Prop where
  imports : ∀ i ∈ db.imports, ∀ d ∈ db.scopes, d.isModule = true → i.sourceScopeId = d.id →
    KeptModule db.scopes d.id
  summaries : ∀ s ∈ db.summaries, ∀ d ∈ db.scopes, d.isModule = true → s.moduleId = d.id →
    KeptModule db.scopes d.id

section Designated

variable {db : ScopeDb}

theorem ScopeDb.kept_of_designated {project : ℤ} {name : Str} {d m : ScopeRow}
    (hd : d ∈ db.scopes) (hm : db.repair.IsModule project name m) (hid : d.id = m.id) :
    KeptModule db.scopes d.id := by
  obtain ⟨⟨hrow, -⟩, hkept⟩ := isModule_repair.mp hm
  rwa [db.eq_of_id d hd m hrow hid]

theorem ScopeDb.exists_summary {s : ScopeSummary} (hs : s ∈ db.summaries) :
    ∃ s' ∈ db.repair.summaries, s' ∈ db.summaries ∧ s'.moduleId = s.moduleId := by
  obtain ⟨g, hg, hw, hkey, hleast⟩ := @exists_least ScopeSummary (ℤ × ℤ) ℤ _ _ (fun _ => true)
    db.summaries s (fun s => - s.id) (fun s => (s.project, s.moduleId)) hs rfl
  refine ⟨g, mem_collapse_of_least hg hw ?_, hg, (Prod.mk.inj hkey).2⟩
  intro r hr hwr hrkey
  exact hleast r hr hwr (hrkey.trans hkey)

theorem ScopeDb.noneDangle_of_repaired (h : ScopesRepaired ScopeDb.repair db) : db.NoneDangle where
  imports := by
    intro i hi d hd hmodule hdesignated
    obtain ⟨m, hm, hid⟩ := h.imports i hi i hi rfl d.project d.name d ⟨hd, hmodule, rfl, rfl⟩
      hdesignated
    exact kept_of_designated hd hm (hdesignated.symm.trans hid)
  summaries := by
    intro s hs d hd hmodule hdesignated
    obtain ⟨s', hs', hbefore, hsame⟩ := exists_summary hs
    have hdesignated' : s'.moduleId = d.id := hsame.trans hdesignated
    obtain ⟨m, hm, hid⟩ := h.summaries s' hbefore s' hs' rfl d.project d.name d
      ⟨hd, hmodule, rfl, rfl⟩ hdesignated'
    exact kept_of_designated hd hm (hdesignated'.symm.trans hid)

theorem ScopeDb.repaired_of_noneDangle (h : db.NoneDangle) : ScopesRepaired ScopeDb.repair db where
  modules := fun _ _ => modules_repair
  one_module := fun _ _ _ _ => eq_of_isModule_repair
  parents := fun _ hf _ hf' hid hfunction _ _ _ hp hparent =>
    parents_repair hf hf' hid hfunction hp hparent
  functions := fun _ =>
    ⟨fun ⟨_, hf⟩ => exists_isFunctionAt_repair hf, fun ⟨_, hf⟩ => exists_isFunctionAt_of_repair hf⟩
  one_function := fun _ _ _ => eq_of_isFunctionAt_repair
  imports := by
    intro i hi i' hi' hid project name m hm hdesignated
    have hsame : i' = i := List.inj_on_of_nodup_map db.importIds hi' hi hid
    have hkept := h.imports i hi m hm.1 hm.2.1 hdesignated
    exact ⟨m, isModule_repair.mpr ⟨hm, hkept⟩, hsame ▸ hdesignated⟩
  summaries := by
    intro s hs s' hs' hid project name m hm hdesignated
    have hsame : s' = s :=
      List.inj_on_of_nodup_map db.summaryIds (mem_collapse.mp hs').1 hs hid
    have hkept := h.summaries s hs m hm.1 hm.2.1 hdesignated
    exact ⟨m, isModule_repair.mpr ⟨hm, hkept⟩, hsame ▸ hdesignated⟩
  others := others_repair
  again := repair_again

end Designated

/-- **The repair keeps the meaning of the tables exactly when no import and no summary designates a
    module scope that it deletes.** -/
theorem scopes_repaired_iff (db : ScopeDb) : ScopesRepaired ScopeDb.repair db ↔ db.NoneDangle :=
  ⟨ScopeDb.noneDangle_of_repaired, ScopeDb.repaired_of_noneDangle⟩

/-- A module that was appended twice, with an import and a summary of the second scope. -/
def appendedTwice : ScopeDb where
  scopes := [⟨1, 1, some 0, 1, str "src/", some 0, some 0⟩,
    ⟨2, 1, some 0, 1, str "src/", some 0, some 0⟩]
  imports := [⟨1, 1, 2⟩]
  summaries := [⟨1, 1, 2⟩]
  ids := by decide
  importIds := by decide
  summaryIds := by decide

/-- The import and the summary are left without their module. -/
theorem repair_leaves_dangling :
    appendedTwice.repair.scopes.map ScopeRow.id = [1] ∧
      appendedTwice.repair.imports = [⟨1, 1, 2⟩] ∧ appendedTwice.repair.summaries = [⟨1, 1, 2⟩] ∧
      ¬ ScopesRepaired ScopeDb.repair appendedTwice := by
  refine ⟨by decide, rfl, by decide, ?_⟩
  intro h
  have hkept := (ScopeDb.noneDangle_of_repaired h).imports ⟨1, 1, 2⟩ (by decide)
    ⟨2, 1, some 0, 1, str "src/", some 0, some 0⟩ (by decide) rfl rfl
  exact absurd hkept (by decide)

end CodeScope.Store
