import CodeScope.Store.IncrementalGraph

/-! # The scopes of imports over rebuilds

Each rebuild sets the scope of every import of the project. It looks for the record whose `rowid` is
the id of the import, and an import's id is no such `rowid`: imports have ids of their own, several
for one record or none. So an import is in the scope of its own file only where the two happen to
agree (`ImportFits`). -/

namespace CodeScope.Store

open Text (Str str)

/-! ## Calls of a rebuild -/

/-- What one call of `buildGraph` is given. -/
structure RebuildCall where
  records : RecordTable
  changed : Option (List Str)
  includeTestFiles : Bool

section Calls

variable (project : ℕ) {α : Type} [LinearOrder α] [OrderBot α]
  (score : EntityRow → ReferenceRow → EntityRow → α)

def GraphTables.call (t : GraphTables) (c : RebuildCall) : GraphTables :=
  t.rebuild project c.includeTestFiles c.records score c.changed

/-- The tables after a sequence of calls. -/
def GraphTables.calls (t : GraphTables) (cs : List RebuildCall) : GraphTables :=
  cs.foldl (GraphTables.call project score) t

end Calls

section Fits

variable (project : ℕ) (c : RebuildCall) (t : GraphTables)

/-- The files that a call rebuilds. -/
def RebuildCall.files : List Str := rebuildFiles project c.changed c.records.records

/-- The files with entities after a call: those that are not rebuilt and had some, and those of the
    records that are rebuilt as entities. -/
def RebuildCall.entityFiles : List Str :=
  (((t.projectEntities project).map (·.filePath)).filter fun f => f = [] ∨ f ∉ c.files project) ++
    ((declaredRecords project c.includeTestFiles c.records).filter fun row =>
      row.filePath ∈ c.files project).map (·.filePath)

/-- The imports a call leaves, with their ids: those of files that are not rebuilt, and those it
    reads off the records and numbers. -/
def RebuildCall.imports : List (ℕ × PathRec) :=
  nextImports project c.includeTestFiles c.changed c.records
    (t.imports.map fun row => (row.id, row.path)) t.importSeq

/-- A directory has entities. -/
def RebuildCall.HasModule (directory : Str) : Prop :=
  directory ≠ [] ∧ ∃ f ∈ c.entityFiles project t, modulePathOf f = directory

/-- The record with an id as its `rowid` lies in a file with entities, in this directory. -/
def RebuildCall.LeadsTo (id : ℕ) (directory : Str) : Prop :=
  ∃ s ∈ c.records.rows, s.rowid = id ∧ s.row.project = project ∧
    s.row.filePath ∈ c.entityFiles project t ∧ modulePathOf s.row.filePath = directory ∧
    directory ≠ []

/-- The record with the id of an import leads to the import's own directory; or it leads nowhere,
    and that directory has no entities. -/
def RebuildCall.ImportFits (p : ℕ × PathRec) : Prop :=
  c.LeadsTo project t p.1 (modulePathOf p.2.file) ∨
    ((∀ directory, ¬ c.LeadsTo project t p.1 directory) ∧
      ¬ c.HasModule project t (modulePathOf p.2.file))

end Fits

/-- Every import is in the module scope of its own file's directory, or in none without one. -/
def GraphTables.ImportsPlaced (t : GraphTables) : Prop :=
  ∀ row ∈ t.imports, row.sourceScopeId = t.moduleId (modulePathOf row.path.file)

/-! ## Scopes and directories -/

section Modules

variable {project : ℕ} {t : GraphTables} {ids : NodeIds}

theorem moduleId_pos (hfit : t.ModulesFit ids) {name : Str} (hnamed : name ≠ [])
    (hmodule : ∃ p ∈ ids, modulePathOf p.1.filePath = name) : 0 < t.moduleId name := by
  obtain ⟨m, hm, rfl⟩ := List.mem_map.mp ((hfit.modules name).mpr ⟨hnamed, hmodule⟩)
  rw [moduleId_of_mem hfit.names hm]
  exact (hfit.bounds m hm).1

theorem moduleId_eq_zero (hfit : t.ModulesFit ids) {name : Str}
    (hnone : ¬ (name ≠ [] ∧ ∃ p ∈ ids, modulePathOf p.1.filePath = name)) :
    t.moduleId name = 0 := by
  rw [← hfit.modules] at hnone
  have hfind : KeyedTable.find ModuleScope.name t.modules name = none := by
    rw [KeyedTable.find, List.find?_eq_none]
    intro m hm heq
    exact hnone (of_decide_eq_true heq ▸ List.mem_map_of_mem hm)
  rw [GraphTables.moduleId, hfind]
  rfl

theorem moduleId_inj (hfit : t.ModulesFit ids) {name name' : Str} (hpos : 0 < t.moduleId name)
    (heq : t.moduleId name = t.moduleId name') : name = name' := by
  have hmem : ∀ n : Str, 0 < t.moduleId n → ∃ m ∈ t.modules, m.name = n ∧ t.moduleId n = m.id := by
    intro n hn
    by_contra hnone
    have hzero : t.moduleId n = 0 := moduleId_eq_zero hfit fun h => by
      obtain ⟨m, hm, rfl⟩ := List.mem_map.mp ((hfit.modules n).mpr h)
      exact hnone ⟨m, hm, rfl, moduleId_of_mem hfit.names hm⟩
    omega
  obtain ⟨m, hm, rfl, hid⟩ := hmem name hpos
  obtain ⟨m', hm', rfl, hid'⟩ := hmem name' (heq ▸ hpos)
  rw [List.inj_on_of_nodup_map hfit.scopeIds hm hm' (hid.symm.trans (heq.trans hid'))]

end Modules

section Steps

variable {project : ℕ} {α : Type} [LinearOrder α] [OrderBot α]
  {score : EntityRow → ReferenceRow → EntityRow → α} {t : GraphTables} {ids : NodeIds}
  {c : RebuildCall}

/-- What every sequence of calls keeps: entities come from records, and modules from entities. -/
structure GraphTables.Sound (t : GraphTables) (project : ℕ) (ids : NodeIds) : Prop where
  entities : t.projectEntities project = ids.map .ofRecord
  modulesFit : t.ModulesFit ids

/-- The ids after a call. -/
def RebuildCall.nextIds (project : ℕ) (c : RebuildCall) (t : GraphTables) (ids : NodeIds) :
    NodeIds :=
  Store.nextIds project c.includeTestFiles c.changed c.records ids t.entities

theorem GraphTables.Sound.call (h : t.Sound project ids) (c : RebuildCall) :
    (t.call project score c).Sound project (c.nextIds project t ids) :=
  ⟨projectEntities_rebuild _ _ _ _ h.entities, modulesFit_rebuild h.entities h.modulesFit⟩

theorem sound_of_isEmpty (h : t.IsEmpty project) : t.Sound project [] := by
  refine ⟨h.entities, ?_⟩
  refine ⟨?_, ?_, ?_, ?_⟩ <;> simp [h.modules]

theorem GraphTables.Sound.calls (h : t.Sound project ids) (cs : List RebuildCall) :
    ∃ ids', (t.calls project score cs).Sound project ids' := by
  induction cs generalizing t ids with
  | nil => exact ⟨ids, h⟩
  | cons c cs ih => exact ih (h.call c)

/-- The files of the entities after a call. -/
theorem mem_entityFiles (h : t.Sound project ids) {f : Str} :
    f ∈ c.entityFiles project t ↔ ∃ p ∈ c.nextIds project t ids, p.1.filePath = f := by
  have hkept : f ∈ ((t.projectEntities project).map (·.filePath)).filter
      (fun f => f = [] ∨ f ∉ c.files project) ↔
      ∃ p ∈ keptIds project c.changed c.records ids, p.1.filePath = f := by
    rw [h.entities, List.map_map, List.mem_filter, decide_eq_true_iff]
    simp only [keptIds, List.mem_map, List.mem_filter, decide_eq_true_iff]
    constructor
    · rintro ⟨⟨p, hp, rfl⟩, hfile⟩
      exact ⟨p, ⟨hp, hfile⟩, rfl⟩
    · rintro ⟨p, ⟨hp, hfile⟩, rfl⟩
      exact ⟨⟨p, hp, rfl⟩, hfile⟩
  have hnew : f ∈ ((declaredRecords project c.includeTestFiles c.records).filter fun row =>
        row.filePath ∈ c.files project).map (·.filePath) ↔
      ∃ p ∈ newIds project c.includeTestFiles c.changed c.records t.entities,
        p.1.filePath = f := by
    have hrecords : ((newIds project c.includeTestFiles c.changed c.records t.entities).map
        (·.1)).Perm ((declaredRecords project c.includeTestFiles c.records).filter fun row =>
          row.filePath ∈ c.files project) := by
      refine newIds_records.trans (List.Perm.of_eq (List.filter_congr fun row hrow => ?_))
      rw [Bool.eq_iff_iff, decide_eq_true_iff]
      exact (mem_rebuildFiles_of_record (List.mem_of_mem_filter hrow)).symm
    rw [← (hrecords.map (·.filePath)).mem_iff]
    simp [List.mem_map]
  rw [RebuildCall.entityFiles, List.mem_append, hkept, hnew, RebuildCall.nextIds, Store.nextIds]
  simp only [List.mem_append, or_and_right, exists_or]

theorem hasModule_iff (h : t.Sound project ids) {directory : Str} :
    c.HasModule project t directory ↔
      directory ≠ [] ∧ ∃ p ∈ c.nextIds project t ids, modulePathOf p.1.filePath = directory := by
  unfold RebuildCall.HasModule
  refine and_congr_right fun _ => ?_
  simp only [mem_entityFiles h]
  constructor
  · rintro ⟨f, ⟨p, hp, rfl⟩, hdir⟩
    exact ⟨p, hp, hdir⟩
  · rintro ⟨p, hp, hdir⟩
    exact ⟨_, ⟨p, hp, rfl⟩, hdir⟩

/-- The scope that a call finds for the id of an import. -/
theorem scopeOfImport_call (h : t.Sound project ids) (id : ℕ) :
    (∃ directory, c.LeadsTo project t id directory ∧
      (t.call project score c).scopeOfImport project c.records id =
        some ((t.call project score c).moduleId directory)) ∨
    ((∀ directory, ¬ c.LeadsTo project t id directory) ∧
      (t.call project score c).scopeOfImport project c.records id = none) := by
  have hsound : (t.call project score c).Sound project (c.nextIds project t ids) := h.call c
  have hfiles : ∀ f : Str, f ∈ ((c.nextIds project t ids).map (·.1)).map (·.filePath) ↔
      f ∈ c.entityFiles project t := by
    intro f
    rw [mem_entityFiles h]
    simp
  rw [GraphTables.scopeOfImport]
  cases hfind : c.records.rows.find? fun s => s.rowid = id ∧ s.row.project = project with
  | none =>
      refine Or.inr ⟨?_, rfl⟩
      rintro directory ⟨s, hs, hid, hproject, -⟩
      rw [find_record_eq_some.mpr ⟨hs, hid, hproject⟩] at hfind
      cases hfind
  | some s =>
      obtain ⟨hs, hid, hproject⟩ := find_record_eq_some.mp hfind
      rw [Option.bind_some, findModule_of_ids hsound.entities hsound.modulesFit]
      split_ifs with hplace
      · obtain ⟨hnamed, hfile⟩ := hplace
        refine Or.inl ⟨_, ⟨s, hs, hid, hproject, (hfiles _).mp hfile, rfl, hnamed⟩, rfl⟩
      · refine Or.inr ⟨?_, rfl⟩
        rintro directory ⟨s', hs', hid', hproject', hfile, rfl, hnamed⟩
        obtain rfl : s' = s :=
          List.inj_on_of_nodup_map c.records.rowids hs' hs (hid'.trans hid.symm)
        exact hplace ⟨hnamed, (hfiles _).mpr hfile⟩

theorem RebuildCall.LeadsTo.hasModule {id : ℕ} {directory : Str}
    (h : c.LeadsTo project t id directory) : c.HasModule project t directory := by
  obtain ⟨s, -, -, -, hfile, hdir, hnamed⟩ := h
  exact ⟨hnamed, _, hfile, hdir⟩

/-- One import is in the scope of its own file exactly when it fits. -/
theorem importFits_iff (h : t.Sound project ids) (p : ℕ × PathRec) :
    ((t.call project score c).scopeOfImport project c.records p.1).getD 0 =
        (t.call project score c).moduleId (modulePathOf p.2.file) ↔
      c.ImportFits project t p := by
  have hsound : (t.call project score c).Sound project (c.nextIds project t ids) := h.call c
  have hfit := hsound.modulesFit
  have hscopes := @scopeOfImport_call project _ _ _ score t ids c h p.1
  rcases hscopes with ⟨directory, hleads, hscope⟩ | ⟨hnone, hscope⟩
  · obtain ⟨hnamed, hmodule⟩ := (hasModule_iff h).mp hleads.hasModule
    have hpos := moduleId_pos hfit hnamed hmodule
    rw [hscope, Option.getD_some]
    constructor
    · intro heq
      exact Or.inl (moduleId_inj hfit hpos heq ▸ hleads)
    · rintro (hown | ⟨hnone, -⟩)
      · -- the id leads to one directory only
        obtain ⟨s, hs, hid, -, -, rfl, -⟩ := hleads
        obtain ⟨s', hs', hid', -, -, hdir, -⟩ := hown
        obtain rfl : s' = s :=
          List.inj_on_of_nodup_map c.records.rowids hs' hs (hid'.trans hid.symm)
        rw [hdir]
      · exact absurd hleads (hnone directory)
  · rw [hscope, Option.getD_none]
    constructor
    · intro heq
      refine Or.inr ⟨hnone, fun hmodule => ?_⟩
      obtain ⟨hnamed, hentity⟩ := (hasModule_iff h).mp hmodule
      have hpos := moduleId_pos hfit hnamed hentity
      omega
    · rintro (hown | ⟨-, hmodule⟩)
      · exact absurd hown (hnone _)
      · rw [hasModule_iff h] at hmodule
        exact (moduleId_eq_zero hfit hmodule).symm

/-- **A call that rebuilds files** places the imports exactly when each of them fits. -/
theorem importsPlaced_call_iff (h : t.Sound project ids) (hfiles : c.files project ≠ []) :
    (t.call project score c).ImportsPlaced ↔
      ∀ p ∈ c.imports project t, c.ImportFits project t p := by
  have hrows : (t.call project score c).imports = (c.imports project t).map fun p =>
      .mk p.1 (((t.call project score c).scopeOfImport project c.records p.1).getD 0) p.2 := by
    rw [GraphTables.call, importRows_rebuild hfiles, RebuildCall.imports, nextImports,
      List.map_append, List.map_append, List.map_map, clear_imports, List.filter_map, List.map_map]
    rfl
  rw [GraphTables.ImportsPlaced, hrows, List.forall_mem_map]
  exact forall₂_congr fun p _ => importFits_iff h p

theorem call_of_nil (hnone : c.files project = []) : t.call project score c = t :=
  rebuild_of_nil hnone

end Steps

/-! ## Runs -/

section Runs

variable (project : ℕ) {α : Type} [LinearOrder α] [OrderBot α]
  (score : EntityRow → ReferenceRow → EntityRow → α) (start : GraphTables)

/-- The last call of a run that has files to rebuild leaves imports that fit only. -/
def ImportRunFits (cs : List RebuildCall) : Prop :=
  ∀ before c after, cs = before ++ c :: after → c.files project ≠ [] →
    (∀ later ∈ after, later.files project = []) →
    ∀ p ∈ c.imports project (start.calls project score before),
      c.ImportFits project (start.calls project score before) p

theorem importRunFits_nil : ImportRunFits project score start [] := by
  intro before c after heq
  simp at heq

/-- A call with nothing to rebuild is passed over. -/
theorem importRunFits_snoc_of_nil {cs : List RebuildCall} {c : RebuildCall}
    (hnone : c.files project = []) :
    ImportRunFits project score start (cs ++ [c]) ↔ ImportRunFits project score start cs := by
  constructor
  · intro h before c' after heq hfiles hafter
    refine h before c' (after ++ [c]) (by rw [heq]; simp) hfiles fun later hlater => ?_
    rcases List.mem_append.mp hlater with hmem | hlast
    · exact hafter later hmem
    · rw [List.mem_singleton.mp hlast]
      exact hnone
  · intro h before c' after heq hfiles hafter
    rcases List.eq_nil_or_concat after with rfl | ⟨after', last, rfl⟩
    · obtain ⟨-, hlast⟩ := List.append_inj' heq rfl
      obtain rfl : c = c' := by simpa using hlast
      exact absurd hnone hfiles
    · have hsplit : before ++ c' :: after'.concat last = (before ++ c' :: after') ++ [last] := by
        simp
      rw [hsplit] at heq
      obtain ⟨hcs, -⟩ := List.append_inj' heq rfl
      refine h before c' after' hcs hfiles fun later hlater => hafter later ?_
      simp [hlater]

/-- A call that rebuilds files is the one that counts. -/
theorem importRunFits_snoc_of_cons {cs : List RebuildCall} {c : RebuildCall}
    (hfiles : c.files project ≠ []) :
    ImportRunFits project score start (cs ++ [c]) ↔
      ∀ p ∈ c.imports project (start.calls project score cs),
        c.ImportFits project (start.calls project score cs) p := by
  constructor
  · intro h
    exact h cs c [] rfl hfiles fun later hlater => absurd hlater List.not_mem_nil
  · intro h before c' after heq _ hafter
    rcases List.eq_nil_or_concat after with rfl | ⟨after', last, rfl⟩
    · obtain ⟨rfl, hlast⟩ := List.append_inj' heq rfl
      obtain rfl : c = c' := by simpa using hlast
      exact h
    · have hsplit : before ++ c' :: after'.concat last = (before ++ c' :: after') ++ [last] := by
        simp
      rw [hsplit] at heq
      obtain ⟨-, hlast⟩ := List.append_inj' heq rfl
      obtain rfl : c = last := by simpa using hlast
      exact absurd (hafter c (by simp)) hfiles

/-- **Imports are in the scopes of their own files exactly when they fit**: after any sequence of
    rebuilds from empty tables, each over its own records, with what is left of the earlier ones. -/
theorem imports_placed_iff (hstart : start.IsEmpty project) (cs : List RebuildCall) :
    (start.calls project score cs).ImportsPlaced ↔ ImportRunFits project score start cs := by
  induction cs using List.reverseRecOn with
  | nil =>
      refine iff_of_true (fun row hrow => ?_) (importRunFits_nil project score start)
      rw [GraphTables.calls, List.foldl_nil, hstart.imports] at hrow
      exact absurd hrow List.not_mem_nil
  | append_singleton cs c ih =>
      have hcalls : start.calls project score (cs ++ [c]) =
          (start.calls project score cs).call project score c := by
        rw [GraphTables.calls, List.foldl_append]
        rfl
      by_cases hnone : c.files project = []
      · rw [hcalls, call_of_nil hnone, importRunFits_snoc_of_nil project score start hnone]
        exact ih
      · obtain ⟨ids, hsound⟩ : ∃ ids, (start.calls project score cs).Sound project ids :=
          (sound_of_isEmpty hstart).calls cs
        rw [hcalls, importRunFits_snoc_of_cons project score start hnone]
        exact importsPlaced_call_iff hsound hnone

end Runs

/-- A function in each of two directories, and an import in the second one. -/
def twoDirectories : RebuildCall where
  records := ⟨[⟨1, 1, str "a/x.c", functionRecord (str "f") 0⟩,
    ⟨2, 1, str "b/y.c", functionRecord (str "g") 0⟩,
    ⟨3, 1, str "b/y.c",
      { functionRecord [] 2 with kind := .import, name := ['"', 'z', '.', 'h', '"'] }⟩], by decide⟩
  changed := none
  includeTestFiles := false

/-- The import with id 1 gets the scope of the record with `rowid` 1, which is in the other
    directory. -/
theorem import_in_foreign_scope :
    ¬ (noTables.calls 1 (fun _ _ _ => (0 : ℕ)) [twoDirectories]).ImportsPlaced := by
  intro hplaced
  have hfits := (importsPlaced_call_iff (sound_of_isEmpty (noTables_isEmpty 1))
    (by decide : twoDirectories.files 1 ≠ [])).mp hplaced
  have himport : (1, (⟨str "z.h", str "z.h", str "b/y.c"⟩ : PathRec)) ∈
      twoDirectories.imports 1 noTables := by decide
  rcases hfits _ himport with ⟨s, hs, hid, -, -, hdirectory, -⟩ | ⟨hnone, -⟩
  · have hfirst : ∀ s ∈ twoDirectories.records.rows, s.rowid = 1 →
        modulePathOf s.row.filePath ≠ modulePathOf (str "b/y.c") := by decide
    exact hfirst s hs hid hdirectory
  · exact hnone (str "a/") ⟨_, List.mem_cons_self, rfl, rfl, by decide, by decide, by decide⟩

/-- One file whose first record has the id of its import. -/
theorem imports_placed_iff_oneFile :
    let c : RebuildCall := ⟨⟨[⟨1, 1, str "a/x.c", functionRecord (str "f") 0⟩,
      ⟨2, 1, str "a/x.c",
        { functionRecord [] 2 with kind := .import, name := ['"', 'z', '.', 'h', '"'] }⟩],
      by decide⟩, none, false⟩
    (noTables.calls 1 (fun _ _ _ => (0 : ℕ)) [c]).ImportsPlaced := by
  intro c
  refine (imports_placed_iff 1 (fun _ _ _ => 0) noTables (noTables_isEmpty 1) [c]).mpr ?_
  refine (@importRunFits_snoc_of_cons 1 _ _ _ _ noTables [] c (by decide)).mpr fun p hp => ?_
  have huse : usePaths ['"', 'z', '.', 'h', '"'] = [] := by
    rw [usePaths]
    rfl
  have hfrom : fromPaths ['"', 'z', '.', 'h', '"'] = [] := by
    rw [fromPaths]
    rfl
  have hpaths : importPaths 1 false none c.records =
      pathRecs ['"', 'z', '.', 'h', '"'] (str "a/x.c") ++ [] := by rfl
  have himports : c.imports 1 noTables = [(1, ⟨str "z.h", str "z.h", str "a/x.c"⟩)] := by
    have hkept : c.imports 1 noTables =
        numberImports 0 (importPaths 1 false none c.records) := rfl
    rw [hkept, hpaths, pathRecs, huse, hfrom]
    rfl
  have hp' : p ∈ c.imports 1 noTables := hp
  rw [himports, List.mem_singleton] at hp'
  subst hp'
  exact Or.inl ⟨_, List.mem_cons_self, rfl, rfl, by decide, rfl, by decide⟩

end CodeScope.Store
