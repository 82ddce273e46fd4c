import CodeScope.Model.Plugins

/-! # What the plugins leave behind

Capabilities, contracts and workflows are inserted under a guard and never deleted; workflow steps
are deleted for the project and written again; module call edges are deleted for every project. So a
build leaves its project as a build on empty tables leaves it when everything the project had is
declared again, and the other projects as they were when no other project had a call edge. -/

namespace CodeScope.Model.Plugins

open Text Verify Store KeyedTable

/-! ## Workflows under their ids -/

section Workflows

variable {rows : List Workflow} {steps : List WorkflowStep} {project q : ℕ} {name : Str}

theorem id_lt_freshId {w : Workflow} (hw : w ∈ rows) : w.id < freshId rows := by
  rw [freshId]
  induction rows with
  | nil => exact absurd hw List.not_mem_nil
  | cons v rows ih =>
      rw [List.map_cons, List.foldr_cons]
      rcases List.mem_cons.mp hw with rfl | hw
      · omega
      · have := ih hw
        omega

theorem insertWorkflow_cases (rows : List Workflow) (project : ℕ) (name : Str) :
    (∃ w ∈ rows, w.project = project ∧ w.name = name ∧
        insertWorkflow rows project name = (rows, w.id)) ∨
      ((∀ w ∈ rows, ¬ (w.project = project ∧ w.name = name)) ∧
        insertWorkflow rows project name =
          (rows ++ [⟨freshId rows, project, name⟩], freshId rows)) := by
  cases hfind : rows.find? fun w => w.project = project && w.name = name with
  | some w =>
      have hw : w.project = project ∧ w.name = name := by simpa using List.find?_some hfind
      exact Or.inl ⟨w, List.mem_of_find?_eq_some hfind, hw.1, hw.2, by rw [insertWorkflow, hfind]⟩
  | none =>
      refine Or.inr ⟨fun w hw hboth => ?_, by rw [insertWorkflow, hfind]⟩
      have hno := List.find?_eq_none.mp hfind w hw
      exact hno (by simp [hboth.1, hboth.2])

/-- Ids and names are unique, and every step belongs to a workflow. -/
structure SoundFlows (tables : List Workflow × List WorkflowStep) : Prop where
  ids : (tables.1.map Workflow.id).Nodup
  names : (tables.1.map fun w => (w.project, w.name)).Nodup
  linked : ∀ s ∈ tables.2, s.workflowId ∈ tables.1.map Workflow.id

/-- The workflow of the project that a step names. -/
def ownerOf (rows : List Workflow) (project : ℕ) (id : ℕ) : Option Workflow :=
  rows.find? fun w => w.project = project && w.id = id

/-- The steps of the project's workflows, under the workflows' names. -/
def stepsOf (tables : List Workflow × List WorkflowStep) (project : ℕ) :
    List (Str × ℕ × Int × Str) :=
  tables.2.filterMap fun s =>
    (ownerOf tables.1 project s.workflowId).map fun w =>
      (w.name, s.stepOrder, s.entityId, s.label)

/-- The rows of the project's workflow steps. -/
def stepRows (tables : List Workflow × List WorkflowStep) (project : ℕ) : List WorkflowStep :=
  tables.2.filter fun s => (ownerOf tables.1 project s.workflowId).isSome

theorem ownerOf_self (hids : (rows.map Workflow.id).Nodup) {w : Workflow} (hw : w ∈ rows) :
    ownerOf rows w.project w.id = some w := by
  rw [ownerOf]
  cases hfind : rows.find? fun v => v.project = w.project && v.id = w.id with
  | none => exact absurd (List.find?_eq_none.mp hfind w hw) (by simp)
  | some v =>
      have hv : v.project = w.project ∧ v.id = w.id := by simpa using List.find?_some hfind
      exact congrArg some
        (List.inj_on_of_nodup_map hids (List.mem_of_find?_eq_some hfind) hw hv.2)

theorem ownerOf_other (hids : (rows.map Workflow.id).Nodup) {w : Workflow} (hw : w ∈ rows)
    (hq : q ≠ w.project) : ownerOf rows q w.id = none := by
  rw [ownerOf, List.find?_eq_none]
  intro v hv
  have hne : ¬ (v.project = q ∧ v.id = w.id) := by
    rintro ⟨hproject, hid⟩
    exact hq (List.inj_on_of_nodup_map hids hv hw hid ▸ hproject.symm)
  simpa using hne

theorem ownerOf_append {id : ℕ} (hid : id ∈ rows.map Workflow.id) (v : Workflow)
    (hfresh : v.id = freshId rows) : ownerOf (rows ++ [v]) q id = ownerOf rows q id := by
  obtain ⟨w, hw, rfl⟩ := List.mem_map.mp hid
  have hne : v.id ≠ w.id := by
    have := id_lt_freshId hw
    omega
  rw [ownerOf, ownerOf, List.find?_append]
  have hnone : ([v].find? fun u => u.project = q && u.id = w.id) = none := by
    simp [hne]
  rw [hnone, Option.or_none]

/-- The names of the project's workflows. -/
def workflowNames (rows : List Workflow) (project : ℕ) : List Str :=
  (rows.filter fun w => w.project = project).map Workflow.name

/-- What inserting a workflow does: its row `w` is there, its name is listed once, and every other row
    and every owner stays. -/
structure Inserts (rows rows' : List Workflow) (project : ℕ) (name : Str) (w : Workflow) :
    Prop where
  mem : w ∈ rows'
  ofProject : w.project = project
  named : w.name = name
  ids : (rows'.map Workflow.id).Nodup
  names : (rows'.map fun v => (v.project, v.name)).Nodup
  kept : ∀ v ∈ rows, v ∈ rows'
  owner : ∀ id ∈ rows.map Workflow.id, ∀ q, ownerOf rows' q id = ownerOf rows q id
  listed : workflowNames rows' project = insertOrIgnore [id] (workflowNames rows project) name
  others : ∀ q ≠ project, (rows'.filter fun v => v.project = q) =
    rows.filter fun v => v.project = q

theorem mem_workflowNames : name ∈ workflowNames rows project ↔
    ∃ w ∈ rows, w.project = project ∧ w.name = name := by
  simp only [workflowNames, List.mem_map, List.mem_filter, decide_eq_true_eq, and_assoc]

theorem insertWorkflow_spec (hids : (rows.map Workflow.id).Nodup)
    (hnames : (rows.map fun v => (v.project, v.name)).Nodup) (project : ℕ) (name : Str) :
    ∃ w, (insertWorkflow rows project name).2 = w.id ∧
      Inserts rows (insertWorkflow rows project name).1 project name w := by
  have hconflict : conflicts [id] (workflowNames rows project) name = true ↔
      ∃ w ∈ rows, w.project = project ∧ w.name = name := by
    rw [← mem_workflowNames]
    simp [conflicts, List.any_eq_true]
  rcases insertWorkflow_cases rows project name with ⟨w, hw, hproject, hname, heq⟩ | ⟨hno, heq⟩
  · rw [heq]
    refine ⟨w, rfl, hw, hproject, hname, hids, hnames, fun v hv => hv, fun _ _ _ => rfl, ?_,
      fun _ _ => rfl⟩
    rw [insertOrIgnore_eq, if_pos (hconflict.mpr ⟨w, hw, hproject, hname⟩)]
  · rw [heq]
    refine ⟨⟨freshId rows, project, name⟩, rfl, by simp, rfl, rfl, ?_, ?_,
      fun v hv => List.mem_append_left _ hv, ?_, ?_, ?_⟩
    · rw [List.map_append, List.nodup_append]
      refine ⟨hids, List.nodup_singleton _, ?_⟩
      intro a ha b hb hsame
      obtain ⟨v, hv, rfl⟩ := List.mem_map.mp ha
      have hfresh := id_lt_freshId hv
      rw [hsame, List.mem_singleton.mp hb] at hfresh
      exact absurd hfresh (lt_irrefl _)
    · rw [List.map_append, List.nodup_append]
      refine ⟨hnames, List.nodup_singleton _, ?_⟩
      intro a ha b hb hsame
      obtain ⟨v, hv, rfl⟩ := List.mem_map.mp ha
      rw [List.mem_singleton.mp hb] at hsame
      exact hno v hv (Prod.mk.inj hsame)
    · exact fun id hid q => ownerOf_append hid _ rfl
    · have hnew : conflicts [id] (workflowNames rows project) name ≠ true := by
        rw [ne_eq, hconflict]
        rintro ⟨w, hw, hboth⟩
        exact hno w hw hboth
      rw [insertOrIgnore_eq, if_neg hnew]
      simp [workflowNames, List.filter_append]
    · intro q hq
      rw [List.filter_append, List.filter_cons_of_neg (by simpa using hq.symm), List.filter_nil,
        List.append_nil]

end Workflows

/-! ## One turn of the workflow loop -/

section Turn

variable {tables : List Workflow × List WorkflowStep} {project q : ℕ}
  {entry : Str × List (ℕ × Int × Str)}

theorem SoundFlows.addWorkflow (h : SoundFlows tables) (project : ℕ)
    (entry : Str × List (ℕ × Int × Str)) : SoundFlows (addWorkflow project tables entry) := by
  obtain ⟨w, hid, hspec⟩ := insertWorkflow_spec h.ids h.names project entry.1
  refine ⟨hspec.ids, hspec.names, fun s hs => ?_⟩
  rcases List.mem_append.mp hs with hs | hs
  · obtain ⟨v, hv, hsame⟩ := List.mem_map.mp (h.linked s hs)
    exact List.mem_map.mpr ⟨v, hspec.kept v hv, hsame⟩
  · obtain ⟨t, _, rfl⟩ := List.mem_map.mp hs
    exact List.mem_map.mpr ⟨w, hspec.mem, hid.symm⟩

/-- The steps of the project grow by those of the entry. -/
theorem stepsOf_addWorkflow (h : SoundFlows tables) :
    stepsOf (addWorkflow project tables entry) project =
      stepsOf tables project ++ entry.2.map fun s => (entry.1, s) := by
  obtain ⟨w, hid, hspec⟩ := insertWorkflow_spec h.ids h.names project entry.1
  have hself : ownerOf (insertWorkflow tables.1 project entry.1).1 project w.id = some w := by
    have := ownerOf_self hspec.ids hspec.mem
    rwa [hspec.ofProject] at this
  rw [stepsOf, stepsOf, Plugins.addWorkflow, List.filterMap_append, hid]
  congr 1
  · refine List.filterMap_congr fun s hs => ?_
    rw [hspec.owner _ (h.linked s hs)]
  · rw [List.filterMap_map]
    refine (List.filterMap_congr (g := fun s => some (entry.1, s)) fun s _ => ?_).trans
      (congrFun List.filterMap_eq_map entry.2)
    rw [Function.comp_apply, hself, Option.map_some, hspec.named]

/-- The steps of other projects stay. -/
theorem stepRows_addWorkflow (h : SoundFlows tables) (hq : q ≠ project) :
    stepRows (addWorkflow project tables entry) q = stepRows tables q := by
  obtain ⟨w, hid, hspec⟩ := insertWorkflow_spec h.ids h.names project entry.1
  have hnone : ownerOf (insertWorkflow tables.1 project entry.1).1 q w.id = none :=
    ownerOf_other hspec.ids hspec.mem (by rw [hspec.ofProject]; exact hq)
  rw [stepRows, stepRows, Plugins.addWorkflow, List.filter_append, hid]
  have hnew : ((entry.2.map fun s => (⟨w.id, s.1, s.2.1, s.2.2⟩ : WorkflowStep)).filter fun s =>
      (ownerOf (insertWorkflow tables.1 project entry.1).1 q s.workflowId).isSome) = [] := by
    rw [List.filter_eq_nil_iff]
    intro s hs
    obtain ⟨t, _, rfl⟩ := List.mem_map.mp hs
    rw [hnone]
    exact Bool.false_ne_true
  rw [hnew, List.append_nil]
  refine List.filter_congr fun s hs => ?_
  rw [hspec.owner _ (h.linked s hs)]

end Turn

/-! ## The workflow loop -/

section Loop

variable {tables : List Workflow × List WorkflowStep} {project q : ℕ}

/-- What the loop over the entry points does to the project's workflows and to the others. -/
theorem addWorkflows_spec (h : SoundFlows tables) (project : ℕ)
    (entries : List (Str × List (ℕ × Int × Str))) :
    SoundFlows (entries.foldl (addWorkflow project) tables) ∧
      workflowNames (entries.foldl (addWorkflow project) tables).1 project =
        insertAll [id] (workflowNames tables.1 project) (entries.map (·.1)) ∧
      stepsOf (entries.foldl (addWorkflow project) tables) project =
        stepsOf tables project ++ entries.flatMap (fun e => e.2.map fun s => (e.1, s)) ∧
      ∀ q ≠ project,
        ((entries.foldl (addWorkflow project) tables).1.filter fun w => w.project = q) =
            (tables.1.filter fun w => w.project = q) ∧
          stepRows (entries.foldl (addWorkflow project) tables) q = stepRows tables q := by
  induction entries generalizing tables with
  | nil =>
      exact ⟨h, rfl, (List.append_nil _).symm, fun q _ => ⟨rfl, rfl⟩⟩
  | cons entry entries ih =>
      obtain ⟨w, _, hspec⟩ := insertWorkflow_spec h.ids h.names project entry.1
      obtain ⟨hsound, hnames, hsteps, hothers⟩ := ih (h.addWorkflow project entry)
      rw [List.foldl_cons]
      refine ⟨hsound, ?_, ?_, fun q hq => ⟨?_, ?_⟩⟩
      · rw [hnames, Plugins.addWorkflow, hspec.listed]
        rfl
      · rw [hsteps, stepsOf_addWorkflow h, List.flatMap_cons, List.append_assoc]
      · rw [(hothers q hq).1]
        exact hspec.others q hq
      · rw [(hothers q hq).2, stepRows_addWorkflow h hq]

end Loop

/-! ## A build -/

section Build

variable {t : ModelTables} {project q : ℕ}

/-- The tables' identities are unique, and their steps belong to workflows. -/
structure Sound (t : ModelTables) : Prop where
  capability : (t.capability.map CapabilityRow.identity).Nodup
  contract : (t.contract.map ContractRow.identity).Nodup
  flows : SoundFlows (t.workflow, t.workflowStep)

theorem sound_empty : Sound .empty :=
  ⟨List.nodup_nil, List.nodup_nil, List.nodup_nil, List.nodup_nil,
    fun _ hs => absurd hs List.not_mem_nil⟩

theorem clearSteps_eq (project : ℕ) (t : ModelTables) :
    clearSteps project t =
      t.workflowStep.filter fun s => !(ownerOf t.workflow project s.workflowId).isSome := by
  rw [clearSteps]
  refine List.filter_congr fun s _ => ?_
  rw [ownerOf, Bool.eq_iff_iff, Bool.not_eq_true', Bool.not_eq_true', ← Bool.not_eq_true,
    ← Bool.not_eq_true, List.any_eq_true, List.find?_isSome]

theorem Sound.cleared (h : Sound t) (project : ℕ) :
    SoundFlows (t.workflow, clearSteps project t) :=
  ⟨h.flows.ids, h.flows.names, fun s hs => h.flows.linked s (List.mem_of_mem_filter hs)⟩

theorem stepsOf_cleared (project : ℕ) (t : ModelTables) :
    stepsOf (t.workflow, clearSteps project t) project = [] := by
  rw [stepsOf, clearSteps_eq, List.filterMap_eq_nil_iff]
  intro s hs
  have hnone := (List.mem_filter.mp hs).2
  rw [Bool.not_eq_true', Option.isSome_eq_false_iff, Option.isNone_iff_eq_none] at hnone
  rw [hnone]
  rfl

theorem stepRows_cleared (h : Sound t) (hq : q ≠ project) :
    stepRows (t.workflow, clearSteps project t) q = stepRows (t.workflow, t.workflowStep) q := by
  rw [stepRows, stepRows, clearSteps_eq, List.filter_filter]
  refine List.filter_congr fun s hs => ?_
  obtain ⟨w, hw, hid⟩ := List.mem_map.mp (h.flows.linked s hs)
  by_cases hproject : w.project = project
  · have hnone := ownerOf_other (q := q) h.flows.ids hw (by rw [hproject]; exact hq)
    rw [← hid, hnone]
    rfl
  · have hnone := ownerOf_other (q := project) h.flows.ids hw (Ne.symm hproject)
    rw [← hid, hnone]
    exact Bool.and_true _

variable (b : Build)

/-- The loop over the entry points, on cleared steps. -/
theorem runAll_workflows (h : Sound t) :
    SoundFlows ((runAll b t).workflow, (runAll b t).workflowStep) ∧
      workflowNames (runAll b t).workflow b.project =
        insertAll [id] (workflowNames t.workflow b.project)
          ((workflowEntries (populateModelContext b)).map (·.1)) ∧
      stepsOf ((runAll b t).workflow, (runAll b t).workflowStep) b.project =
        (workflowEntries (populateModelContext b)).flatMap
          (fun e => e.2.map fun s => (e.1, s)) ∧
      ∀ q ≠ b.project,
        ((runAll b t).workflow.filter fun w => w.project = q) =
            (t.workflow.filter fun w => w.project = q) ∧
          stepRows ((runAll b t).workflow, (runAll b t).workflowStep) q =
            stepRows (t.workflow, t.workflowStep) q := by
  obtain ⟨hsound, hnames, hsteps, hothers⟩ := addWorkflows_spec (h.cleared b.project) b.project
    (workflowEntries (populateModelContext b))
  refine ⟨hsound, hnames, ?_, fun q hq => ⟨(hothers q hq).1, ?_⟩⟩
  · rw [stepsOf_cleared, List.nil_append] at hsteps
    exact hsteps
  · exact (hothers q hq).2.trans (stepRows_cleared h hq)

theorem Sound.runAll (h : Sound t) : Sound (runAll b t) where
  capability := by
    have hunique : Unique [CapabilityRow.identity] t.capability := unique_singleton.mpr h.capability
    exact hunique.insertAll _ _ List.mem_cons_self
  contract := by
    have hunique : Unique [ContractRow.identity] t.contract := unique_singleton.mpr h.contract
    exact hunique.insertAll _ _ List.mem_cons_self
  flows := (runAll_workflows b h).1

theorem sound_afterBuilds (history : List Build) : Sound (afterBuilds history) := by
  rw [afterBuilds]
  induction history using List.reverseRecOn with
  | nil => exact sound_empty
  | append_singleton history b ih =>
      rw [List.foldl_append]
      exact ih.runAll b

end Build

/-! ## Refreshed projects -/

section Refresh

/-- The tables hold the same rows of the project, row ids aside. -/
structure SameRows (t t' : ModelTables) (project : ℕ) : Prop where
  capability : (t.capability.filter fun r => r.project = project).Perm
    (t'.capability.filter fun r => r.project = project)
  contract : (t.contract.filter fun r => r.project = project).Perm
    (t'.contract.filter fun r => r.project = project)
  workflow : (workflowNames t.workflow project).Perm (workflowNames t'.workflow project)
  workflowStep : (stepsOf (t.workflow, t.workflowStep) project).Perm
    (stepsOf (t'.workflow, t'.workflowStep) project)
  architectureEdge : (t.architectureEdge.filter fun r => r.project = project).Perm
    (t'.architectureEdge.filter fun r => r.project = project)

/-- No row of the project has changed. -/
structure Untouched (t t' : ModelTables) (project : ℕ) : Prop where
  capability : (t'.capability.filter fun r => r.project = project) =
    t.capability.filter fun r => r.project = project
  contract : (t'.contract.filter fun r => r.project = project) =
    t.contract.filter fun r => r.project = project
  workflow : (t'.workflow.filter fun r => r.project = project) =
    t.workflow.filter fun r => r.project = project
  workflowStep : stepRows (t'.workflow, t'.workflowStep) project =
    stepRows (t.workflow, t.workflowStep) project
  architectureEdge : (t'.architectureEdge.filter fun r => r.project = project) =
    t.architectureEdge.filter fun r => r.project = project

/-- The build leaves its project as it leaves it on empty tables, and every other project as it
    was. -/
def Refreshed (before : ModelTables) (b : Build) : Prop :=
  SameRows (runAll b before) (runAll b .empty) b.project ∧
    ∀ q ≠ b.project, Untouched before (runAll b before) q

/-- What the project has is declared again, and nobody else has a call edge between modules. -/
structure Retained (before : ModelTables) (b : Build) : Prop where
  /-- a capability row is the first of its identity that the README documents declare -/
  capability : ∀ r ∈ before.capability, r.project = b.project →
    find CapabilityRow.identity (declaredCapabilities b.project (populateModelContext b))
      r.identity = some r
  /-- a contract row is the first of its identity that README documents and markers declare -/
  contract : ∀ r ∈ before.contract, r.project = b.project →
    find ContractRow.identity (declaredContracts b.project (populateModelContext b))
      r.identity = some r
  /-- a workflow has its entry point -/
  workflow : ∀ w ∈ before.workflow, w.project = b.project →
    ∃ e ∈ entryPoints (populateModelContext b), workflowName e = w.name
  architectureEdge : ∀ e ∈ before.architectureEdge, e.project = b.project

variable {b : Build} {t : ModelTables}

theorem declaredCapabilities_project (project : ℕ) (ctx : ModelContext) :
    ∀ r ∈ declaredCapabilities project ctx, r.project = project := by
  intro r hr
  obtain ⟨doc, _, hr⟩ := List.mem_flatMap.mp hr
  obtain ⟨line, _, rfl⟩ := List.mem_map.mp hr
  rfl

theorem declaredContracts_project (project : ℕ) (ctx : ModelContext) :
    ∀ r ∈ declaredContracts project ctx, r.project = project := by
  intro r hr
  rcases List.mem_append.mp hr with hr | hr
  · obtain ⟨doc, _, hr⟩ := List.mem_flatMap.mp hr
    obtain ⟨kw, _, rfl⟩ := List.mem_map.mp hr
    rfl
  · obtain ⟨e, _, rfl⟩ := List.mem_map.mp hr
    rfl

theorem crossModuleCalls_project (project : ℕ) (ctx : ModelContext) :
    ∀ e ∈ crossModuleCalls project ctx, e.project = project := by
  intro e he
  obtain ⟨edge, _, he⟩ := List.mem_flatMap.mp he
  split at he
  · obtain ⟨srcMod, _, he⟩ := List.mem_flatMap.mp he
    obtain ⟨tgtMod, _, rfl⟩ := List.mem_map.mp he
    rfl
  · exact absurd he List.not_mem_nil

theorem guarded_perm_iff {ρ κ : Type} [DecidableEq κ] {key : ρ → κ} {group : ρ → ℕ} {g : ℕ}
    {rows selected : List ρ} (hkey : ∀ r s, key r = key s → group r = group s)
    (hrows : (rows.map key).Nodup) (hselected : ∀ r ∈ selected, group r = g) :
    ((insertAll [key] rows selected).filter fun r => group r = g).Perm
        ((insertAll [key] [] selected).filter fun r => group r = g) ↔
      ∀ r ∈ rows, group r = g → find key selected (key r) = some r := by
  rw [filter_insertAll_self hkey rows hselected, filter_insertAll_self hkey [] hselected,
    List.filter_nil, insertAll_perm_fresh_iff (hrows.sublist (List.filter_sublist.map _))]
  refine forall_congr' fun r => ?_
  rw [List.mem_filter, decide_eq_true_eq, and_imp]

theorem capability_perm_iff (h : Sound t) :
    ((runAll b t).capability.filter fun r => r.project = b.project).Perm
        ((runAll b .empty).capability.filter fun r => r.project = b.project) ↔
      ∀ r ∈ t.capability, r.project = b.project →
        find CapabilityRow.identity (declaredCapabilities b.project (populateModelContext b))
          r.identity = some r :=
  guarded_perm_iff (fun _ _ heq => (Prod.mk.inj heq).1) h.capability
    (declaredCapabilities_project _ _)

theorem contract_perm_iff (h : Sound t) :
    ((runAll b t).contract.filter fun r => r.project = b.project).Perm
        ((runAll b .empty).contract.filter fun r => r.project = b.project) ↔
      ∀ r ∈ t.contract, r.project = b.project →
        find ContractRow.identity (declaredContracts b.project (populateModelContext b))
          r.identity = some r :=
  guarded_perm_iff (fun _ _ heq => (Prod.mk.inj heq).1) h.contract
    (declaredContracts_project _ _)

theorem workflow_perm_iff (h : Sound t) :
    (workflowNames (runAll b t).workflow b.project).Perm
        (workflowNames (runAll b .empty).workflow b.project) ↔
      ∀ w ∈ t.workflow, w.project = b.project →
        ∃ e ∈ entryPoints (populateModelContext b), workflowName e = w.name := by
  have hnames : ((workflowNames t.workflow b.project).map id).Nodup := by
    rw [List.map_id, workflowNames]
    refine List.Nodup.of_map (fun name => (b.project, name)) ?_
    have hmap : ((t.workflow.filter fun w => w.project = b.project).map Workflow.name).map
        (fun name => (b.project, name)) =
        (t.workflow.filter fun w => w.project = b.project).map fun w => (w.project, w.name) := by
      rw [List.map_map]
      refine List.map_congr_left fun w hw => ?_
      have hproject : w.project = b.project := by simpa using (List.mem_filter.mp hw).2
      rw [Function.comp_apply, hproject]
    rw [hmap]
    exact h.flows.names.sublist (List.filter_sublist.map _)
  rw [(runAll_workflows b h).2.1, (runAll_workflows b sound_empty).2.1]
  refine (insertAll_perm_fresh_iff hnames).trans ?_
  have hfind : ∀ name, find id ((workflowEntries (populateModelContext b)).map (·.1)) (id name) =
      some name ↔ ∃ e ∈ entryPoints (populateModelContext b), workflowName e = name := by
    intro name
    rw [id_eq, find_id_iff]
    simp only [workflowEntries, List.map_map, List.mem_map, Function.comp_apply]
  simp only [hfind, mem_workflowNames]
  constructor
  · intro hall w hw hproject
    exact hall w.name ⟨w, hw, hproject, rfl⟩
  · rintro hall name ⟨w, hw, hproject, rfl⟩
    exact hall w hw hproject

/-- The edges of other projects are deleted with the rest. -/
theorem edges_untouched_iff :
    (∀ q ≠ b.project, ((runAll b t).architectureEdge.filter fun e => e.project = q) =
        t.architectureEdge.filter fun e => e.project = q) ↔
      ∀ e ∈ t.architectureEdge, e.project = b.project := by
  have hnone : ∀ q ≠ b.project, ((runAll b t).architectureEdge.filter fun e => e.project = q) =
      [] := by
    intro q hq
    rw [List.filter_eq_nil_iff]
    intro e he hproject
    exact hq ((of_decide_eq_true hproject).symm.trans (crossModuleCalls_project _ _ e he))
  constructor
  · intro hall e he
    by_contra hne
    have hmem : e ∈ t.architectureEdge.filter fun r => r.project = e.project :=
      List.mem_filter.mpr ⟨he, decide_eq_true rfl⟩
    rw [← hall e.project hne, hnone e.project hne] at hmem
    exact absurd hmem List.not_mem_nil
  · intro hall q hq
    rw [hnone q hq, eq_comm, List.filter_eq_nil_iff]
    intro e he hproject
    exact hq ((of_decide_eq_true hproject).symm.trans (hall e he))

theorem refreshed_iff (h : Sound t) : Refreshed t b ↔ Retained t b := by
  constructor
  · rintro ⟨hsame, hothers⟩
    exact ⟨(capability_perm_iff h).mp hsame.capability, (contract_perm_iff h).mp hsame.contract,
      (workflow_perm_iff h).mp hsame.workflow,
      edges_untouched_iff.mp fun q hq => (hothers q hq).architectureEdge⟩
  · intro hretained
    refine ⟨⟨(capability_perm_iff h).mpr hretained.capability,
      (contract_perm_iff h).mpr hretained.contract, (workflow_perm_iff h).mpr hretained.workflow,
      ?_, .refl _⟩, fun q hq => ⟨?_, ?_, ?_, ?_, ?_⟩⟩
    · rw [(runAll_workflows b h).2.2.1, (runAll_workflows b sound_empty).2.2.1]
    · exact filter_insertAll_other _ (declaredCapabilities_project _ _) hq
    · exact filter_insertAll_other _ (declaredContracts_project _ _) hq
    · exact ((runAll_workflows b h).2.2.2 q hq).1
    · exact ((runAll_workflows b h).2.2.2 q hq).2
    · exact edges_untouched_iff.mpr hretained.architectureEdge q hq

/-- **After any sequence of builds, a build leaves its project as it leaves it on empty tables and
    the other projects alone exactly when all that the project had is declared again and no other
    project had a call edge between modules.** -/
theorem plugins_refresh_iff (history : List Build) (b : Build) :
    Refreshed (afterBuilds history) b ↔ Retained (afterBuilds history) b :=
  refreshed_iff (sound_afterBuilds history)

end Refresh

/-! ## What is lost and what stays -/

section Examples

/-- A function of a project with the module directories `api` and `db`. -/
def function (id : Int) (name : String) (filePath : String) : EntityRow where
  id
  project := 1
  kind := 0
  name := str name
  qualifiedName := str name
  filePath := str filePath
  language := str "go"
  startRow := 0
  startCol := 0
  endRow := 4
  endCol := 1
  modulePath := []
  visibility := 1
  arity := 0

/-- Project 1: `get` in `api` calls `load` in `db`. -/
def callingFacts : Facts where
  entity := ⟨[function 1 "get" "api/get.go", function 2 "load" "db/load.go"], by decide⟩
  relation := [⟨1, 1, 1, 2, 1⟩]
  scope := [⟨1, 1, 1, str "api"⟩, ⟨2, 1, 1, str "db"⟩]
  capability := []
  contract := []
  architectureEdge := []
  relationIds := List.nodup_singleton _
  scopeIds := by decide

/-- Project 1 with the README line `Supports fast lookup`, then without, then project 2. -/
def withReadme : Build := ⟨callingFacts, [⟨1, 0, str "README.md", str "Supports fast lookup\n"⟩], 1⟩
def withoutReadme : Build := ⟨callingFacts, [], 1⟩
def secondProject : Build := ⟨callingFacts, [], 2⟩

/-- Building project 2 deletes the call edge of project 1; and the capability of a README line that is
    gone stays. -/
theorem refresh_fails :
    ¬ Refreshed (afterBuilds [withReadme]) secondProject ∧
      ¬ Refreshed (afterBuilds [withReadme]) withoutReadme := by
  constructor
  · rintro ⟨_, hothers⟩
    have hedges := congrArg List.length (hothers 1 (by decide)).architectureEdge
    revert hedges
    decide +kernel
  · rintro ⟨hsame, _⟩
    have hcapabilities := hsame.capability.length_eq
    revert hcapabilities
    decide +kernel

end Examples

end CodeScope.Model.Plugins
