import CodeScope.Model.StateBuilder

/-! # What a sequence of builds leaves behind

Every build that completes leaves the capability, workflow and module-pair rows of its project as a
build on empty tables leaves them. The module rows are only replaced: those of modules that no
longer qualify stay. -/

namespace CodeScope.Model

open Text Verify Store KeyedTable Connection

variable {ρ : Type} (R : Reals ρ) (plan : Plan ρ)

/-! ## Builds that complete -/

namespace Build

variable (b : Build)

/-- No call of the loop over `names` fails for good. -/
def LoopCompletes (names : List Str) : Prop :=
  ∀ i < names.length, b.faults.implementing i ≠ some .prepare ∧ b.faults.capabilityRow i = false

/-- Nothing fails that `buildAll` looks at. -/
structure Completes : Prop where
  begins : b.faults.begin_ = false
  modulesInserted : b.faults.moduleInsert = false
  capabilitiesDeleted : b.faults.capabilityDelete = false
  capabilitiesPrepared : b.faults.capabilityInsert = false
  names : ∃ names, collect b.faults.capabilityNames (declaredNames b.db b.project) = some names ∧
    b.LoopCompletes names
  workflowsDeleted : b.faults.workflowDelete = false
  workflowsInserted : b.faults.workflowInsert = false
  architectureDeleted : b.faults.architectureDelete = false
  architectureInserted : b.faults.architectureInsert = false
  commits : b.faults.commit = false

/-- The same build with nothing failing. -/
def clean : Build := { b with faults := .clean }

theorem clean_completes : b.clean.Completes where
  begins := rfl
  modulesInserted := rfl
  capabilitiesDeleted := rfl
  capabilitiesPrepared := rfl
  names := ⟨_, rfl, fun _ _ => ⟨nofun, rfl⟩⟩
  workflowsDeleted := rfl
  workflowsInserted := rfl
  architectureDeleted := rfl
  architectureInserted := rfl
  commits := rfl

/-- No query of the loop, from the `i`-th on, loses all of its rows to a failing step. -/
def Heard : ℕ → List Str → Prop
  | _, [] => True
  | i, name :: rest =>
      ¬ Silenced (b.faults.implementing i) (implementing b.db b.project name) ∧ Heard (i + 1) rest

/-- The row of a capability when its query is read to the end. -/
def trueRow (name : Str) : CapabilityState :=
  capabilityRow b name (implementing b.db b.project name)

end Build

/-! ## The loop over the capabilities -/

section CapabilityLoop

variable (b : Build) {rows : List CapabilityState} {names : List Str} {i : ℕ}

/-- What the loop does for one name. -/
theorem capabilityLoop_cons {name : Str}
    (h : capabilityLoop plan b i (name :: names) = some rows) :
    ∃ ids rest, implementingEntitiesFor b.db b.project name plan.entities
        (b.faults.implementing i) = some ids ∧
      b.faults.capabilityRow i = false ∧ capabilityLoop plan b (i + 1) names = some rest ∧
      rows = capabilityRow b name ids :: rest := by
  rw [capabilityLoop] at h
  split at h
  · exact absurd h (by simp)
  · rename_i ids hids
    split at h
    · exact absurd h (by simp)
    · rename_i hrow
      obtain ⟨rest, hrest, hrows⟩ := Option.map_eq_some_iff.mp h
      exact ⟨ids, rest, hids, by simpa using hrow, hrest, hrows.symm⟩

theorem capabilityLoop_isSome_iff :
    (capabilityLoop plan b i names).isSome ↔
      ∀ j < names.length, b.faults.implementing (i + j) ≠ some .prepare ∧
        b.faults.capabilityRow (i + j) = false := by
  induction names generalizing i with
  | nil => simp [capabilityLoop]
  | cons name names ih =>
      have hprepare : implementingEntitiesFor b.db b.project name plan.entities
          (b.faults.implementing i) = none ↔ b.faults.implementing i = some .prepare := by
        rw [implementingEntitiesFor]
        rcases b.faults.implementing i with _ | _ | k <;> simp [collect]
      have hlater : (∀ j < (name :: names).length, b.faults.implementing (i + j) ≠ some .prepare ∧
          b.faults.capabilityRow (i + j) = false) ↔
          (b.faults.implementing i ≠ some .prepare ∧ b.faults.capabilityRow i = false) ∧
          ∀ j < names.length, b.faults.implementing (i + 1 + j) ≠ some .prepare ∧
            b.faults.capabilityRow (i + 1 + j) = false := by
        constructor
        · intro h
          refine ⟨by simpa using h 0 (by simp), fun j hj => ?_⟩
          have hj' := h (j + 1) (by simpa using hj)
          rwa [show i + (j + 1) = i + 1 + j by omega] at hj'
        · rintro ⟨hnow, hlater⟩ j hj
          cases j with
          | zero => simpa using hnow
          | succ j =>
              rw [show i + (j + 1) = i + 1 + j by omega]
              exact hlater j (by simpa using hj)
      rw [hlater, ← ih, capabilityLoop]
      split
      · rename_i hnone
        simp [hprepare.mp hnone]
      · rename_i ids hids
        have hne : b.faults.implementing i ≠ some .prepare := by
          intro heq
          rw [hprepare.mpr heq] at hids
          exact absurd hids (by simp)
        cases hrow : b.faults.capabilityRow i with
        | true => simp
        | false => simp [hne]

theorem capabilityRow_project {name : Str} {ids : List Int} :
    (capabilityRow b name ids).project = b.project := rfl

theorem capabilityLoop_project (h : capabilityLoop plan b i names = some rows) :
    ∀ r ∈ rows, r.project = b.project := by
  induction names generalizing i rows with
  | nil =>
      obtain rfl : [] = rows := Option.some.inj h
      simp
  | cons name names ih =>
      obtain ⟨ids, rest, -, -, hrest, rfl⟩ := capabilityLoop_cons plan b h
      rw [List.forall_mem_cons]
      exact ⟨capabilityRow_project b, ih hrest⟩

theorem capabilityLoop_length (h : capabilityLoop plan b i names = some rows) :
    rows.length = names.length := by
  induction names generalizing i rows with
  | nil =>
      obtain rfl : [] = rows := Option.some.inj h
      rfl
  | cons name names ih =>
      obtain ⟨ids, rest, -, -, hrest, rfl⟩ := capabilityLoop_cons plan b h
      rw [List.length_cons, ih hrest, List.length_cons]

/-- A row is the one of the complete query, unless the query lost all of its rows. -/
theorem capabilityRow_found {name : Str} {ids : List Int} {fault : Option Failure}
    (h : implementingEntitiesFor b.db b.project name plan.entities fault = some ids) :
    capabilityRow b name ids =
      if Silenced fault (implementing b.db b.project name) then ⟨b.project, name, .declared⟩
      else b.trueRow name := by
  have hperm := plan.entities_perm (implementing b.db b.project name)
  have hnil : plan.entities (implementing b.db b.project name) = [] ↔
      implementing b.db b.project name = [] := by
    constructor
    · intro heq
      rw [heq] at hperm
      exact List.nil_perm.mp hperm
    · intro heq
      rw [heq] at hperm ⊢
      exact List.perm_nil.mp hperm
  have hids := collect_eq_nil_iff h
  have hsame : Silenced fault (plan.entities (implementing b.db b.project name)) ↔
      Silenced fault (implementing b.db b.project name) := and_congr_right' (not_congr hnil)
  rw [hnil, hsame] at hids
  have hempty : ids.isEmpty = true ↔ ids = [] := List.isEmpty_iff
  by_cases hsilent : Silenced fault (implementing b.db b.project name)
  · rw [if_pos hsilent, capabilityRow, if_pos (hempty.mpr (hids.mpr (Or.inr hsilent)))]
  · rw [if_neg hsilent, Build.trueRow, capabilityRow, capabilityRow]
    by_cases htrue : implementing b.db b.project name = []
    · rw [if_pos (hempty.mpr (hids.mpr (Or.inl htrue))), if_pos (List.isEmpty_iff.mpr htrue)]
    · have hne : ¬ ids.isEmpty = true := by
        rw [hempty, hids]
        exact fun h => h.elim htrue hsilent
      rw [if_neg hne, if_neg (by simpa using htrue)]

/-- The capabilities that are reported implemented. -/
def implementedCount (rows : List CapabilityState) : ℕ :=
  rows.countP fun r => r.state = .implemented

/-- **A silenced query makes an implemented capability a declared one**, and nothing else goes
    unnoticed. -/
theorem capabilityLoop_rows (h : capabilityLoop plan b i names = some rows) :
    (b.Heard i names ∧ rows = names.map b.trueRow) ∨
      (¬ b.Heard i names ∧ implementedCount rows < implementedCount (names.map b.trueRow)) := by
  induction names generalizing i rows with
  | nil =>
      obtain rfl : [] = rows := Option.some.inj h
      exact Or.inl ⟨trivial, rfl⟩
  | cons name names ih =>
      obtain ⟨ids, rest, hids, -, hrest, rfl⟩ := capabilityLoop_cons plan b h
      have hfound := capabilityRow_found plan b hids
      by_cases hsilent : Silenced (b.faults.implementing i) (implementing b.db b.project name)
      · right
        rw [if_pos hsilent] at hfound
        have htrue : (b.trueRow name).state = .implemented := by
          rw [Build.trueRow, capabilityRow, if_neg (by simpa using hsilent.2)]
        refine ⟨fun hheard => hheard.1 hsilent, ?_⟩
        have hle : implementedCount rest ≤ implementedCount (names.map b.trueRow) := by
          rcases ih hrest with ⟨-, rfl⟩ | ⟨-, hlt⟩
          · exact le_rfl
          · exact hlt.le
        rw [hfound, List.map_cons, implementedCount, implementedCount, List.countP_cons_of_neg,
          List.countP_cons_of_pos]
        · exact Nat.lt_succ_of_le hle
        · simpa using htrue
        · simp
      · rw [if_neg hsilent] at hfound
        rcases ih hrest with ⟨hheard, rfl⟩ | ⟨hnot, hlt⟩
        · left
          exact ⟨⟨hsilent, hheard⟩, by rw [hfound, List.map_cons]⟩
        · right
          refine ⟨fun hheard => hnot hheard.2, ?_⟩
          rw [hfound, List.map_cons, implementedCount, implementedCount, List.countP_cons,
            List.countP_cons]
          exact Nat.add_lt_add_right hlt _

/-- **The loop writes the rows of the complete queries exactly when it was given every name and no
    query was silenced.** -/
theorem capabilityLoop_perm_iff {declared : List Str} (hnames : names <+: declared)
    (h : capabilityLoop plan b 0 names = some rows) :
    rows.Perm (declared.map b.trueRow) ↔ names = declared ∧ b.Heard 0 declared := by
  constructor
  · intro hperm
    have hlength : names.length = declared.length := by
      rw [← capabilityLoop_length plan b h, hperm.length_eq, List.length_map]
    obtain rfl := hnames.eq_of_length hlength
    refine ⟨rfl, ?_⟩
    rcases capabilityLoop_rows plan b h with ⟨hheard, -⟩ | ⟨-, hlt⟩
    · exact hheard
    · exact absurd (hperm.countP_eq _) (Nat.ne_of_lt hlt)
  · rintro ⟨rfl, hheard⟩
    rcases capabilityLoop_rows plan b h with ⟨-, hrows⟩ | ⟨hnot, -⟩
    · exact hrows ▸ List.Perm.refl _
    · exact absurd hheard hnot

end CapabilityLoop

/-! ## One build -/

section OneBuild

variable (b : Build)

/-- The tables after the four builders, given the rows of the capability loop. -/
def built (rows : List CapabilityState) (d : Summaries ρ) : Summaries ρ where
  moduleSummary := replaceAll ModuleSummary.key d.moduleSummary (moduleRows R b.db b.project)
  capabilityState := refresh CapabilityState.project b.project d.capabilityState rows
  workflowState := refresh WorkflowState.project b.project d.workflowState
    (workflowRows plan b.db b.project)
  architectureState := refresh ArchitectureState.project b.project d.architectureState
    (architectureRows R plan b.db b.project)

/-- How many rows a build reports. -/
def builtCount (rows : List CapabilityState) : ℕ :=
  (moduleRows R b.db b.project).length + rows.length + (workflowRows plan b.db b.project).length +
    (architectureRows R plan b.db b.project).length

theorem buildCapabilityState_of (d : Summaries ρ) {names : List Str} {rows : List CapabilityState}
    (hdelete : b.faults.capabilityDelete = false) (hinsert : b.faults.capabilityInsert = false)
    (hnames : collect b.faults.capabilityNames (declaredNames b.db b.project) = some names)
    (hrows : capabilityLoop plan b 0 names = some rows) :
    buildCapabilityState plan b d = some (rows.length,
      { d with
        capabilityState :=
          refresh CapabilityState.project b.project d.capabilityState rows }) := by
  rw [buildCapabilityState, if_neg (by simp [hdelete]), hnames]
  simp only
  rw [if_neg (by simp [hinsert]), hrows, Option.map_some]

/-- A build that completes commits what the builders wrote. -/
theorem buildAll_of_completes (d : Summaries ρ) (h : b.Completes) :
    ∃ names rows,
      collect b.faults.capabilityNames (declaredNames b.db b.project) = some names ∧
      capabilityLoop plan b 0 names = some rows ∧
      buildAll R plan b (Conn.idle d) =
        (some (builtCount R plan b rows), Conn.idle (built R plan b rows d)) := by
  obtain ⟨names, hnames, hloop⟩ := h.names
  have hsome : (capabilityLoop plan b 0 names).isSome := by
    rw [capabilityLoop_isSome_iff]
    simpa [Build.LoopCompletes] using hloop
  obtain ⟨rows, hrows⟩ := Option.isSome_iff_exists.mp hsome
  have hcapabilities := fun d : Summaries ρ => buildCapabilityState_of plan b d
    h.capabilitiesDeleted h.capabilitiesPrepared hnames hrows
  refine ⟨names, rows, hnames, hrows, ?_⟩
  have hbuilders : builders R plan b d =
      some (builtCount R plan b rows, built R plan b rows d) := by
    simp only [builders, buildModuleSummaries, h.modulesInserted, hcapabilities,
      buildWorkflowState, buildArchitectureState, h.workflowsDeleted, h.workflowsInserted,
      h.architectureDeleted, h.architectureInserted, Option.bind_eq_bind, Option.bind_some,
      Bool.false_eq_true, or_self, if_false, Option.pure_def]
    rfl
  have hview : (⟨d, some d⟩ : Conn (Summaries ρ)).view = d := rfl
  simp only [buildAll, Conn.begin_idle, h.begins, hview, hbuilders, Conn.write_open,
    Conn.commit_open, h.commits, Bool.false_eq_true, if_false]

/-- A build whose builders all succeed met no failure that they look at. -/
theorem completes_of_builders {d d' : Summaries ρ} {n : ℕ}
    (h : builders R plan b d = some (n, d')) (hbegin : b.faults.begin_ = false)
    (hcommit : b.faults.commit = false) : b.Completes := by
  simp only [builders, Option.bind_eq_bind, Option.bind_eq_some_iff, Option.pure_def,
    Prod.exists] at h
  obtain ⟨n₁, d₁, hmodules, n₂, d₂, hcapabilities, n₃, d₃, hworkflows, n₄, d₄, hpairs, -⟩ := h
  rw [buildModuleSummaries] at hmodules
  rw [buildWorkflowState] at hworkflows
  rw [buildArchitectureState] at hpairs
  rw [buildCapabilityState] at hcapabilities
  split at hmodules
  · exact absurd hmodules (by simp)
  rename_i hm
  split at hworkflows
  · exact absurd hworkflows (by simp)
  rename_i hw
  split at hpairs
  · exact absurd hpairs (by simp)
  rename_i hp
  split at hcapabilities
  · exact absurd hcapabilities (by simp)
  rename_i hdelete
  split at hcapabilities
  · exact absurd hcapabilities (by simp)
  rename_i names hnames
  split at hcapabilities
  · exact absurd hcapabilities (by simp)
  rename_i hinsert
  obtain ⟨rows, hrows, -⟩ := Option.map_eq_some_iff.mp hcapabilities
  have hloop : b.LoopCompletes names := by
    have hsome : (capabilityLoop plan b 0 names).isSome := by rw [hrows]; rfl
    rw [capabilityLoop_isSome_iff] at hsome
    simpa [Build.LoopCompletes] using hsome
  simp only [not_or, Bool.not_eq_true] at hm hw hp hdelete hinsert
  exact ⟨hbegin, hm, hdelete, hinsert, ⟨names, hnames, hloop⟩, hw.1, hw.2, hp.1, hp.2, hcommit⟩

theorem buildAll_of_not_completes (d : Summaries ρ) (h : ¬ b.Completes) :
    buildAll R plan b (Conn.idle d) = (none, Conn.idle d) := by
  have hview : (⟨d, some d⟩ : Conn (Summaries ρ)).view = d := rfl
  rw [buildAll, Conn.begin_idle]
  cases hbegin : b.faults.begin_ with
  | true => rfl
  | false =>
      simp only [Bool.false_eq_true, if_false, hview]
      cases hbuilders : builders R plan b d with
      | none => rfl
      | some result =>
          cases hcommit : b.faults.commit with
          | true => rfl
          | false => exact absurd (completes_of_builders R plan b hbuilders hbegin hcommit) h

end OneBuild

/-! ## Sequences of builds -/

def Summaries.empty : Summaries ρ := ⟨[], [], [], []⟩

/-- The rows of one project. -/
def Summaries.rowsOf (d : Summaries ρ) (project : ℕ) : Summaries ρ where
  moduleSummary := d.moduleSummary.filter fun r => r.project = project
  capabilityState := d.capabilityState.filter fun r => r.project = project
  workflowState := d.workflowState.filter fun r => r.project = project
  architectureState := d.architectureState.filter fun r => r.project = project

/-- The same rows, in any order. -/
structure Summaries.Same (d d' : Summaries ρ) : Prop where
  modules : d.moduleSummary.Perm d'.moduleSummary
  capabilities : d.capabilityState.Perm d'.capabilityState
  workflows : d.workflowState.Perm d'.workflowState
  pairs : d.architectureState.Perm d'.architectureState

/-- The tables after one call of `buildAll`. -/
def afterBuild (d : Summaries ρ) (b : Build) : Summaries ρ :=
  (buildAll R plan b (Conn.idle d)).2.durable

/-- The tables after a sequence of calls, for any projects and on any facts. -/
def afterBuilds (history : List Build) : Summaries ρ :=
  history.foldl (afterBuild R plan) Summaries.empty

/-- Every module that had its row written by an earlier build of the project qualifies still. -/
def Retained (history : List Build) (b : Build) : Prop :=
  ∀ e ∈ history, e.Completes → e.project = b.project →
    ∀ m ∈ qualifying e.db e.project, ∃ m' ∈ qualifying b.db b.project, m'.id = m.id

theorem moduleRows_keys (db : Facts) (project : ℕ) :
    (moduleRows R db project).map ModuleSummary.key =
      (qualifying db project).map fun s => (project, s.id) := by
  rw [moduleRows, List.map_map]
  rfl

theorem moduleRows_keys_nodup (db : Facts) (project : ℕ) :
    ((moduleRows R db project).map ModuleSummary.key).Nodup := by
  have hsub : ((qualifying db project).map Scope.id).Sublist (db.scope.map Scope.id) :=
    (List.filter_sublist.trans List.filter_sublist).map Scope.id
  have hpair : ((qualifying db project).map fun s => (project, s.id)) =
      ((qualifying db project).map Scope.id).map fun i => (project, i) := by
    rw [List.map_map]
    rfl
  rw [moduleRows_keys, hpair]
  exact (hsub.nodup db.scopeIds).map fun i j h => (Prod.mk.inj h).2

theorem workflowRows_project (db : Facts) (project : ℕ) :
    ∀ r ∈ workflowRows plan db project, r.project = project := by
  intro r hr
  have hmem := (plan.workflows_perm _).mem_iff.mp (List.mem_of_mem_take hr)
  obtain ⟨e, -, rfl⟩ := List.mem_map.mp (List.mem_dedup.mp hmem)
  rfl

theorem architectureRows_project (db : Facts) (project : ℕ) :
    ∀ r ∈ architectureRows R plan db project, r.project = project := by
  intro r hr
  have hmem := (plan.pairs_perm _).mem_iff.mp (List.mem_of_mem_take hr)
  obtain ⟨pair, -, rfl⟩ := List.mem_map.mp hmem
  rfl

theorem moduleRows_project (db : Facts) (project : ℕ) :
    ∀ r ∈ moduleRows R db project, r.project = project := by
  intro r hr
  obtain ⟨s, -, rfl⟩ := List.mem_map.mp hr
  rfl

section Built

variable (b : Build) {rows : List CapabilityState} (d : Summaries ρ)

/-- The rows a build leaves for its project; only the module rows depend on what was there. -/
theorem rowsOf_built (hrows : ∀ r ∈ rows, r.project = b.project) :
    (built R plan b rows d).rowsOf b.project =
      { moduleSummary :=
          (kept ModuleSummary.key d.moduleSummary (moduleRows R b.db b.project)).filter
            (fun r => r.project = b.project) ++ moduleRows R b.db b.project
        capabilityState := rows
        workflowState := workflowRows plan b.db b.project
        architectureState := architectureRows R plan b.db b.project } := by
  have hnew : ((moduleRows R b.db b.project).filter fun r => r.project = b.project) =
      moduleRows R b.db b.project :=
    List.filter_eq_self.mpr fun r hr => decide_eq_true (moduleRows_project R b.db b.project r hr)
  rw [Summaries.rowsOf, built, replaceAll_eq _ (moduleRows_keys_nodup R b.db b.project),
    List.filter_append, hnew, filter_refresh_self _ hrows,
    filter_refresh_self _ (workflowRows_project plan b.db b.project),
    filter_refresh_self _ (architectureRows_project R plan b.db b.project)]

/-- **Other projects keep their rows.** -/
theorem rowsOf_built_other (hrows : ∀ r ∈ rows, r.project = b.project) {q : ℕ}
    (hq : q ≠ b.project) : (built R plan b rows d).rowsOf q = d.rowsOf q := by
  have hnew : ((moduleRows R b.db b.project).filter fun r => r.project = q) = [] := by
    rw [List.filter_eq_nil_iff]
    intro r hr heq
    exact hq ((of_decide_eq_true heq).symm.trans (moduleRows_project R b.db b.project r hr))
  have hold : ((kept ModuleSummary.key d.moduleSummary (moduleRows R b.db b.project)).filter
      fun r => r.project = q) = d.moduleSummary.filter fun r => r.project = q := by
    rw [kept, List.filter_filter]
    refine List.filter_congr ?_
    intro r _
    by_cases hr : r.project = q
    · have hkey : ModuleSummary.key r ∉ (moduleRows R b.db b.project).map ModuleSummary.key := by
        intro hmem
        obtain ⟨s, hs, hsame⟩ := List.mem_map.mp hmem
        have hproject : s.project = r.project := (Prod.mk.inj hsame).1
        exact hq (hr.symm.trans (hproject.symm.trans (moduleRows_project R b.db b.project s hs)))
      simp [hr, hkey]
    · simp [hr]
  rw [Summaries.rowsOf, Summaries.rowsOf, built,
    replaceAll_eq _ (moduleRows_keys_nodup R b.db b.project), List.filter_append, hnew, hold,
    List.append_nil, filter_refresh_other _ hrows hq,
    filter_refresh_other _ (workflowRows_project plan b.db b.project) hq,
    filter_refresh_other _ (architectureRows_project R plan b.db b.project) hq]

end Built

/-- The keys of `module_summary` only grow. -/
theorem mem_moduleKeys_afterBuild (d : Summaries ρ) (b : Build) (k : ℕ × Int) :
    k ∈ (afterBuild R plan d b).moduleSummary.map ModuleSummary.key ↔
      k ∈ d.moduleSummary.map ModuleSummary.key ∨
        b.Completes ∧ k ∈ (qualifying b.db b.project).map fun s => (b.project, s.id) := by
  by_cases hb : b.Completes
  · obtain ⟨names, rows, -, -, hbuild⟩ := buildAll_of_completes R plan b d hb
    have htable : (afterBuild R plan d b).moduleSummary =
        kept ModuleSummary.key d.moduleSummary (moduleRows R b.db b.project) ++
          moduleRows R b.db b.project := by
      rw [afterBuild, hbuild, Conn.idle_durable, built,
        replaceAll_eq _ (moduleRows_keys_nodup R b.db b.project)]
    rw [htable, List.map_append, List.mem_append, moduleRows_keys]
    simp only [hb, true_and]
    constructor
    · rintro (hold | hnew)
      · obtain ⟨r, hr, rfl⟩ := List.mem_map.mp hold
        exact Or.inl (List.mem_map_of_mem (mem_kept.mp hr).1)
      · exact Or.inr hnew
    · intro h
      by_cases hnew : k ∈ (qualifying b.db b.project).map fun s => (b.project, s.id)
      · exact Or.inr hnew
      · obtain ⟨r, hr, rfl⟩ := List.mem_map.mp (h.resolve_right hnew)
        refine Or.inl (List.mem_map_of_mem (mem_kept.mpr ⟨hr, ?_⟩))
        rw [moduleRows_keys]
        exact hnew
  · have hsame : afterBuild R plan d b = d := by
      rw [afterBuild, buildAll_of_not_completes R plan b d hb, Conn.idle_durable]
    simp [hsame, hb]

/-- **The rows of `module_summary` are named after every module that ever qualified.** -/
theorem mem_moduleKeys_afterBuilds (history : List Build) (k : ℕ × Int) :
    k ∈ (afterBuilds R plan history).moduleSummary.map ModuleSummary.key ↔
      ∃ e ∈ history, e.Completes ∧
        k ∈ (qualifying e.db e.project).map fun s => (e.project, s.id) := by
  have hrun : ∀ d : Summaries ρ,
      k ∈ (history.foldl (afterBuild R plan) d).moduleSummary.map ModuleSummary.key ↔
        k ∈ d.moduleSummary.map ModuleSummary.key ∨ ∃ e ∈ history, e.Completes ∧
          k ∈ (qualifying e.db e.project).map fun s => (e.project, s.id) := by
    induction history with
    | nil => simp
    | cons e history ih =>
        intro d
        rw [List.foldl_cons, ih, mem_moduleKeys_afterBuild, or_assoc]
        simp only [List.mem_cons, exists_eq_or_imp]
  rw [afterBuilds, hrun]
  simp [Summaries.empty]

/-- No stale module row of the project is kept exactly when the modules it had rows for qualify. -/
theorem retained_iff (history : List Build) (b : Build) :
    Retained history b ↔
      ((kept ModuleSummary.key (afterBuilds R plan history).moduleSummary
        (moduleRows R b.db b.project)).filter fun r => r.project = b.project) = [] := by
  rw [List.filter_eq_nil_iff]
  constructor
  · intro h r hr hproject
    obtain ⟨hr, hstale⟩ := mem_kept.mp hr
    obtain ⟨e, he, hcompletes, hkey⟩ :=
      (mem_moduleKeys_afterBuilds R plan history _).mp (List.mem_map_of_mem hr)
    obtain ⟨m, hm, hsame⟩ := List.mem_map.mp hkey
    obtain ⟨hp, hid⟩ := Prod.mk.inj hsame
    have hproject := of_decide_eq_true hproject
    obtain ⟨m', hm', heq⟩ := h e he hcompletes (hp.trans hproject) m hm
    refine hstale ?_
    rw [moduleRows_keys]
    refine List.mem_map.mpr ⟨m', hm', ?_⟩
    rw [ModuleSummary.key, heq, hid, hproject]
  · intro h e he hcompletes hproject m hm
    have hkey : (e.project, m.id) ∈
        (afterBuilds R plan history).moduleSummary.map ModuleSummary.key :=
      (mem_moduleKeys_afterBuilds R plan history _).mpr
        ⟨e, he, hcompletes, List.mem_map_of_mem hm⟩
    obtain ⟨r, hr, hrkey⟩ := List.mem_map.mp hkey
    obtain ⟨hrp, hrid⟩ := Prod.mk.inj hrkey
    by_contra hgone
    refine h r (mem_kept.mpr ⟨hr, ?_⟩)
      (decide_eq_true (hrp.trans hproject))
    intro hmem
    rw [moduleRows_keys] at hmem
    obtain ⟨m', hm', hsame⟩ := List.mem_map.mp hmem
    refine hgone ⟨m', hm', ?_⟩
    exact ((Prod.mk.inj hsame).2).trans hrid

theorem perm_append_self_iff {α : Type} (l l' : List α) : (l ++ l').Perm l' ↔ l = [] := by
  constructor
  · intro h
    have hlength := h.length_eq
    rw [List.length_append] at hlength
    exact List.eq_nil_of_length_eq_zero (by omega)
  · rintro rfl
    exact List.Perm.refl _

/-- The rows of the project are the ones given, and those of other projects have not changed. -/
def Refreshed (before after fresh : Summaries ρ) (project : ℕ) : Prop :=
  (after.rowsOf project).Same (fresh.rowsOf project) ∧
    ∀ q ≠ project, after.rowsOf q = before.rowsOf q

/-- A completed build compared with one on empty tables that wrote the capability rows `rows'`. -/
theorem refreshed_iff (history : List Build) (b : Build) {rows rows' : List CapabilityState}
    (hrows : ∀ r ∈ rows, r.project = b.project) (hrows' : ∀ r ∈ rows', r.project = b.project) :
    Refreshed (afterBuilds R plan history) (built R plan b rows (afterBuilds R plan history))
        (built R plan b rows' Summaries.empty) b.project ↔
      Retained history b ∧ rows.Perm rows' := by
  have hfresh : (built R plan b rows' Summaries.empty).rowsOf b.project =
      { moduleSummary := moduleRows R b.db b.project
        capabilityState := rows'
        workflowState := workflowRows plan b.db b.project
        architectureState := architectureRows R plan b.db b.project } :=
    rowsOf_built R plan b Summaries.empty hrows'
  rw [Refreshed, hfresh, rowsOf_built R plan b _ hrows, retained_iff R plan history b,
    ← perm_append_self_iff _ (moduleRows R b.db b.project)]
  constructor
  · rintro ⟨hsame, -⟩
    exact ⟨hsame.modules, hsame.capabilities⟩
  · rintro ⟨hmodules, hcapabilities⟩
    refine ⟨⟨hmodules, hcapabilities, List.Perm.refl _, List.Perm.refl _⟩, ?_⟩
    intro q hq
    exact rowsOf_built_other R plan b _ hrows hq

theorem clean_heard (b : Build) (i : ℕ) (names : List Str) : b.clean.Heard i names := by
  induction names generalizing i with
  | nil => trivial
  | cons name names ih => exact ⟨fun hsilent => absurd hsilent.1 nofun, ih (i + 1)⟩

/-- **After a build that reports success, the project's rows are those that the same build makes of
    empty tables exactly when every module an earlier build wrote a row for qualifies still.** They
    are those of a build whose queries are all read to the end exactly when moreover the capability
    names were all read and no capability query was silenced. Other projects keep their rows. -/
theorem summaries_current_iff (history : List Build) (b : Build) (total : ℕ)
    (h : (buildAll R plan b (Conn.idle (afterBuilds R plan history))).1 = some total) :
    (Refreshed (afterBuilds R plan history) (afterBuild R plan (afterBuilds R plan history) b)
        (afterBuild R plan Summaries.empty b) b.project ↔ Retained history b) ∧
    (Refreshed (afterBuilds R plan history) (afterBuild R plan (afterBuilds R plan history) b)
        (afterBuild R plan Summaries.empty b.clean) b.project ↔
      Retained history b ∧
        collect b.faults.capabilityNames (declaredNames b.db b.project) =
          some (declaredNames b.db b.project) ∧
        b.Heard 0 (declaredNames b.db b.project)) := by
  have hcompletes : b.Completes := by
    by_contra hnot
    rw [buildAll_of_not_completes R plan b _ hnot] at h
    exact absurd h (by simp)
  obtain ⟨names, rows, hnames, hrows, hbuild⟩ :=
    buildAll_of_completes R plan b (afterBuilds R plan history) hcompletes
  have hproject := capabilityLoop_project plan b hrows
  have hafter : afterBuild R plan (afterBuilds R plan history) b =
      built R plan b rows (afterBuilds R plan history) := by
    rw [afterBuild, hbuild, Conn.idle_durable]
  rw [hafter]
  constructor
  · obtain ⟨names', rows', hnames', hrows', hbuild'⟩ :=
      buildAll_of_completes R plan b (Summaries.empty : Summaries ρ) hcompletes
    obtain rfl : names = names' := Option.some.inj (hnames.symm.trans hnames')
    obtain rfl : rows = rows' := Option.some.inj (hrows.symm.trans hrows')
    rw [afterBuild, hbuild', Conn.idle_durable, refreshed_iff R plan history b hproject hproject]
    exact and_iff_left (List.Perm.refl rows)
  · obtain ⟨names', rows', hnames', hrows', hbuild'⟩ :=
      buildAll_of_completes R plan b.clean (Summaries.empty : Summaries ρ) b.clean_completes
    have hproject' := capabilityLoop_project plan b.clean hrows'
    obtain rfl : declaredNames b.db b.project = names' := Option.some.inj hnames'
    have htrue : rows' = (declaredNames b.db b.project).map b.trueRow := by
      rcases capabilityLoop_rows plan b.clean hrows' with ⟨-, hrows'⟩ | ⟨hnot, -⟩
      · exact hrows'
      · exact absurd (clean_heard b 0 _) hnot
    have hfresh : afterBuild R plan Summaries.empty b.clean =
        built R plan b rows' Summaries.empty := by
      rw [afterBuild, hbuild', Conn.idle_durable]
      rfl
    have hcut : collect b.faults.capabilityNames (declaredNames b.db b.project) =
        some (declaredNames b.db b.project) ↔ names = declaredNames b.db b.project := by
      rw [hnames, Option.some.injEq]
    rw [hfresh, refreshed_iff R plan history b hproject hproject', htrue,
      capabilityLoop_perm_iff plan b (collect_initial hnames) hrows, hcut]

/-! ## A module that shrinks -/

/-- The REAL operations over the rationals. -/
def rationals : Reals ℚ where
  utilization dead total := 1 - dead / total
  literal q := q
  le a b := decide (a ≤ b)

/-- Rows come in table order, pairs by descending count. -/
def tableOrder : Plan ℚ where
  entities l := l
  workflows l := l
  pairs l := l.insertionSort fun a b => b.crossModuleEdges ≤ a.crossModuleEdges
  entities_perm _ := List.Perm.refl _
  workflows_perm _ := List.Perm.refl _
  pairs_perm l := List.perm_insertionSort _ l
  pairs_sorted l := by
    have htotal : Std.Total fun a b : ArchitectureState ℚ =>
        b.crossModuleEdges ≤ a.crossModuleEdges := ⟨fun a b => Nat.le_total _ _⟩
    have htrans : IsTrans (ArchitectureState ℚ) fun a b =>
        b.crossModuleEdges ≤ a.crossModuleEdges := ⟨fun a b c hab hbc => hbc.trans hab⟩
    exact List.pairwise_insertionSort _ l

/-- A function of the module `core`. -/
def coreFunction (id : Int) (name : String) : EntityRow where
  id
  project := 1
  kind := 0
  name := str name
  qualifiedName := str name
  filePath := str "core/run.go"
  language := str "go"
  startRow := 0
  startCol := 0
  endRow := 4
  endCol := 1
  modulePath := str "core"
  visibility := 1
  arity := 0

/-- A project with the module `core` and the given entities. -/
def coreFacts (entity : EntityTable) : Facts where
  entity
  relation := []
  scope := [⟨7, 1, 1, str "core"⟩]
  capability := []
  contract := []
  architectureEdge := []
  relationIds := List.nodup_nil
  scopeIds := List.nodup_singleton _

def threeFunctions : EntityTable :=
  ⟨[coreFunction 1 "load", coreFunction 2 "plan", coreFunction 3 "apply"], by decide⟩

def twoFunctions : EntityTable := ⟨[coreFunction 1 "load", coreFunction 2 "plan"], by decide⟩

/-- A build of the project when `core` has three functions, and one after it has lost a function. -/
def earlierBuild : Build := ⟨coreFacts threeFunctions, 1, .clean⟩
def laterBuild : Build := ⟨coreFacts twoFunctions, 1, .clean⟩

theorem summaries_current_iff_laterBuild :
    Refreshed (afterBuilds rationals tableOrder [earlierBuild])
        (afterBuild rationals tableOrder (afterBuilds rationals tableOrder [earlierBuild])
          laterBuild)
        (afterBuild rationals tableOrder Summaries.empty laterBuild) 1 ↔
      Retained [earlierBuild] laterBuild :=
  (summaries_current_iff rationals tableOrder [earlierBuild] laterBuild 0 (by decide +kernel)).1

/-- The second build reports success, and `core` keeps the row of the first. -/
theorem shrunk_module_keeps_its_row :
    (buildAll rationals tableOrder laterBuild
      (Conn.idle (afterBuilds rationals tableOrder [earlierBuild]))).1 = some 0 ∧
    ¬ Refreshed (afterBuilds rationals tableOrder [earlierBuild])
        (afterBuild rationals tableOrder (afterBuilds rationals tableOrder [earlierBuild])
          laterBuild)
        (afterBuild rationals tableOrder Summaries.empty laterBuild) 1 := by
  constructor
  · decide +kernel
  · rintro ⟨hsame, -⟩
    have hlength := hsame.modules.length_eq
    have hkept : (((afterBuild rationals tableOrder
        (afterBuilds rationals tableOrder [earlierBuild]) laterBuild).rowsOf
        1).moduleSummary).length = 1 := by decide +kernel
    have hnone : (((afterBuild rationals tableOrder Summaries.empty laterBuild).rowsOf
        1).moduleSummary).length = 0 := by decide +kernel
    rw [hkept, hnone] at hlength
    exact absurd hlength (by decide)

end CodeScope.Model
