import CodeScope.Merge.MergeOutcome
import CodeScope.Merge.UnifyProject

/-! # When a merge is atomic and complete

A failed merge should leave no row in the fresh main database, and a successful one every table of
every module. The script that runs decides both: which of its transactions committed before
something failed, and which tables the first module made it name. -/

namespace CodeScope.Merge

open Text Script Connection

variable {ν : Type} (val : Values ν)

/-! ## The session behind the script -/

/-- `projects` does not exist yet. -/
def NoProjects (c : Conn (MainDb ν)) : Prop :=
  c.view.projects = none ∧ c.durable.projects = none

theorem NoProjects.write {c : Conn (MainDb ν)} (h : NoProjects c) {f : MainDb ν → MainDb ν}
    (hf : (f c.view).projects = none) : NoProjects (c.write f) := by
  refine ⟨by rw [Conn.view_write]; exact hf, ?_⟩
  rw [Conn.durable_write]
  split
  · exact h.2
  · exact hf

theorem NoProjects.putTable {s : Session ν} (h : NoProjects s.conn) (t : Table) (sheet : Sheet ν) :
    NoProjects (s.putTable t sheet).conn := h.write h.1

/-- The merge script does not touch `projects`. -/
theorem exec_noProjects {ms : List (Tables ν)} {stmt : Stmt} {s s' : Session ν}
    (h : NoProjects s.conn) (hexec : exec val ms stmt s = some s') : NoProjects s'.conn := by
  cases stmt with
  | pragma p =>
      obtain rfl := Option.some.inj hexec
      exact h
  | begin i =>
      rw [exec] at hexec
      split at hexec
      · exact absurd hexec (by simp)
      · rename_i hclosed
        obtain rfl := Option.some.inj hexec
        dsimp only
        rw [Conn.begin_closed s.conn (by simpa using hclosed)]
        exact h
  | createTable t =>
      simp only [exec, Option.bind_eq_bind, Option.bind_eq_some_iff, Option.pure_def,
        Option.some.injEq] at hexec
      obtain ⟨_, _, _, _, _, _, rfl⟩ := hexec
      exact h.putTable t _
  | attach _ | createOffsets _ | dropOffsets _ | detach _ | count _ =>
      rw [exec] at hexec
      split at hexec
      · obtain rfl := Option.some.inj hexec
        exact h
      · exact absurd hexec (by simp)
  | insertAll _ t | insertColumns _ t _ | insertRemapped _ t _ =>
      simp only [exec, Option.bind_eq_bind, Option.bind_eq_some_iff, Option.pure_def,
        Option.some.injEq] at hexec
      obtain ⟨_, _, _, _, rfl⟩ := hexec
      exact h.putTable t _
  | commit i =>
      rw [exec] at hexec
      split at hexec
      · rename_i hopen
        obtain rfl := Option.some.inj hexec
        dsimp only
        rw [Conn.commit_opened s.conn hopen]
        exact ⟨h.1, h.1⟩
      · exact absurd hexec (by simp)

/-- No statement of the script is made to fail, and all of them can be executed. -/
def ScriptWorks (fails : Stmt → Bool) (m0 : Tables ν) (ms : List (Tables ν))
    (script : List Stmt) : Prop :=
  (∀ stmt ∈ script, fails stmt = false) ∧ (1 < ms.length → OffsetTablesGiven m0) ∧
    ∀ i < ms.length, AllResolve m0 ms i

section Session

variable (fails : Stmt → Bool) {m0 : Tables ν} {others : List (Tables ν)} {script : List Stmt}

theorem sourceOf_first (t : Table) : sourceOf (m0 :: others) 0 t = m0 t := rfl

theorem shape_run (ms : List (Tables ν)) (script : List Stmt) :
    run (shapeExec ms) fails false script startShape =
      ((run (exec val ms) fails false script (startSession ν)).1,
        shape (run (exec val ms) fails false script (startSession ν)).2) := by
  have hstart : shape (startSession ν) = startShape := rfl
  rw [← hstart]
  exact run_map (shape_exec ms val) false script (startSession ν)

/-- **The shell reports success exactly when the script works.** -/
theorem script_done_iff (hscript : mergeScript m0 (m0 :: others).length = some script) :
    (run (exec val (m0 :: others)) fails false script (startSession ν)).1 = script ↔
      ScriptWorks fails m0 (m0 :: others) script := by
  have hcompletes : Completes (shapeExec (m0 :: others)) fails script startShape ↔
      ScriptWorks fails m0 (m0 :: others) script :=
    completes_script_iff sourceOf_first (Nat.succ_pos _) hscript
  rw [← hcompletes, ← run_complete_iff_completes false, shape_run val fails (m0 :: others) script]

theorem after_session (hscript : mergeScript m0 (m0 :: others).length = some script) :
    After m0 fails (m0 :: others) (m0 :: others).length
      (shape (run (exec val (m0 :: others)) fails false script (startSession ν)).2) := by
  have hafter : After m0 fails (m0 :: others) (m0 :: others).length
      (final (shapeExec (m0 :: others)) fails script startShape) :=
    after_script sourceOf_first hscript
  rwa [final, shape_run val fails (m0 :: others) script] at hafter

theorem session_noProjects (ms : List (Tables ν)) (script : List Stmt) :
    NoProjects (run (exec val ms) fails false script (startSession ν)).2.conn :=
  run_invariant (P := fun s : Session ν => NoProjects s.conn) false ⟨rfl, rfl⟩
    fun _ _ _ _ h hexec => exec_noProjects val h hexec

theorem createTable_works (hscript : mergeScript m0 (m0 :: others).length = some script)
    (hworks : ∀ stmt ∈ script, fails stmt = false) {spec : TableSpec} (hspec : spec ∈ existing m0) :
    fails (.createTable spec.name) = false := by
  obtain ⟨blocks, hblocks, rfl⟩ := mergeScript_eq_some hscript
  obtain ⟨block, hmem, hblock⟩ := mem_blocks hblocks (Nat.succ_pos _)
  refine hworks _ (List.mem_append_right _ (List.mem_append_left _ ?_))
  exact List.mem_flatten.mpr ⟨block, hmem, (mem_moduleScript hblock).2.2 rfl spec hspec⟩

theorem commit_works (hscript : mergeScript m0 (m0 :: others).length = some script)
    (hworks : ∀ stmt ∈ script, fails stmt = false) {i : ℕ} (hi : i < (m0 :: others).length) :
    fails (.commit i) = false := by
  obtain ⟨blocks, hblocks, rfl⟩ := mergeScript_eq_some hscript
  obtain ⟨block, hmem, hblock⟩ := mem_blocks hblocks hi
  obtain ⟨copies, _, rfl⟩ := moduleScript_eq_some hblock
  refine hworks _ (List.mem_append_right _ (List.mem_append_left _ ?_))
  exact List.mem_flatten.mpr ⟨_, hmem, by simp⟩

/-- A script that works leaves the tables of the first module. -/
theorem session_columns (hscript : mergeScript m0 (m0 :: others).length = some script)
    (hworks : ScriptWorks fails m0 (m0 :: others) script) (t : Table) :
    ((run (exec val (m0 :: others)) fails false script
        (startSession ν)).2.conn.durable.tables t).map Sheet.columns = (m0 t).map Sheet.columns := by
  have hafter := after_session val fails hscript
  let s := (run (exec val (m0 :: others)) fails false script (startSession ν)).2
  have hclosed : ¬ s.conn.txn.isSome = true := fun h =>
    not_leftOpen (fun j hj => commit_works fails hscript hworks.1 hj) (hafter.opened.mp h)
  have hcolumns : (s.view.tables t).map Sheet.columns = createdColumns m0 fails t :=
    congrFun (hafter.columns.trans (if_neg (Nat.succ_ne_zero _))) t
  have hview : s.view = s.conn.durable := s.conn.view_closed hclosed
  rw [hview] at hcolumns
  refine hcolumns.trans ?_
  rw [createdColumns]
  cases hm : m0 t with
  | none => exact ite_self _
  | some sheet =>
      obtain ⟨spec, hspec, rfl⟩ := mem_existing hm
      rw [createTable_works fails hscript hworks.1 hspec, if_neg Bool.false_ne_true]

theorem projectTables_congr {db db' : MainDb ν}
    (h : ∀ t, (db.tables t).map Sheet.columns = (db'.tables t).map Sheet.columns) :
    projectTables db = projectTables db' := by
  rw [projectTables_eq, projectTables_eq]
  exact List.filter_congr fun t _ => by rw [h t]

theorem unifies_congr {listFails : Bool} {fails : UnifyStmt → Bool} {db db' : MainDb ν}
    (h : ∀ t, (db.tables t).map Sheet.columns = (db'.tables t).map Sheet.columns) :
    Unifies listFails fails db ↔ Unifies listFails fails db' := by
  rw [Unifies, Unifies, projectTables_congr h]

end Session


/-! ## Atomic and complete merges -/

section Merge

variable (path : Str) (faults : MergeFaults)

/-- A failed merge leaves no row, and a successful one has copied everything. -/
def AtomicComplete (ms : List (Tables ν)) : Prop :=
  ∀ r db, mergeModules val path faults ms = some (r, db) →
    (r.merged = false → db.Blank) ∧
      (r.merged = true → ∀ m0, ms.head? = some m0 → CompleteMerge val faults.script m0 ms)

/-- Both scripts work. -/
def BothWork (m0 : Tables ν) (ms : List (Tables ν)) (script : List Stmt) : Prop :=
  ScriptWorks faults.script m0 ms script ∧
    Unifies (faults.process .listTables) faults.unify (⟨m0, none⟩ : MainDb ν)

/-- The script does what a merge should do. -/
structure SafeScript (m0 : Tables ν) (ms : List (Tables ν)) (script : List Stmt) : Prop where
  /-- When nothing fails, the first module covers the others. -/
  covered : BothWork faults m0 ms script → Covered m0 ms
  /-- When something fails, no module that brings rows is in a transaction that commits. -/
  undone : ¬ BothWork faults m0 ms script →
    ∀ i < ms.length, Lands m0 faults.script ms i → Undone faults.script ms.length i
  /-- When the second script fails, its row does not stay. -/
  lost : ScriptWorks faults.script m0 ms script → ¬ BothWork faults m0 ms script →
    faults.process .listTables = true ∨ projectTables (⟨m0, none⟩ : MainDb ν) = [] ∨
      ProjectsLost faults.unify faults.unifyStops

/-- The merge gets as far as running its script, and then the script is safe. -/
def SafeMerge : List (Tables ν) → Prop
  | [] => True
  | m0 :: others => preflight faults m0 others = none → faults.process .spawn = false →
      ∀ script, mergeScript m0 (m0 :: others).length = some script →
        SafeScript faults m0 (m0 :: others) script

theorem blank_freshMain : (freshMain ν).Blank :=
  ⟨fun _ _ h => absurd h (by simp [freshMain]), rfl⟩

variable {faults} {m0 : Tables ν} {others : List (Tables ν)}

theorem atomicComplete_unrun (h : ∀ r db, mergeModules val path faults (m0 :: others) = some (r, db) →
    r.merged = false ∧ db = freshMain ν) : AtomicComplete val path faults (m0 :: others) := by
  intro r db hmerge
  obtain ⟨hmerged, rfl⟩ := h r db hmerge
  exact ⟨fun _ => blank_freshMain, fun h => absurd (hmerged.symm.trans h) Bool.false_ne_true⟩

variable {script : List Stmt}

/-- What the merge answers when it runs its script. -/
theorem mergeModules_run (hpreflight : preflight faults m0 others = none)
    (hspawn : faults.process .spawn = false)
    (hscript : mergeScript m0 (m0 :: others).length = some script) :
    mergeModules val path faults (m0 :: others) =
      let (done, s) := run (exec val (m0 :: others)) faults.script false script (startSession ν)
      if done ≠ script then some (failed .sqliteExit, s.conn.durable)
      else
        let (ok, db) := unifyProject val path faults.unifyStops faults.unify
          (faults.process .listTables) s.conn.durable
        some (⟨ok, (existing m0).length, if ok then none else some .unify⟩, db) := by
  rw [mergeModules, hpreflight]
  simp only [hscript, Option.bind_eq_bind, Option.bind_some, hspawn, Bool.false_eq_true, if_false,
    Option.pure_def]
  split
  · rfl
  · cases h : unifyProject val path faults.unifyStops faults.unify (faults.process .listTables)
        (run (exec val (m0 :: others)) faults.script false script (startSession ν)).2.conn.durable with
    | mk ok db =>
        cases ok with
        | false => rfl
        | true => rfl

/-- Rows of the script stay unless each module that brings some is undone. -/
theorem session_rows {fails : Stmt → Bool}
    (hscript : mergeScript m0 (m0 :: others).length = some script) :
    anyRows (run (exec val (m0 :: others)) fails false script
        (startSession ν)).2.conn.durable.tables = false ↔
      ∀ i < (m0 :: others).length, Lands m0 fails (m0 :: others) i →
        Undone fails (m0 :: others).length i := by
  have hdurable := (after_session val fails hscript).durable
  have hrows : (shape (run (exec val (m0 :: others)) fails false script
      (startSession ν)).2).durableRows = anyRows (run (exec val (m0 :: others)) fails false script
        (startSession ν)).2.conn.durable.tables := rfl
  rw [← hrows, ← Bool.not_eq_true, hdurable]
  constructor
  · intro hno i hi hlands
    by_contra hstays
    exact hno ⟨i, hi, hlands, hstays⟩
  · rintro hall ⟨i, hi, hlands, hstays⟩
    exact hstays (hall i hi hlands)

/-- A script that fails. -/
theorem atomic_of_failed (hpreflight : preflight faults m0 others = none)
    (hspawn : faults.process .spawn = false)
    (hscript : mergeScript m0 (m0 :: others).length = some script)
    (hfails : ¬ ScriptWorks faults.script m0 (m0 :: others) script) :
    AtomicComplete val path faults (m0 :: others) ↔
      ∀ i < (m0 :: others).length, Lands m0 faults.script (m0 :: others) i →
        Undone faults.script (m0 :: others).length i := by
  have hdone := fun h => hfails ((script_done_iff val faults.script hscript).mp h)
  have hnone := (session_noProjects val faults.script (m0 :: others) script).2
  have hrun := mergeModules_run val path hpreflight hspawn hscript
  dsimp only at hrun
  rw [if_pos hdone] at hrun
  rw [← session_rows val hscript, AtomicComplete, hrun]
  constructor
  · intro h
    exact ((blank_iff _).mp ((h _ _ rfl).1 rfl)).1
  · rintro hrows r db hmerge
    obtain ⟨rfl, rfl⟩ := Prod.mk.inj (Option.some.inj hmerge)
    exact ⟨fun _ => (blank_iff _).mpr ⟨hrows, by rw [hnone]; rfl⟩, fun h => absurd h (by simp [failed])⟩

section Worked

variable (hpreflight : preflight faults m0 others = none) (hspawn : faults.process .spawn = false)
  {script : List Stmt} (hscript : mergeScript m0 (m0 :: others).length = some script)
  (hworks : ScriptWorks faults.script m0 (m0 :: others) script)
include hpreflight hspawn hscript hworks

omit hpreflight hspawn in
theorem session_unify_ok :
    (unifyProject val path faults.unifyStops faults.unify (faults.process .listTables)
      (run (exec val (m0 :: others)) faults.script false script
        (startSession ν)).2.conn.durable).1 = true ↔
      Unifies (faults.process .listTables) faults.unify (⟨m0, none⟩ : MainDb ν) :=
  (unifyProject_ok_iff val path _ _ _ _ (session_noProjects val _ (m0 :: others) script).2).trans
    (unifies_congr (session_columns val faults.script hscript hworks))

/-- Both scripts work: the merge is complete when the first module covers the others. -/
theorem atomic_of_unified
    (hall : Unifies (faults.process .listTables) faults.unify (⟨m0, none⟩ : MainDb ν)) :
    AtomicComplete val path faults (m0 :: others) ↔ Covered m0 (m0 :: others) := by
  have hdone := (script_done_iff val faults.script hscript).mpr hworks
  have hmerged := (session_unify_ok val path hscript hworks).mpr hall
  have hrun := mergeModules_run val path hpreflight hspawn hscript
  dsimp only at hrun
  rw [if_neg (not_not_intro hdone)] at hrun
  rw [← complete_iff_covered hpreflight hscript hworks.2.2 hdone, AtomicComplete, hrun]
  constructor
  · intro h
    exact (h _ _ rfl).2 hmerged m0 rfl
  · intro hcomplete r db hmerge
    obtain ⟨rfl, rfl⟩ := Prod.mk.inj (Option.some.inj hmerge)
    refine ⟨fun h => absurd (h.symm.trans hmerged) (by simp), fun _ m hm => ?_⟩
    obtain rfl := Option.some.inj hm
    exact hcomplete

/-- Only the first script works: its rows have to be undone, and the row of the second lost. -/
theorem atomic_of_ununified
    (hnot : ¬ Unifies (faults.process .listTables) faults.unify (⟨m0, none⟩ : MainDb ν)) :
    AtomicComplete val path faults (m0 :: others) ↔
      (∀ i < (m0 :: others).length, Lands m0 faults.script (m0 :: others) i →
          Undone faults.script (m0 :: others).length i) ∧
        (faults.process .listTables = true ∨ projectTables (⟨m0, none⟩ : MainDb ν) = [] ∨
          ProjectsLost faults.unify faults.unifyStops) := by
  have hdone := (script_done_iff val faults.script hscript).mpr hworks
  have hcolumns := session_columns val faults.script hscript hworks
  have hfailed := fun h => hnot ((unifies_congr hcolumns).mp h)
  have hmerged := eq_false_of_ne_true
    (fun h => hnot ((session_unify_ok val path hscript hworks).mp h))
  have hrun := mergeModules_run val path hpreflight hspawn hscript
  dsimp only at hrun
  rw [if_neg (not_not_intro hdone)] at hrun
  rw [← session_rows val hscript, ← projectTables_congr hcolumns,
    ← unifyProject_blank_iff val path _ _ _ _ (session_noProjects val _ (m0 :: others) script).2
      hfailed, AtomicComplete, hrun]
  constructor
  · intro h
    exact (h _ _ rfl).1 hmerged
  · intro hblank r db hmerge
    obtain ⟨rfl, rfl⟩ := Prod.mk.inj (Option.some.inj hmerge)
    exact ⟨fun _ => hblank, fun h => absurd (h.symm.trans hmerged) (by simp)⟩

end Worked

theorem safeScript_iff (hpreflight : preflight faults m0 others = none)
    (hspawn : faults.process .spawn = false)
    (hscript : mergeScript m0 (m0 :: others).length = some script) :
    AtomicComplete val path faults (m0 :: others) ↔ SafeScript faults m0 (m0 :: others) script := by
  by_cases hworks : ScriptWorks faults.script m0 (m0 :: others) script
  · by_cases hall : Unifies (faults.process .listTables) faults.unify (⟨m0, none⟩ : MainDb ν)
    · rw [atomic_of_unified val path hpreflight hspawn hscript hworks hall]
      have hboth : BothWork faults m0 (m0 :: others) script := ⟨hworks, hall⟩
      exact ⟨fun h => ⟨fun _ => h, fun hnot => absurd hboth hnot, fun _ hnot => absurd hboth hnot⟩,
        fun h => h.covered hboth⟩
    · rw [atomic_of_ununified val path hpreflight hspawn hscript hworks hall]
      have hnotBoth : ¬ BothWork faults m0 (m0 :: others) script := fun h => hall h.2
      exact ⟨fun h => ⟨fun hboth => absurd hboth hnotBoth, fun _ => h.1, fun _ _ => h.2⟩,
        fun h => ⟨h.undone hnotBoth, h.lost hworks hnotBoth⟩⟩
  · rw [atomic_of_failed val path hpreflight hspawn hscript hworks]
    have hnotBoth : ¬ BothWork faults m0 (m0 :: others) script := fun h => hworks h.1
    exact ⟨fun h => ⟨fun hboth => absurd hboth hnotBoth, fun _ => h,
      fun hw => absurd hw hworks⟩, fun h => h.undone hnotBoth⟩

/-- **A merge is atomic and complete exactly when the script it runs is safe.** -/
theorem merge_atomic_complete_iff (val : Values ν) (path : Str) (faults : MergeFaults)
    (ms : List (Tables ν)) : AtomicComplete val path faults ms ↔ SafeMerge faults ms := by
  cases ms with
  | nil =>
      refine iff_of_true (fun r db h => ?_) trivial
      obtain ⟨rfl, rfl⟩ := Prod.mk.inj (Option.some.inj h)
      exact ⟨fun _ => blank_freshMain, fun h => absurd h (by simp [failed])⟩
  | cons m0 others =>
      rw [SafeMerge]
      cases hpreflight : preflight faults m0 others with
      | some e =>
          refine iff_of_true (atomicComplete_unrun val path fun r db h => ?_) (by simp)
          rw [mergeModules, hpreflight] at h
          obtain ⟨rfl, rfl⟩ := Prod.mk.inj (Option.some.inj h)
          exact ⟨rfl, rfl⟩
      | none =>
          cases hscript : mergeScript m0 (m0 :: others).length with
          | none =>
              refine iff_of_true (atomicComplete_unrun val path fun r db h => ?_) (by simp)
              rw [mergeModules, hpreflight] at h
              simp only [hscript, Option.bind_eq_bind, Option.bind_none] at h
              exact absurd h (by simp)
          | some script =>
              cases hspawn : faults.process .spawn with
              | true =>
                  refine iff_of_true (atomicComplete_unrun val path fun r db h => ?_) (by simp)
                  rw [mergeModules, hpreflight] at h
                  simp only [hscript, Option.bind_eq_bind, Option.bind_some, hspawn, if_true,
                    Option.pure_def, Option.some.injEq, Prod.mk.injEq] at h
                  obtain ⟨rfl, rfl⟩ := h
                  exact ⟨rfl, rfl⟩
              | false =>
                  rw [safeScript_iff val path hpreflight hspawn hscript]
                  simp

end Merge

/-! ## A table that the first module lacks -/

def countValues : Values ℕ := ⟨fun v => v, fun v n => v + n, fun rows => rows.length + 1, fun _ => 1⟩

def noFaults : MergeFaults := ⟨fun _ => false, fun _ => false, fun _ => false, false⟩

def numbered (rows : List (List ℕ)) : Sheet ℕ where
  columns := [Column.id.name, Column.projectId.name]
  plain := by decide
  clashes a b := a = b
  rows := rows

def withoutAdjacency : Tables ℕ := fun t =>
  if t ∈ offsetTables then some (numbered [[1, 1]]) else none

def withAdjacency : Tables ℕ := fun t =>
  if t ∈ offsetTables then some (numbered [[1, 2]])
  else if t = .adjacency then some (numbered [[7, 2]]) else none

/-- The adjacency rows of the second module are lost, and the merge is reported as successful. -/
theorem adjacency_dropped :
    ¬ AtomicComplete countValues (str "/repo") noFaults [withoutAdjacency, withAdjacency] := by
  intro h
  have hmerged : (mergeModules countValues (str "/repo") noFaults
      [withoutAdjacency, withAdjacency]).map (·.1.merged) = some true := by
    decide +kernel
  obtain ⟨⟨r, db⟩, hmerge, hr⟩ := Option.map_eq_some_iff.mp hmerged
  obtain ⟨script, _, hcopied⟩ := (h r db hmerge).2 hr withoutAdjacency rfl
  obtain ⟨_, _, target, htarget, _⟩ := hcopied 1 .adjacency (numbered [[7, 2]]) rfl
  exact absurd htarget (by simp [withoutAdjacency, offsetTables])

end CodeScope.Merge
