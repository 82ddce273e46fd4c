import CodeScope.Merge.ScriptShape

/-! # Making the merged database one project

`unify_project` runs in one transaction, but not every failure ends it: where the shell goes on
after a failing statement, the `projects` row is durable although the merge is reported as failed.
Whatever happens, the merged rows stay. -/

namespace CodeScope.Merge

open Text Script Connection

variable {ν : Type}

/-! ## Rows -/

/-- Rows in the main database, in the transaction and durably. -/
def RowsAre (r : Bool) (c : Conn (MainDb ν)) : Prop :=
  anyRows c.view.tables = r ∧ anyRows c.durable.tables = r

theorem RowsAre.write {r : Bool} {c : Conn (MainDb ν)} (h : RowsAre r c)
    {f : MainDb ν → MainDb ν} (hf : anyRows (f c.view).tables = r) : RowsAre r (c.write f) := by
  refine ⟨by rw [Conn.view_write]; exact hf, ?_⟩
  rw [Conn.durable_write]
  split
  · exact h.2
  · exact hf

theorem hasRows_unifySheet (val : Values ν) (sheet : Sheet ν) :
    (unifySheet val sheet).hasRows = sheet.hasRows := by
  rw [Sheet.hasRows, Sheet.hasRows, unifySheet, List.isEmpty_map]

/-- No statement of the script adds or removes a merged row. -/
theorem unifyExec_rows {val : Values ν} {path : Str} {stmt : UnifyStmt} {r : Bool}
    {c c' : Conn (MainDb ν)} (h : RowsAre r c) (hexec : unifyExec val path stmt c = some c') :
    RowsAre r c' := by
  cases stmt with
  | begin =>
      rw [unifyExec] at hexec
      split at hexec
      · exact absurd hexec (by simp)
      · rename_i hclosed
        obtain rfl := Option.some.inj hexec
        rw [Conn.begin_closed c (by simpa using hclosed)]
        exact ⟨h.1, h.2⟩
  | createProjects =>
      obtain rfl := Option.some.inj hexec
      exact h.write h.1
  | deleteProjects | insertProject =>
      simp only [unifyExec, Option.bind_eq_bind, Option.bind_eq_some_iff, Option.pure_def,
        Option.some.injEq] at hexec
      obtain ⟨_, _, rfl⟩ := hexec
      exact h.write h.1
  | update t =>
      simp only [unifyExec, Option.bind_eq_bind, Option.bind_eq_some_iff, Option.pure_def,
        Option.some.injEq] at hexec
      obtain ⟨sheet, hsheet, _, _, rfl⟩ := hexec
      refine h.write ?_
      rw [anyRows_update c.view.tables t (unifySheet val sheet) false
        (by rw [hasRows_unifySheet, hsheet, Option.any_some, Bool.or_false]), Bool.or_false]
      exact h.1
  | commit =>
      rw [unifyExec] at hexec
      split at hexec
      · rename_i hopen
        obtain rfl := Option.some.inj hexec
        rw [Conn.commit_opened c hopen]
        exact ⟨h.1, h.1⟩
      · exact absurd hexec (by simp)

/-! ## The projects table -/

/-- A table has a column for the project. -/
def hasProject (columns : Option (List Str)) : Bool :=
  columns.any fun cols => Column.projectId.name ∈ cols

/-- What of a connection decides the course of the script. -/
structure Track where
  opened : Bool
  view : Option (List ProjectRow)
  durable : Option (List ProjectRow)
  columns : Table → Option (List Str)

def Track.put (tr : Track) (projects : List ProjectRow) : Track :=
  { tr with view := some projects, durable := if tr.opened then tr.durable else some projects }

def trackExec (path : Str) : UnifyStmt → Track → Option Track
  | .begin, tr => if tr.opened then none else some { tr with opened := true }
  | .createProjects, tr => some (tr.put (tr.view.getD []))
  | .deleteProjects, tr => if tr.view.isSome then some (tr.put []) else none
  | .insertProject, tr =>
      tr.view.map fun projects => tr.put (projects ++ [⟨1, path, projectName path⟩])
  | .update t, tr => if hasProject (tr.columns t) then some tr else none
  | .commit, tr => if tr.opened then some { tr with opened := false, durable := tr.view } else none

def track (c : Conn (MainDb ν)) : Track where
  opened := c.txn.isSome
  view := c.view.projects
  durable := c.durable.projects
  columns t := (c.view.tables t).map Sheet.columns

theorem track_write (c : Conn (MainDb ν)) (projects : MainDb ν → List ProjectRow) :
    track (c.write fun db => { db with projects := some (projects db) }) =
      (track c).put (projects c.view) := by
  rw [track, Conn.view_write, Conn.durable_write, Conn.txn_write, Track.put]
  congr 1
  rw [apply_ite MainDb.projects]
  rfl

/-- **The script runs on tracks as it runs on connections.** -/
theorem track_exec (val : Values ν) (path : Str) (stmt : UnifyStmt) (c : Conn (MainDb ν)) :
    (unifyExec val path stmt c).map track = trackExec path stmt (track c) := by
  have hopened : (track c).opened = c.txn.isSome := rfl
  have hview : (track c).view = c.view.projects := rfl
  cases stmt with
  | begin =>
      rw [unifyExec, trackExec, hopened]
      cases hopen : c.txn.isSome with
      | true => rfl
      | false =>
          simp only [Bool.false_eq_true, if_false, Option.map_some, Conn.begin_closed c hopen]
          rfl
  | createProjects => exact congrArg some (track_write c fun db => db.projects.getD [])
  | deleteProjects =>
      rw [unifyExec, trackExec, hview]
      cases hprojects : c.view.projects with
      | none => rfl
      | some projects => exact congrArg some (track_write c fun _ => [])
  | insertProject =>
      rw [unifyExec, trackExec, hview]
      cases hprojects : c.view.projects with
      | none => rfl
      | some projects =>
          exact congrArg some
            (track_write c fun _ => projects ++ [⟨1, path, projectName path⟩])
  | update t =>
      have hcolumns : (track c).columns t = (c.view.tables t).map Sheet.columns := rfl
      rw [unifyExec, trackExec, hcolumns, hasProject, Option.any_map]
      cases hsheet : c.view.tables t with
      | none => rfl
      | some sheet =>
          simp only [Option.bind_eq_bind, Option.bind_some, guard, Option.any_some,
            decide_eq_true_eq]
          by_cases hproject : Column.projectId.name ∈ sheet.columns
          · rw [if_pos hproject, if_pos hproject]
            simp only [Option.pure_def, Option.bind_some, Option.map_some, Option.some.injEq]
            rw [track, Conn.view_write, Conn.durable_write, Conn.txn_write, track]
            congr 1
            · rw [apply_ite MainDb.projects]
              split
              · rfl
              · rename_i hclosed
                have hsame : c.view.projects = c.durable.projects := by
                  rw [c.view_closed hclosed]
                exact hsame
            · funext u
              by_cases hu : u = t
              · subst hu
                simp only [Function.update_self, Option.map_some, hsheet]
                rfl
              · simp only [Function.update_of_ne hu]
          · rw [if_neg hproject, if_neg hproject]
            rfl
  | commit =>
      rw [unifyExec, trackExec, hopened]
      cases hopen : c.txn.isSome with
      | false => rfl
      | true =>
          simp only [if_true, Option.map_some, Conn.commit_opened c hopen]
          rfl

/-! ## Runs -/

section Runs

variable (path : Str) (fails : UnifyStmt → Bool)

/-- A fresh main database after the merge, seen by the second script. -/
def startTrack (columns : Table → Option (List Str)) : Track := ⟨false, none, none, columns⟩

/-- The `projects` row is not durable when the second script fails: the shell stops, or the row is
    not written, or it is in a transaction that no `COMMIT` ends. -/
def ProjectsLost (stops : Bool) : Prop :=
  stops = true ∨ fails .createProjects = true ∨ fails .insertProject = true ∨
    fails .begin = false ∧ fails .commit = true

theorem step_update (tr : Track) (t : Table) :
    step (trackExec path) fails tr (.update t) = tr := by
  rw [step, attempt, trackExec]
  split
  · rfl
  · split <;> rfl

theorem final_updates (tables : List Table) (tr : Track) :
    final (trackExec path) fails (tables.map .update) tr = tr := by
  rw [final_eq_foldl]
  induction tables with
  | nil => rfl
  | cons t tables ih => rw [List.map_cons, List.foldl_cons, step_update, ih]

theorem unifyScript_eq (tables : List Table) : unifyScript tables =
    [UnifyStmt.begin] ++ ([UnifyStmt.createProjects, .deleteProjects, .insertProject] ++
      (tables.map UnifyStmt.update ++ [UnifyStmt.commit])) := rfl

/-- **When the second script completes.** -/
theorem completes_unify_iff (columns : Table → Option (List Str)) {tables : List Table}
    (htables : ∀ t ∈ tables, hasProject (columns t) = true) :
    Completes (trackExec path) fails (unifyScript tables) (startTrack columns) ↔
      ∀ stmt ∈ unifyScript tables, fails stmt = false := by
  refine ⟨fun h stmt hmem => h.works hmem, fun h => ?_⟩
  have hbegin : fails .begin = false := h _ (by simp [unifyScript])
  have hcreate : fails .createProjects = false := h _ (by simp [unifyScript])
  have hdelete : fails .deleteProjects = false := h _ (by simp [unifyScript])
  have hinsert : fails .insertProject = false := h _ (by simp [unifyScript])
  have hcommit : fails .commit = false := h _ (by simp [unifyScript])
  have hsingle : ∀ stmt tr, final (trackExec path) fails [stmt] tr =
      step (trackExec path) fails tr stmt := fun stmt tr => final_eq_foldl [stmt] tr
  have hupdates : ∀ tr : Track, tr.columns = columns →
      Completes (trackExec path) fails (tables.map .update) tr := by
    intro tr hcolumns
    have hfail : ∀ t ∈ tables, fails (.update t) = false := fun t ht => h _ (by
      simp [unifyScript, ht])
    clear h
    induction tables with
    | nil => exact completes_nil
    | cons t tables ih =>
        rw [List.map_cons, completes_cons_iff, completes_single_iff, hsingle, step_update]
        refine ⟨⟨hfail t List.mem_cons_self, ?_⟩,
          ih (fun u hu => htables u (List.mem_cons_of_mem _ hu))
            fun u hu => hfail u (List.mem_cons_of_mem _ hu)⟩
        rw [trackExec, hcolumns, if_pos (htables t List.mem_cons_self)]
        rfl
  rw [unifyScript_eq, completes_append_iff, completes_single_iff, completes_append_iff,
    completes_cons_iff, completes_single_iff, completes_cons_iff, completes_single_iff,
    completes_single_iff, completes_append_iff, completes_single_iff, final_updates]
  simp only [final_eq_foldl, List.foldl_cons, List.foldl_nil, step, attempt, hbegin, hcreate,
    hdelete, hinsert, hcommit, trackExec, startTrack, Track.put]
  exact ⟨⟨trivial, rfl⟩, ⟨⟨trivial, rfl⟩, ⟨trivial, rfl⟩, trivial, rfl⟩, hupdates _ rfl, trivial,
    rfl⟩

theorem durable_projects_going_on (columns : Table → Option (List Str)) (tables : List Table) :
    ((final (trackExec path) fails (unifyScript tables) (startTrack columns)).durable).getD [] = [] ↔
      fails .createProjects = true ∨ fails .insertProject = true ∨
        fails .begin = false ∧ fails .commit = true := by
  rw [unifyScript_eq, final_append, final_append, final_append, final_updates]
  simp only [final_eq_foldl, List.foldl_cons, List.foldl_nil, step, attempt, trackExec]
  cases fails .begin <;> cases fails .createProjects <;> cases fails .deleteProjects <;>
    cases fails .insertProject <;> cases fails .commit <;> simp [startTrack, Track.put]

/-- Stopping at a failure, the row is never durable. -/
theorem durable_projects_stopping (columns : Table → Option (List Str)) (tables : List Table)
    (hfailed : (run (trackExec path) fails true (unifyScript tables) (startTrack columns)).1 ≠
      unifyScript tables) :
    (run (trackExec path) fails true (unifyScript tables) (startTrack columns)).2.durable = none := by
  let middle : List UnifyStmt :=
    .createProjects :: .deleteProjects :: .insertProject :: tables.map .update
  let begun : Track := { startTrack columns with opened := true }
  have hscript : unifyScript tables = .begin :: (middle ++ [.commit]) := rfl
  rw [hscript] at hfailed ⊢
  cases hbegin : attempt (trackExec path) fails .begin (startTrack columns) with
  | none =>
      simp only [run, hbegin, if_true]
      rfl
  | some tr =>
      have hbegun : tr = begun := by
        rw [attempt] at hbegin
        split at hbegin
        · exact absurd hbegin (by simp)
        · exact (Option.some.inj hbegin).symm
      subst hbegun
      rw [run_cons_some true hbegin] at hfailed ⊢
      have hopen : ∀ stmts : List UnifyStmt, .commit ∉ stmts →
          (run (trackExec path) fails true stmts begun).2.opened = true ∧
            (run (trackExec path) fails true stmts begun).2.durable = none := by
        intro stmts hno
        refine run_invariant (P := fun tr : Track => tr.opened = true ∧ tr.durable = none) true
          ⟨rfl, rfl⟩ ?_
        rintro stmt hmem tr tr' ⟨hopened, hdurable⟩ hexec
        have hput : ∀ projects, (tr.put projects).opened = true ∧
            (tr.put projects).durable = none := fun projects =>
          ⟨hopened, by rw [Track.put, hopened]; exact hdurable⟩
        cases stmt with
        | begin => simp [trackExec, hopened] at hexec
        | createProjects =>
            obtain rfl := Option.some.inj hexec
            exact hput _
        | deleteProjects =>
            rw [trackExec] at hexec
            split at hexec
            · obtain rfl := Option.some.inj hexec
              exact hput _
            · exact absurd hexec (by simp)
        | insertProject =>
            obtain ⟨projects, _, rfl⟩ := Option.map_eq_some_iff.mp hexec
            exact hput _
        | update t =>
            rw [trackExec] at hexec
            split at hexec
            · obtain rfl := Option.some.inj hexec
              exact ⟨hopened, hdurable⟩
            · exact absurd hexec (by simp)
        | commit => exact absurd hmem hno
      have hmiddle := hopen middle (by simp [middle])
      by_cases hall : (run (trackExec path) fails true middle begun).1 = middle
      · rw [run_append_complete hall] at hfailed ⊢
        cases hcommit : attempt (trackExec path) fails .commit
            (run (trackExec path) fails true middle begun).2 with
        | none =>
            simp only [run, hcommit, if_true]
            exact hmiddle.2
        | some tr =>
            rw [run_cons_some true hcommit] at hfailed
            exact absurd rfl hfailed
      · rw [run_append_incomplete hall]
        exact hmiddle.2

end Runs

/-! ## The outcome -/

theorem blank_iff (db : MainDb ν) :
    db.Blank ↔ anyRows db.tables = false ∧ db.projects.getD [] = [] := by
  refine and_congr_left fun _ => ?_
  rw [anyRows, List.any_eq_false]
  constructor
  · intro h t _ hrows
    obtain ⟨sheet, hsheet, hne⟩ := (Option.any_eq_true _ _).mp hrows
    rw [Sheet.hasRows, h t sheet hsheet] at hne
    exact absurd hne (by simp)
  · intro h t sheet hsheet
    have hno := h t (tablesByName_complete t)
    rw [hsheet, Option.any_some, Sheet.hasRows] at hno
    simpa using hno

theorem projectTables_eq (db : MainDb ν) : projectTables db =
    tablesByName.filter fun t => hasProject ((db.tables t).map Sheet.columns) := by
  rw [projectTables]
  refine List.filter_congr fun t _ => ?_
  rw [hasProject, Option.any_map]

section Outcome

variable (val : Values ν) (path : Str) (stops listFails : Bool) (fails : UnifyStmt → Bool)
  (db : MainDb ν)

/-- The second script makes one project of the main database. -/
def Unifies : Prop :=
  listFails = false ∧ projectTables db ≠ [] ∧
    ∀ stmt ∈ unifyScript (projectTables db), fails stmt = false

theorem run_track (hprojects : db.projects = none) (script : List UnifyStmt) :
    run (trackExec path) fails stops script
        (startTrack fun t => (db.tables t).map Sheet.columns) =
      ((run (unifyExec val path) fails stops script (Conn.idle db)).1,
        track (run (unifyExec val path) fails stops script (Conn.idle db)).2) := by
  have hstart : track (Conn.idle db) = startTrack fun t => (db.tables t).map Sheet.columns := by
    rw [track, startTrack]
    congr 1
  rw [← hstart]
  exact run_map (track_exec val path) stops script (Conn.idle db)

theorem unify_done_iff (hprojects : db.projects = none) :
    (run (unifyExec val path) fails stops (unifyScript (projectTables db)) (Conn.idle db)).1 =
        unifyScript (projectTables db) ↔
      ∀ stmt ∈ unifyScript (projectTables db), fails stmt = false := by
  have htrack := run_track val path stops fails db hprojects (unifyScript (projectTables db))
  have htables : ∀ t ∈ projectTables db, hasProject ((db.tables t).map Sheet.columns) = true := by
    intro t ht
    rw [projectTables_eq] at ht
    exact (List.mem_filter.mp ht).2
  have hdone := congrArg Prod.fst htrack
  rw [← completes_unify_iff path fails _ htables, ← run_complete_iff_completes stops, hdone]

theorem unifyProject_ok_iff (hprojects : db.projects = none) :
    (unifyProject val path stops fails listFails db).1 = true ↔ Unifies listFails fails db := by
  rw [unifyProject, Unifies]
  split
  · rename_i hlist
    exact iff_of_false Bool.false_ne_true fun h => absurd (hlist.symm.trans h.1) (by simp)
  · rename_i hlist
    dsimp only
    split
    · rename_i hnone
      exact iff_of_false Bool.false_ne_true fun h => h.2.1 hnone
    · rename_i hsome
      rw [decide_eq_true_eq, unify_done_iff val path stops fails db hprojects]
      exact ⟨fun h => ⟨by simpa using hlist, hsome, h⟩, fun h => h.2.2⟩

/-- **What a failed unification leaves**: the merged rows always, and the `projects` row unless it
    is lost. -/
theorem unifyProject_blank_iff (hprojects : db.projects = none)
    (hfailed : ¬ Unifies listFails fails db) :
    (unifyProject val path stops fails listFails db).2.Blank ↔ anyRows db.tables = false ∧
      (listFails = true ∨ projectTables db = [] ∨ ProjectsLost fails stops) := by
  rw [unifyProject]
  split
  · rename_i hlist
    rw [blank_iff, hprojects]
    exact and_congr_right fun _ => iff_of_true rfl (Or.inl hlist)
  · rename_i hlist
    dsimp only
    split
    · rename_i hnone
      rw [blank_iff, hprojects]
      exact and_congr_right fun _ => iff_of_true rfl (Or.inr (Or.inl hnone))
    · rename_i hsome
      have hnot : ¬ ∀ stmt ∈ unifyScript (projectTables db), fails stmt = false :=
        fun h => hfailed ⟨by simpa using hlist, hsome, h⟩
      have hrows : RowsAre (anyRows db.tables)
          (run (unifyExec val path) fails stops (unifyScript (projectTables db))
            (Conn.idle db)).2 :=
        run_invariant stops ⟨rfl, rfl⟩ fun _ _ _ _ h hexec => unifyExec_rows h hexec
      have htrack := run_track val path stops fails db hprojects (unifyScript (projectTables db))
      have hdone := congrArg Prod.fst htrack
      have hdurable := congrArg (fun r : List UnifyStmt × Track => r.2.durable) htrack
      rw [blank_iff, hrows.2, or_iff_right hlist, or_iff_right hsome]
      refine and_congr_right fun _ => ?_
      have hview : (run (unifyExec val path) fails stops (unifyScript (projectTables db))
          (Conn.idle db)).2.durable.projects = _ := hdurable.symm
      rw [hview, ProjectsLost]
      cases stops with
      | false =>
          rw [or_iff_right Bool.false_ne_true]
          exact durable_projects_going_on path fails _ _
      | true =>
          have hfirst : (run (trackExec path) fails true (unifyScript (projectTables db))
              (startTrack fun t => (db.tables t).map Sheet.columns)).1 ≠
                unifyScript (projectTables db) := by
            intro h
            exact hnot ((unify_done_iff val path true fails db hprojects).mp (hdone.symm.trans h))
          rw [durable_projects_stopping path fails _ _ hfirst]
          exact iff_of_true rfl (Or.inl rfl)

end Outcome

end CodeScope.Merge
