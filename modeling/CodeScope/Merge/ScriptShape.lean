import CodeScope.Merge.MergeScript

/-! # The shape of a merge session

Whether a statement of the merge script can be executed, and whether it leaves rows in the main
database, depends on little of a session: the columns of the tables, whether a transaction is open,
whether there are rows, whether `_offsets` exists and what is attached. `shape` keeps that, and the
script runs on shapes as it runs on sessions. -/

namespace CodeScope.Merge

open Text Connection

/-- What of a session decides its further course. -/
structure Shape where
  columns : Table → Option (List Str)
  opened : Bool
  viewRows : Bool
  durableRows : Bool
  offsets : Bool
  attached : List ℕ

/-- A column list has an `id`. -/
def hasId (columns : Option (List Str)) : Bool := columns.any fun cols => Column.id.name ∈ cols

/-- Rows arrive in the main database. -/
def Shape.addRows (sh : Shape) (some_ : Bool) : Shape :=
  { sh with
    viewRows := sh.viewRows || some_
    durableRows := if sh.opened then sh.durableRows else sh.viewRows || some_ }

section

variable {ν : Type}

/-- A table of a module database. -/
def sourceOf (ms : List (Tables ν)) (i : ℕ) (t : Table) : Option (Sheet ν) := ms[i]?.bind (· t)

def Sheet.hasRows (sheet : Sheet ν) : Bool := !sheet.rows.isEmpty

/-- Some table has rows. -/
def anyRows (tables : Tables ν) : Bool :=
  tablesByName.any fun t => (tables t).any Sheet.hasRows

def shape (s : Session ν) : Shape where
  columns t := (s.view.tables t).map Sheet.columns
  opened := s.conn.txn.isSome
  viewRows := anyRows s.view.tables
  durableRows := anyRows s.conn.durable.tables
  offsets := s.offsets.isSome
  attached := s.attached

variable (ms : List (Tables ν))

/-- The columns an INSERT reads and those it writes fit together. -/
def fitsInsert (i : ℕ) (t : Table) (sh : Shape) (fit : List Str → List Str → Bool) : Bool :=
  decide (i ∈ sh.attached) && (sourceOf ms i t).any fun source =>
    (sh.columns t).any fun target => fit source.columns target

/-- The statement can be executed. -/
def canRun : Stmt → Shape → Bool
  | .pragma _, _ => true
  | .begin _, sh => !sh.opened
  | .createTable t, sh => (sourceOf ms 0 t).isSome && (sh.columns t).isNone
  | .attach i, sh => i < ms.length && decide (i ∉ sh.attached)
  | .createOffsets _, sh => !sh.offsets && offsetTables.all fun t => hasId (sh.columns t)
  | .insertAll i t, sh => fitsInsert ms i t sh fun source target => source.length = target.length
  | .insertColumns i t cols, sh => fitsInsert ms i t sh fun source target =>
      cols.all fun c => c ∈ source && c ∈ target
  | .insertRemapped i t cols, sh => fitsInsert ms i t sh fun source target =>
      decide (cols.length = target.length) && cols.all (· ∈ source) &&
        (!cols.any (fun c => (offsetSource t c).isSome) || sh.offsets)
  | .dropOffsets _, sh => sh.offsets
  | .commit _, sh => sh.opened
  | .detach i, sh => decide (i ∈ sh.attached) && !sh.opened
  | .count tables, sh => tables.all fun t => (sh.columns t).isSome

/-- The rows that the INSERT of a table finds. -/
def rowsOf (i : ℕ) (t : Table) : Bool := (sourceOf ms i t).any Sheet.hasRows

/-- What the statement does to the shape. -/
def effect : Stmt → Shape → Shape
  | .pragma _, sh => sh
  | .begin _, sh => { sh with opened := true }
  | .createTable t, sh =>
      { sh with columns := Function.update sh.columns t ((sourceOf ms 0 t).map Sheet.columns) }
  | .attach i, sh => { sh with attached := i :: sh.attached }
  | .createOffsets _, sh => { sh with offsets := true }
  | .insertAll i t, sh => sh.addRows (rowsOf ms i t)
  | .insertColumns i t _, sh => sh.addRows (rowsOf ms i t)
  | .insertRemapped i t _, sh => sh.addRows (rowsOf ms i t)
  | .dropOffsets _, sh => { sh with offsets := false }
  | .commit _, sh => { sh with opened := false, durableRows := sh.viewRows }
  | .detach i, sh => { sh with attached := sh.attached.erase i }
  | .count _, sh => sh

def shapeExec (stmt : Stmt) (sh : Shape) : Option Shape :=
  if canRun ms stmt sh then some (effect ms stmt sh) else none

/-! ## The shape of what the statements do -/

theorem insertOrIgnore_eq_nil_iff (clashes : List ν → List ν → Bool) (rows : List (List ν))
    (row : List ν) : insertOrIgnore clashes rows row ≠ [] := by
  rw [insertOrIgnore]
  split
  · rename_i hany
    obtain ⟨r, hr, _⟩ := List.any_eq_true.mp hany
    exact List.ne_nil_of_mem hr
  · simp

/-- After an INSERT there are rows when there were some or some were selected. -/
theorem hasRows_insertSelect (val : Values ν) (pairs : List (Str × Str)) (move : Str → ν → ν)
    (source target : Sheet ν) :
    (insertSelect val pairs move source target).hasRows = (target.hasRows || source.hasRows) := by
  have hfold : ∀ (place : List (List ν) → List ν → List ν) (selected rows : List (List ν)),
      (selected.foldl (fun rows row => insertOrIgnore target.clashes rows (place rows row))
        rows).isEmpty = (rows.isEmpty && selected.isEmpty) := by
    intro place selected
    induction selected with
    | nil => intro rows; simp
    | cons row rest ih =>
        intro rows
        have hne := insertOrIgnore_eq_nil_iff target.clashes rows (place rows row)
        rw [List.foldl_cons, ih]
        simp [hne]
  rw [Sheet.hasRows, insertSelect]
  simp only [hfold, Bool.not_and]
  rfl

theorem tablesByName_complete (t : Table) : t ∈ tablesByName := by
  cases t <;> decide

/-- Replacing a table adds the rows it did not have. -/
theorem anyRows_update (tables : Tables ν) (t : Table) (sheet : Sheet ν) (more : Bool)
    (h : sheet.hasRows = ((tables t).any Sheet.hasRows || more)) :
    anyRows (Function.update tables t (some sheet)) = (anyRows tables || more) := by
  rw [Bool.eq_iff_iff, Bool.or_eq_true, anyRows, anyRows, List.any_eq_true, List.any_eq_true]
  constructor
  · rintro ⟨u, hu, hrows⟩
    by_cases htu : u = t
    · subst htu
      rw [Function.update_self, Option.any_some, h, Bool.or_eq_true] at hrows
      exact hrows.imp_left fun hold => ⟨u, hu, hold⟩
    · rw [Function.update_of_ne htu] at hrows
      exact Or.inl ⟨u, hu, hrows⟩
  · rintro (⟨u, hu, hrows⟩ | hmore)
    · by_cases htu : u = t
      · subst htu
        refine ⟨u, hu, ?_⟩
        rw [Function.update_self, Option.any_some, h, hrows, Bool.true_or]
      · refine ⟨u, hu, ?_⟩
        rw [Function.update_of_ne htu]
        exact hrows
    · refine ⟨t, tablesByName_complete t, ?_⟩
      rw [Function.update_self, Option.any_some, h, hmore, Bool.or_true]

/-- A table put into the main database. -/
theorem shape_putTable (s : Session ν) (t : Table) (sheet : Sheet ν) (more : Bool)
    (h : sheet.hasRows = ((s.view.tables t).any Sheet.hasRows || more)) :
    shape (s.putTable t sheet) =
      { (shape s).addRows more with
        columns := Function.update (shape s).columns t (some sheet.columns) } := by
  have hview : (s.putTable t sheet).view =
      { s.view with tables := Function.update s.view.tables t (some sheet) } :=
    Conn.view_write _ _
  have hrows : anyRows (s.putTable t sheet).view.tables = (anyRows s.view.tables || more) := by
    rw [hview]
    exact anyRows_update s.view.tables t sheet more h
  have hdurable : anyRows (s.putTable t sheet).conn.durable.tables =
      if s.conn.txn.isSome then anyRows s.conn.durable.tables
      else anyRows s.view.tables || more := by
    rw [Session.putTable, Conn.durable_write]
    split
    · rfl
    · exact anyRows_update s.view.tables t sheet more h
  have hcolumns : (fun u => ((s.putTable t sheet).view.tables u).map Sheet.columns) =
      Function.update (fun u => (s.view.tables u).map Sheet.columns) t (some sheet.columns) := by
    funext u
    rw [hview]
    by_cases hu : u = t
    · subst hu
      simp only [Function.update_self, Option.map_some]
    · simp only [Function.update_of_ne hu]
  have hopened : (s.putTable t sheet).conn.txn.isSome = s.conn.txn.isSome := Conn.txn_write _ _
  rw [shape, hcolumns, hrows, hdurable, hopened]
  rfl

theorem shape_insert (val : Values ν) (s : Session ν) (t : Table) (pairs : List (Str × Str))
    (move : Str → ν → ν) {source target : Sheet ν} (htarget : s.view.tables t = some target) :
    shape (s.putTable t (insertSelect val pairs move source target)) =
      (shape s).addRows source.hasRows := by
  have hsame : Function.update (shape s).columns t (some target.columns) = (shape s).columns := by
    have hhere : (shape s).columns t = some target.columns := congrArg (Option.map _) htarget
    rw [← hhere, Function.update_eq_self]
  rw [shape_putTable s t _ source.hasRows
    (by rw [hasRows_insertSelect, htarget]; rfl)]
  have hcolumns : (insertSelect val pairs move source target).columns = target.columns := rfl
  rw [hcolumns, hsame]
  rfl

theorem endpoints_eq (s : Session ν) (i : ℕ) (t : Table) :
    endpoints ms s i t = if i ∈ s.attached then
      (sourceOf ms i t).bind fun source => (s.view.tables t).map fun target => (source, target)
      else none := by
  rw [endpoints, sourceOf]
  by_cases hi : i ∈ s.attached
  · simp only [guard, if_pos hi, Option.bind_eq_bind, Option.pure_def, Option.bind_some,
      Option.bind_assoc, Option.map_eq_bind]
    rfl
  · simp only [guard, if_neg hi]
    rfl

/-- The three INSERT statements are executed alike. -/
theorem shape_insertWith (val : Values ν) (s : Session ν) (i : ℕ) (t : Table)
    (fit : List Str → List Str → Bool) (pairs : Sheet ν → Sheet ν → List (Str × Str))
    (move : Str → ν → ν) :
    ((endpoints ms s i t).bind fun st =>
        if fit st.1.columns st.2.columns then
          some (s.putTable t (insertSelect val (pairs st.1 st.2) move st.1 st.2))
        else none).map shape =
      if fitsInsert ms i t (shape s) fit then some ((shape s).addRows (rowsOf ms i t)) else none := by
  have hattached : (shape s).attached = s.attached := rfl
  have hcolumns : (shape s).columns t = (s.view.tables t).map Sheet.columns := rfl
  rw [endpoints_eq, fitsInsert, rowsOf, hattached, hcolumns]
  by_cases hi : i ∈ s.attached
  · rw [if_pos hi, decide_eq_true hi, Bool.true_and]
    cases hsource : sourceOf ms i t with
    | none => rfl
    | some source =>
        cases htarget : s.view.tables t with
        | none => rfl
        | some target =>
            simp only [Option.bind_some, Option.map_some, Option.any_some]
            by_cases hfit : fit source.columns target.columns = true
            · rw [if_pos hfit, if_pos hfit, Option.map_some, shape_insert val s t _ _ htarget]
            · rw [if_neg hfit, if_neg hfit]
              rfl
  · rw [if_neg hi, decide_eq_false hi, Bool.false_and]
    rfl

theorem map_guarded {σ τ : Type} {f : σ → τ} {can : Prop} [Decidable can] {b : Bool} {s : σ} {t : τ}
    (hcan : b = decide can) (hstate : can → f s = t) :
    (if can then some s else none).map f = if b = true then some t else none := by
  rw [hcan]
  by_cases h : can
  · rw [if_pos h, decide_eq_true h, Option.map_some, hstate h, if_pos rfl]
  · rw [if_neg h, decide_eq_false h, if_neg Bool.false_ne_true, Option.map_none]

/-- **The script runs on shapes as it runs on sessions.** -/
theorem shape_exec (val : Values ν) (stmt : Stmt) (s : Session ν) :
    (exec val ms stmt s).map shape = shapeExec ms stmt (shape s) := by
  cases stmt with
  | pragma p => rfl
  | begin i =>
      rw [exec, shapeExec, canRun]
      have hopened : (shape s).opened = s.conn.txn.isSome := rfl
      rw [hopened]
      cases hopen : s.conn.txn.isSome with
      | true => rfl
      | false =>
          simp only [Bool.not_false, if_true, Bool.false_eq_true, if_false, Option.map_some,
            Conn.begin_closed s.conn hopen]
          rfl
  | createTable t =>
      have hsource : sourceOf ms 0 t = ms.head?.bind (· t) := by
        rw [sourceOf, List.head?_eq_getElem?]
      have hcolumns : (shape s).columns t = (s.view.tables t).map Sheet.columns := rfl
      simp only [exec, shapeExec, canRun, effect, hsource, hcolumns, Option.isNone_map]
      cases hhead : ms.head?.bind (· t) with
      | none =>
          cases hm : ms.head? with
          | none => rfl
          | some m =>
              have hnone : m t = none := by rwa [hm] at hhead
              simp only [Option.bind_eq_bind, Option.bind_some, hnone]
              rfl
      | some sheet =>
          obtain ⟨m, hm, hsheet⟩ := Option.bind_eq_some_iff.mp hhead
          simp only [hm, hsheet, Option.bind_eq_bind, Option.bind_some, Option.isSome_some,
            Bool.true_and, guard]
          by_cases hview : (s.view.tables t).isNone
          · have hempty : (s.view.tables t).any Sheet.hasRows = false := by
              rw [Option.isNone_iff_eq_none.mp hview]
              rfl
            rw [if_pos hview, if_pos hview]
            simp only [Option.pure_def, Option.bind_some, Option.map_some]
            rw [shape_putTable s t _ false (by rw [hempty]; rfl), Shape.addRows, Bool.or_false]
            have hdurable : (if (shape s).opened then (shape s).durableRows else (shape s).viewRows) =
                (shape s).durableRows := by
              split
              · rfl
              · rename_i hclosed
                exact congrArg (fun db => anyRows db.tables) (s.conn.view_closed hclosed)
            rw [hdurable]
          · rw [if_neg hview, if_neg hview]
            rfl
  | attach i =>
      rw [exec, shapeExec, canRun]
      have hcan : (decide (i < ms.length) && decide (i ∉ (shape s).attached)) =
          decide (i < ms.length ∧ i ∉ s.attached) := (Bool.decide_and _ _).symm
      exact map_guarded hcan fun _ => rfl
  | createOffsets i =>
      rw [exec, shapeExec, canRun]
      have hcan : (!(shape s).offsets && offsetTables.all fun t => hasId ((shape s).columns t)) =
          decide (s.offsets.isNone ∧ ∀ t ∈ offsetTables,
            (s.view.tables t).any fun sheet => Column.id.name ∈ sheet.columns) := by
        rw [Bool.eq_iff_iff, Bool.and_eq_true, decide_eq_true_eq, List.all_eq_true]
        refine and_congr ?_ (forall₂_congr fun t _ => ?_)
        · rw [shape, Bool.not_eq_true', Option.isSome_eq_false_iff]
        · rw [hasId, shape, Option.any_map]
      exact map_guarded hcan fun _ => rfl
  | insertAll i t =>
      have h := shape_insertWith ms val s i t (fun source target => source.length = target.length)
        (fun source target => source.columns.zip target.columns) (fun _ v => v)
      simp only [decide_eq_true_eq] at h
      rw [shapeExec, canRun, effect, ← h]
      simp only [exec, guard, Option.bind_eq_bind]
      congr 2
      funext st
      split <;> rfl
  | insertColumns i t cols =>
      have h := shape_insertWith ms val s i t
        (fun source target => cols.all fun c => c ∈ source && c ∈ target)
        (fun _ _ => cols.zip cols) (fun _ v => v)
      simp only [List.all_eq_true, Bool.and_eq_true, decide_eq_true_eq] at h
      rw [shapeExec, canRun, effect, ← h]
      simp only [exec, guard, Option.bind_eq_bind]
      congr 2
      funext st
      split <;> rfl
  | insertRemapped i t cols =>
      have h := shape_insertWith ms val s i t
        (fun source target => decide (cols.length = target.length) && cols.all (· ∈ source) &&
          (!cols.any (fun c => (offsetSource t c).isSome) || s.offsets.isSome))
        (fun _ target => cols.zip target.columns)
        (fun c v => if (offsetSource t c).isSome then
          val.shift v (((offsetSource t c).bind fun src => s.offsets.map (· src)).getD 0) else v)
      have hoffsets : (shape s).offsets = s.offsets.isSome := rfl
      rw [shapeExec, canRun, effect, hoffsets, ← h]
      simp only [exec, guard, Option.bind_eq_bind]
      congr 2
      funext st
      have hcan : ((decide (cols.length = st.2.columns.length) &&
            cols.all (fun c => decide (c ∈ st.1.columns)) &&
            (!cols.any (fun c => (offsetSource t c).isSome) || s.offsets.isSome)) = true) =
          (cols.length = st.2.columns.length ∧ (∀ c ∈ cols, c ∈ st.1.columns) ∧
            ((∃ c ∈ cols, (offsetSource t c).isSome) → s.offsets.isSome)) := by
        simp only [Bool.and_eq_true, decide_eq_true_eq, List.all_eq_true, Bool.or_eq_true,
          Bool.not_eq_true', ← Bool.not_eq_true, List.any_eq_true, and_assoc, imp_iff_not_or]
      simp only [hcan]
      split <;> rfl
  | dropOffsets i =>
      rw [exec, shapeExec, canRun]
      have hoffsets : (shape s).offsets = s.offsets.isSome := rfl
      rw [hoffsets]
      cases s.offsets.isSome <;> rfl
  | commit i =>
      rw [exec, shapeExec, canRun]
      have hopened : (shape s).opened = s.conn.txn.isSome := rfl
      rw [hopened]
      cases hopen : s.conn.txn.isSome with
      | false => rfl
      | true =>
          simp only [if_true, Option.map_some, Conn.commit_opened s.conn hopen]
          rfl
  | detach i =>
      rw [exec, shapeExec, canRun]
      have hcan : (decide (i ∈ (shape s).attached) && !(shape s).opened) =
          decide (i ∈ s.attached ∧ s.conn.txn.isNone = true) := by
        rw [Bool.decide_and]
        cases hopen : s.conn.txn <;> simp [shape, hopen]
      exact map_guarded hcan fun _ => rfl
  | count tables =>
      rw [exec, shapeExec, canRun]
      have hcan : (tables.all fun t => ((shape s).columns t).isSome) =
          decide (∀ t ∈ tables, (s.view.tables t).isSome) := by
        rw [Bool.eq_iff_iff, decide_eq_true_eq, List.all_eq_true]
        refine forall₂_congr fun t _ => ?_
        rw [shape, Option.isSome_map]
      exact map_guarded hcan fun _ => rfl

end

end CodeScope.Merge
