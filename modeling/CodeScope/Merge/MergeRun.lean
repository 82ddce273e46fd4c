import CodeScope.Merge.ScriptShape

/-! # Which rows a merge leaves behind

The transactions of the modules, one after the other, under any pattern of failing statements: when
a transaction is open, when `_offsets` exists, which INSERT statements land rows, and which of those
rows become durable. A `COMMIT` that fails leaves its transaction open; the next module's `BEGIN`
then fails, and its statements join the transaction. -/

namespace CodeScope.Merge

open Text Script

variable {ν : Type}

/-! ## What the pattern decides -/

section Pattern

variable (m0 : Tables ν) (fails : Stmt → Bool)

/-- The tables that the schema statements of the script create. -/
def createdColumns (t : Table) : Option (List Str) :=
  if fails (.createTable t) then none else (m0 t).map Sheet.columns

/-- `_offsets` can be computed: its tables are there, with their ids. -/
def OffsetTablesThere : Prop := ∀ t ∈ offsetTables, hasId (createdColumns m0 fails t) = true

/-- `_offsets` is left behind by a module before `n`. -/
def OffsetsLeft (n : ℕ) : Prop :=
  OffsetTablesThere m0 fails ∧ ∃ k, 0 < k ∧ k < n ∧ fails (.createOffsets k) = false ∧
    ∀ j, k ≤ j → j < n → fails (.dropOffsets j) = true

/-- `_offsets` exists when module `i` is copied: it is made now or was left behind. -/
def HasOffsets (i : ℕ) : Prop :=
  OffsetsLeft m0 fails i ∨
    OffsetTablesThere m0 fails ∧ 0 < i ∧ fails (.createOffsets i) = false

/-- A transaction is open after `n` modules. -/
def LeftOpen (n : ℕ) : Prop :=
  ∃ k < n, fails (.begin k) = false ∧ ∀ j, k ≤ j → j < n → fails (.commit j) = true

/-- What module `i` wrote is undone when the script ends after `n` modules: it is part of a
    transaction that no `COMMIT` ends. -/
def Undone (n i : ℕ) : Prop :=
  ∃ k ≤ i, fails (.begin k) = false ∧ ∀ j, k ≤ j → j < n → fails (.commit j) = true

/-- The columns of the INSERT for a table fit the module's table and the created one. -/
def Resolves (i : ℕ) (spec : TableSpec) (source target : Sheet ν) : Prop :=
  if i = 0 ∨ spec.remapCols = [] then
    if spec.skipRowid then ∀ c ∈ dataColumns target, c ∈ source.columns
    else source.columns.length = target.columns.length
  else (dataColumns target).length = target.columns.length ∧
    ∀ c ∈ dataColumns target, c ∈ source.columns

/-- The INSERT adds offsets. -/
def Shifts (i : ℕ) (spec : TableSpec) (target : Sheet ν) : Prop :=
  ¬ (i = 0 ∨ spec.remapCols = []) ∧
    ∃ c ∈ dataColumns target, (offsetSource spec.name c).isSome = true

/-- The INSERT of a table of module `i` is executed. -/
def Executes (ms : List (Tables ν)) (i : ℕ) (spec : TableSpec) : Prop :=
  fails (.attach i) = false ∧ fails (.createTable spec.name) = false ∧
    (∃ stmt, copyStatement m0 i spec = some stmt ∧ fails stmt = false) ∧
    ∃ source target, sourceOf ms i spec.name = some source ∧ m0 spec.name = some target ∧
      Resolves i spec source target ∧ (Shifts i spec target → HasOffsets m0 fails i)

/-- Module `i` brings rows. -/
def Lands (ms : List (Tables ν)) (i : ℕ) : Prop :=
  ∃ spec ∈ existing m0, Executes m0 fails ms i spec ∧ rowsOf ms i spec.name = true

end Pattern

/-! ## Single statements -/

theorem step_eq (ms : List (Tables ν)) (fails : Stmt → Bool) (sh : Shape) (stmt : Stmt) :
    step (shapeExec ms) fails sh stmt =
      if fails stmt = false ∧ canRun ms stmt sh = true then effect ms stmt sh else sh := by
  rw [step, attempt, shapeExec]
  cases fails stmt with
  | true => rfl
  | false =>
      cases hcan : canRun ms stmt sh with
      | true => simp
      | false => simp

/-- Outside a transaction everything is durable. -/
def Shape.Settled (sh : Shape) : Prop := sh.opened = false → sh.durableRows = sh.viewRows

variable {sh : Shape} {m0 : Tables ν} {stmt : Stmt} {copies block : List Stmt} {fails : Stmt → Bool}
  {ms : List (Tables ν)} {n : ℕ}

theorem addRows_false (h : sh.Settled) : sh.addRows false = sh := by
  have hdurable : (if sh.opened then sh.durableRows else sh.viewRows) = sh.durableRows := by
    split
    · rfl
    · rename_i hclosed
      exact (h (by simpa using hclosed)).symm
  rw [Shape.addRows, Bool.or_false, hdurable]

theorem addRows_addRows (sh : Shape) (a b : Bool) :
    (sh.addRows a).addRows b = sh.addRows (a || b) := by
  simp only [Shape.addRows, Bool.or_assoc]
  split <;> rfl

/-! ## The INSERT statements of a module -/

/-- The table an INSERT reads and writes. -/
def Stmt.insertInto : Stmt → Option (ℕ × Table)
  | .insertAll i t | .insertColumns i t _ | .insertRemapped i t _ => some (i, t)
  | _ => none

theorem copyStatement_insertInto {i : ℕ} {spec : TableSpec}
    (h : copyStatement m0 i spec = some stmt) : stmt.insertInto = some (i, spec.name) := by
  rw [copyStatement] at h
  split at h
  · rw [buildInsertSql] at h
    split at h
    · obtain ⟨cols, _, rfl⟩ := Option.map_eq_some_iff.mp h
      rfl
    · obtain rfl := Option.some.inj h
      rfl
  · obtain ⟨cols, _, rfl⟩ := Option.map_eq_some_iff.mp h
    rfl

theorem insert_canRun_addRows {i : ℕ} {t : Table} (ms : List (Tables ν))
    (h : stmt.insertInto = some (i, t)) (sh : Shape) (b : Bool) :
    canRun ms stmt (sh.addRows b) = canRun ms stmt sh := by
  cases stmt with
  | insertAll j u => rfl
  | insertColumns j u cols => rfl
  | insertRemapped j u cols => rfl
  | _ => exact absurd h (by simp [Stmt.insertInto])

theorem insert_effect {i : ℕ} {t : Table} (ms : List (Tables ν)) (h : stmt.insertInto = some (i, t))
    (sh : Shape) : effect ms stmt sh = sh.addRows (rowsOf ms i t) := by
  cases stmt with
  | insertAll j u | insertColumns j u cols | insertRemapped j u cols =>
      obtain ⟨rfl, rfl⟩ := Prod.mk.inj (Option.some.inj h)
      rfl
  | _ => exact absurd h (by simp [Stmt.insertInto])

/-- The INSERT lands rows. -/
def lands (ms : List (Tables ν)) (fails : Stmt → Bool) (sh : Shape) (stmt : Stmt) : Bool :=
  !fails stmt && canRun ms stmt sh && stmt.insertInto.any fun it => rowsOf ms it.1 it.2

/-- The copies of a module add the rows of those that are executed. -/
theorem final_copies (ms : List (Tables ν)) (fails : Stmt → Bool)
    (hcopies : ∀ stmt ∈ copies, ∃ i t, stmt.insertInto = some (i, t)) (sh : Shape)
    (hsettled : sh.Settled) :
    final (shapeExec ms) fails copies sh = sh.addRows (copies.any (lands ms fails sh)) := by
  rw [final_eq_foldl]
  have hstep : ∀ (b : Bool) (stmt : Stmt), stmt ∈ copies →
      step (shapeExec ms) fails (sh.addRows b) stmt = sh.addRows (b || lands ms fails sh stmt) := by
    intro b stmt hmem
    obtain ⟨i, t, hinto⟩ := hcopies stmt hmem
    rw [step_eq, insert_canRun_addRows ms hinto, insert_effect ms hinto, lands, hinto,
      Option.any_some, addRows_addRows]
    cases fails stmt with
    | true => simp
    | false =>
        cases canRun ms stmt sh with
        | true => simp
        | false => simp
  have hall : ∀ (b : Bool) (rest : List Stmt), (∀ stmt ∈ rest, stmt ∈ copies) →
      rest.foldl (step (shapeExec ms) fails) (sh.addRows b) =
        sh.addRows (b || rest.any (lands ms fails sh)) := by
    intro b rest
    induction rest generalizing b with
    | nil => intro _; simp
    | cons stmt rest ih =>
        intro hrest
        rw [List.foldl_cons, hstep b stmt (hrest stmt List.mem_cons_self),
          ih _ fun s hs => hrest s (List.mem_cons_of_mem _ hs), List.any_cons, Bool.or_assoc]
  have hstart := hall false copies fun _ h => h
  rwa [addRows_false hsettled, Bool.false_or] at hstart

theorem mem_mapM_iff {α β : Type} {f : α → Option β} {l : List α} {r : List β}
    (h : l.mapM f = some r) (b : β) : b ∈ r ↔ ∃ a ∈ l, f a = some b := by
  induction l generalizing r with
  | nil =>
      obtain rfl : [] = r := by simpa using h
      simp
  | cons a l ih =>
      rw [List.mapM_cons] at h
      simp only [Option.bind_eq_bind, Option.bind_eq_some_iff, Option.pure_def,
        Option.some.injEq] at h
      obtain ⟨b', hb', rest, hrest, rfl⟩ := h
      rw [List.mem_cons, ih hrest, List.exists_mem_cons_iff, hb', Option.some.injEq, eq_comm]

theorem createdColumns_eq_some_iff {t : Table} {cols : List Str} :
    createdColumns m0 fails t = some cols ↔
      fails (.createTable t) = false ∧ ∃ target, m0 t = some target ∧ target.columns = cols := by
  rw [createdColumns]
  cases fails (.createTable t) with
  | true => simp
  | false => simp

theorem fitsInsert_iff {i : ℕ} {t : Table} {fit : List Str → List Str → Bool}
    (hcolumns : sh.columns = createdColumns m0 fails)
    (hattached : i ∈ sh.attached ↔ fails (.attach i) = false) :
    fitsInsert ms i t sh fit = true ↔ fails (.attach i) = false ∧ fails (.createTable t) = false ∧
      ∃ source target, sourceOf ms i t = some source ∧ m0 t = some target ∧
        fit source.columns target.columns = true := by
  simp only [fitsInsert, Bool.and_eq_true, decide_eq_true_eq, hattached, Option.any_eq_true,
    hcolumns, createdColumns_eq_some_iff]
  refine and_congr_right fun _ => ?_
  constructor
  · rintro ⟨source, hsource, cols, ⟨hcreate, target, htarget, rfl⟩, hfit⟩
    exact ⟨hcreate, source, target, hsource, htarget, hfit⟩
  · rintro ⟨hcreate, source, target, hsource, htarget, hfit⟩
    exact ⟨source, hsource, target.columns, ⟨hcreate, target, htarget, rfl⟩, hfit⟩

theorem allCols_eq_some {t : Table} {cols : List Str} (h : allCols m0 t = some cols) :
    ∃ target, m0 t = some target ∧ cols = dataColumns target ∧
      dataColumns target ≠ [] := by
  rw [allCols] at h
  cases htarget : m0 t with
  | none =>
      rw [htarget] at h
      exact absurd h (by simp)
  | some target =>
      simp only [htarget, Option.bind_eq_bind, Option.bind_some, guard] at h
      by_cases hne : dataColumns target ≠ []
      · rw [if_pos hne] at h
        exact ⟨target, rfl, (Option.some.inj h).symm, hne⟩
      · rw [if_neg hne] at h
        exact absurd h (by simp)

theorem mem_of_mem_dataColumns {sheet : Sheet ν} {c : Str} (h : c ∈ dataColumns sheet) :
    c ∈ sheet.columns := (List.mem_filter.mp h).1

/-- What the INSERT of a table needs. -/
theorem canRun_copy_iff {i : ℕ} {spec : TableSpec} (hstmt : copyStatement m0 i spec = some stmt)
    (hcolumns : sh.columns = createdColumns m0 fails)
    (hattached : i ∈ sh.attached ↔ fails (.attach i) = false)
    (hoffsets : 0 < i → (sh.offsets = true ↔ HasOffsets m0 fails i)) :
    canRun ms stmt sh = true ↔ fails (.attach i) = false ∧
      fails (.createTable spec.name) = false ∧
      ∃ source target, sourceOf ms i spec.name = some source ∧ m0 spec.name = some target ∧
        Resolves i spec source target ∧ (Shifts i spec target → HasOffsets m0 fails i) := by
  rw [copyStatement] at hstmt
  by_cases hplain : i = 0 ∨ spec.remapCols = []
  · have hnoshift : ∀ target : Sheet ν, ¬ Shifts i spec target := fun _ h => h.1 hplain
    rw [if_pos hplain, buildInsertSql] at hstmt
    by_cases hskip : spec.skipRowid = true
    · rw [if_pos hskip] at hstmt
      obtain ⟨cols, hcols, rfl⟩ := Option.map_eq_some_iff.mp hstmt
      obtain ⟨target₀, htarget₀, rfl, _⟩ := allCols_eq_some hcols
      rw [canRun, fitsInsert_iff hcolumns hattached]
      refine and_congr_right fun _ => and_congr_right fun _ => exists_congr fun source =>
        exists_congr fun target => and_congr_right fun _ => and_congr_right fun htarget => ?_
      obtain rfl : target₀ = target := Option.some.inj (htarget₀.symm.trans htarget)
      rw [Resolves, if_pos hplain, if_pos hskip, List.all_eq_true]
      simp only [Bool.and_eq_true, decide_eq_true_eq]
      exact ⟨fun h => ⟨fun c hc => (h c hc).1, fun hs => absurd hs (hnoshift _)⟩,
        fun h c hc => ⟨h.1 c hc, mem_of_mem_dataColumns hc⟩⟩
    · rw [if_neg hskip] at hstmt
      obtain rfl := Option.some.inj hstmt
      rw [canRun, fitsInsert_iff hcolumns hattached]
      refine and_congr_right fun _ => and_congr_right fun _ => exists_congr fun source =>
        exists_congr fun target => and_congr_right fun _ => and_congr_right fun _ => ?_
      rw [Resolves, if_pos hplain, if_neg hskip, decide_eq_true_eq]
      exact ⟨fun h => ⟨h, fun hs => absurd hs (hnoshift _)⟩, fun h => h.1⟩
  · have hi : 0 < i := Nat.pos_of_ne_zero fun h => hplain (Or.inl h)
    rw [if_neg hplain] at hstmt
    obtain ⟨cols, hcols, rfl⟩ := Option.map_eq_some_iff.mp hstmt
    obtain ⟨target₀, htarget₀, rfl, _⟩ := allCols_eq_some hcols
    rw [canRun, fitsInsert_iff hcolumns hattached]
    refine and_congr_right fun _ => and_congr_right fun _ => exists_congr fun source =>
      exists_congr fun target => and_congr_right fun _ => and_congr_right fun htarget => ?_
    obtain rfl : target₀ = target := Option.some.inj (htarget₀.symm.trans htarget)
    have hshift : (¬ ((dataColumns target₀).any fun c => (offsetSource spec.name c).isSome) = true ∨
        sh.offsets = true) ↔ (Shifts i spec target₀ → HasOffsets m0 fails i) := by
      rw [← hoffsets hi, Shifts, List.any_eq_true, ← imp_iff_not_or]
      exact ⟨fun h hs => h hs.2, fun h hs => h ⟨hplain, hs⟩⟩
    rw [Resolves, if_neg hplain, Bool.and_eq_true, Bool.and_eq_true, Bool.or_eq_true,
      decide_eq_true_eq, List.all_eq_true, Bool.not_eq_true', ← Bool.not_eq_true, hshift]
    simp only [decide_eq_true_eq]

/-- The copies of module `i` land rows exactly when the module does. -/
theorem any_lands_iff (ms : List (Tables ν)) {i : ℕ}
    (hcopies : (existing m0).mapM (copyStatement m0 i) = some copies) (sh : Shape)
    (hcolumns : sh.columns = createdColumns m0 fails)
    (hattached : i ∈ sh.attached ↔ fails (.attach i) = false)
    (hoffsets : 0 < i → (sh.offsets = true ↔ HasOffsets m0 fails i)) :
    copies.any (lands ms fails sh) = true ↔ Lands m0 fails ms i := by
  rw [List.any_eq_true, Lands]
  constructor
  · rintro ⟨stmt, hmem, hlands⟩
    obtain ⟨spec, hspec, hstmt⟩ := (mem_mapM_iff hcopies stmt).mp hmem
    rw [lands, copyStatement_insertInto hstmt, Option.any_some, Bool.and_eq_true, Bool.and_eq_true,
      Bool.not_eq_true', canRun_copy_iff hstmt hcolumns hattached hoffsets] at hlands
    obtain ⟨⟨hworks, hattach, hcreate, hsheets⟩, hrows⟩ := hlands
    exact ⟨spec, hspec, ⟨hattach, hcreate, ⟨stmt, hstmt, hworks⟩, hsheets⟩, hrows⟩
  · rintro ⟨spec, hspec, ⟨hattach, hcreate, ⟨stmt, hstmt, hworks⟩, hsheets⟩, hrows⟩
    refine ⟨stmt, (mem_mapM_iff hcopies stmt).mpr ⟨spec, hspec, hstmt⟩, ?_⟩
    rw [lands, copyStatement_insertInto hstmt, Option.any_some, Bool.and_eq_true, Bool.and_eq_true,
      Bool.not_eq_true', canRun_copy_iff hstmt hcolumns hattached hoffsets]
    exact ⟨⟨hworks, hattach, hcreate, hsheets⟩, hrows⟩

/-! ## One statement after the other -/

section Steps

variable (ms : List (Tables ν)) (fails : Stmt → Bool) (sh : Shape)

theorem step_begin (i : ℕ) : step (shapeExec ms) fails sh (.begin i) =
    { sh with opened := sh.opened || !fails (.begin i) } := by
  obtain ⟨columns, opened, view, durable, offsets, attached⟩ := sh
  rw [step_eq]
  cases fails (.begin i) <;> cases opened <;> rfl

theorem step_commit (i : ℕ) : step (shapeExec ms) fails sh (.commit i) =
    { sh with
      opened := sh.opened && fails (.commit i)
      durableRows := if sh.opened && !fails (.commit i) then sh.viewRows else sh.durableRows } := by
  obtain ⟨columns, opened, view, durable, offsets, attached⟩ := sh
  rw [step_eq]
  cases fails (.commit i) <;> cases opened <;> rfl

theorem step_createOffsets (i : ℕ) : step (shapeExec ms) fails sh (.createOffsets i) =
    { sh with
      offsets := sh.offsets ||
        (!fails (.createOffsets i) && offsetTables.all fun t => hasId (sh.columns t)) } := by
  obtain ⟨columns, opened, view, durable, offsets, attached⟩ := sh
  rw [step_eq, canRun]
  cases fails (.createOffsets i) <;> cases offsets <;>
    cases offsetTables.all fun t => hasId (columns t) <;> rfl

theorem step_dropOffsets (i : ℕ) : step (shapeExec ms) fails sh (.dropOffsets i) =
    { sh with offsets := sh.offsets && fails (.dropOffsets i) } := by
  obtain ⟨columns, opened, view, durable, offsets, attached⟩ := sh
  rw [step_eq]
  cases fails (.dropOffsets i) <;> cases offsets <;> rfl

theorem step_attach {i : ℕ} (hi : i < ms.length) (hnew : i ∉ sh.attached) :
    step (shapeExec ms) fails sh (.attach i) =
      { sh with attached := if fails (.attach i) then sh.attached else i :: sh.attached } := by
  rw [step_eq, canRun, decide_eq_true hi, decide_eq_true hnew]
  cases fails (.attach i) <;> rfl

theorem step_detach (i : ℕ) : ∃ attached, attached ⊆ sh.attached ∧
    step (shapeExec ms) fails sh (.detach i) = { sh with attached := attached } := by
  rw [step_eq]
  split
  · exact ⟨sh.attached.erase i, List.erase_subset, rfl⟩
  · exact ⟨sh.attached, List.Subset.refl _, rfl⟩

/-- The schema statements create the tables of the first module. -/
theorem final_schema {m0 : Tables ν} (hhead : ∀ t, sourceOf ms 0 t = m0 t)
    (hempty : sh.columns = fun _ => none) :
    final (shapeExec ms) fails ((existing m0).map fun spec => .createTable spec.name) sh =
      { sh with columns := createdColumns m0 fails } := by
  have hfold : ∀ (specs : List TableSpec) (sh : Shape), (specs.map TableSpec.name).Nodup →
      (∀ spec ∈ specs, (m0 spec.name).isSome) → (∀ spec ∈ specs, sh.columns spec.name = none) →
      final (shapeExec ms) fails (specs.map fun spec => .createTable spec.name) sh =
        { sh with columns := fun t =>
            if t ∈ specs.map TableSpec.name then createdColumns m0 fails t else sh.columns t } := by
    intro specs
    induction specs with
    | nil => intro sh _ _ _; rfl
    | cons spec specs ih =>
        intro sh hnodup hsome hnone
        obtain ⟨hnew, hnodup⟩ := List.nodup_cons.mp hnodup
        have hstep : step (shapeExec ms) fails sh (.createTable spec.name) =
            { sh with columns :=
                Function.update sh.columns spec.name (createdColumns m0 fails spec.name) } := by
          rw [step_eq, canRun, effect, hhead, hsome spec List.mem_cons_self,
            hnone spec List.mem_cons_self, createdColumns]
          cases fails (.createTable spec.name) with
          | false => rfl
          | true =>
              have hsame : Function.update sh.columns spec.name none = sh.columns := by
                rw [← hnone spec List.mem_cons_self, Function.update_eq_self]
              simp only [Bool.true_eq_false, false_and, if_false, if_true, hsame]
        have hrest : ∀ s ∈ specs, Function.update sh.columns spec.name
            (createdColumns m0 fails spec.name) s.name = none := by
          intro s hs
          have hne : s.name ≠ spec.name := fun heq =>
            hnew (heq ▸ List.mem_map_of_mem (f := TableSpec.name) hs)
          rw [Function.update_of_ne hne]
          exact hnone s (List.mem_cons_of_mem _ hs)
        rw [final_eq_foldl, List.map_cons, List.foldl_cons, ← final_eq_foldl, hstep,
          ih _ hnodup (fun s hs => hsome s (List.mem_cons_of_mem _ hs)) hrest]
        congr 1
        funext t
        dsimp only
        by_cases ht : t ∈ specs.map TableSpec.name
        · rw [if_pos ht, List.map_cons, if_pos (List.mem_cons_of_mem _ ht)]
        · rw [if_neg ht, List.map_cons]
          by_cases hhere : t = spec.name
          · rw [hhere, Function.update_self, if_pos List.mem_cons_self]
          · have hnot : t ∉ spec.name :: specs.map TableSpec.name := by
              rw [List.mem_cons, not_or]
              exact ⟨hhere, ht⟩
            rw [Function.update_of_ne hhere, if_neg hnot]
  have hsome : ∀ spec ∈ existing m0, (m0 spec.name).isSome := fun spec h => (List.mem_filter.mp h).2
  have hnodup : ((existing m0).map TableSpec.name).Nodup :=
    (List.filter_sublist.map TableSpec.name).nodup (by decide)
  rw [hfold (existing m0) sh hnodup hsome fun _ _ => by rw [hempty]]
  congr 1
  funext t
  by_cases ht : t ∈ (existing m0).map TableSpec.name
  · rw [if_pos ht]
  · have hnone : m0 t = none := by
      by_contra hne
      obtain ⟨spec, hspec, rfl⟩ : ∃ spec ∈ tableSpecs, spec.name = t := by
        cases t <;> decide
      exact ht (List.mem_map_of_mem (List.mem_filter.mpr
        ⟨hspec, Option.isSome_iff_ne_none.mpr hne⟩))
    rw [if_neg ht, hempty, createdColumns, hnone]
    split <;> rfl

end Steps

/-! ## The transaction of a module -/

/-- The shape after the transactions of the first `n` modules. -/
structure After (m0 : Tables ν) (fails : Stmt → Bool) (ms : List (Tables ν)) (n : ℕ)
    (sh : Shape) : Prop where
  columns : sh.columns = if n = 0 then fun _ => none else createdColumns m0 fails
  opened : sh.opened = true ↔ LeftOpen fails n
  offsets : sh.offsets = true ↔ OffsetsLeft m0 fails n
  attached : ∀ j ∈ sh.attached, j < n
  view : sh.viewRows = true ↔ ∃ i < n, Lands m0 fails ms i
  durable : sh.durableRows = true ↔ ∃ i < n, Lands m0 fails ms i ∧ ¬ Undone fails n i
  settled : sh.Settled

theorem leftOpen_succ (fails : Stmt → Bool) (n : ℕ) : LeftOpen fails (n + 1) ↔
    (LeftOpen fails n ∨ fails (.begin n) = false) ∧ fails (.commit n) = true := by
  constructor
  · rintro ⟨k, hk, hbegin, hcommits⟩
    refine ⟨?_, hcommits n (Nat.le_of_lt_succ hk) (Nat.lt_succ_self n)⟩
    rcases Nat.lt_or_eq_of_le (Nat.le_of_lt_succ hk) with hlt | rfl
    · exact Or.inl ⟨k, hlt, hbegin, fun j hkj hj => hcommits j hkj (Nat.lt_succ_of_lt hj)⟩
    · exact Or.inr hbegin
  · rintro ⟨⟨k, hk, hbegin, hcommits⟩ | hbegin, hcommit⟩
    · refine ⟨k, Nat.lt_succ_of_lt hk, hbegin, fun j hkj hj => ?_⟩
      rcases Nat.lt_or_eq_of_le (Nat.le_of_lt_succ hj) with hlt | rfl
      · exact hcommits j hkj hlt
      · exact hcommit
    · refine ⟨n, Nat.lt_succ_self n, hbegin, fun j hnj hj => ?_⟩
      rw [Nat.le_antisymm (Nat.le_of_lt_succ hj) hnj]
      exact hcommit

theorem offsetsLeft_succ (m0 : Tables ν) (fails : Stmt → Bool) (hn : 0 < n) :
    OffsetsLeft m0 fails (n + 1) ↔
      HasOffsets m0 fails n ∧ fails (.dropOffsets n) = true := by
  constructor
  · rintro ⟨hthere, k, hpos, hk, hcreate, hdrops⟩
    refine ⟨?_, hdrops n (Nat.le_of_lt_succ hk) (Nat.lt_succ_self n)⟩
    rcases Nat.lt_or_eq_of_le (Nat.le_of_lt_succ hk) with hlt | rfl
    · exact Or.inl ⟨hthere, k, hpos, hlt, hcreate,
        fun j hkj hj => hdrops j hkj (Nat.lt_succ_of_lt hj)⟩
    · exact Or.inr ⟨hthere, hpos, hcreate⟩
  · rintro ⟨⟨hthere, k, hpos, hk, hcreate, hdrops⟩ | ⟨hthere, -, hcreate⟩, hdrop⟩
    · refine ⟨hthere, k, hpos, Nat.lt_succ_of_lt hk, hcreate, fun j hkj hj => ?_⟩
      rcases Nat.lt_or_eq_of_le (Nat.le_of_lt_succ hj) with hlt | rfl
      · exact hdrops j hkj hlt
      · exact hdrop
    · refine ⟨hthere, n, hn, Nat.lt_succ_self n, hcreate, fun j hnj hj => ?_⟩
      rw [Nat.le_antisymm (Nat.le_of_lt_succ hj) hnj]
      exact hdrop

/-- With a transaction left open, everything since its beginning is undone, and as much as before
    the last module is. -/
theorem durable_succ_open (hopen : LeftOpen fails (n + 1)) :
    (∃ i < n + 1, Lands m0 fails ms i ∧ ¬ Undone fails (n + 1) i) ↔
      ∃ i < n, Lands m0 fails ms i ∧ ¬ Undone fails n i := by
  have hcommit := ((leftOpen_succ fails n).mp hopen).2
  have hsame : ∀ i, Undone fails (n + 1) i ↔ Undone fails n i := by
    intro i
    refine exists_congr fun k => and_congr_right fun _ => and_congr_right fun _ => ?_
    constructor
    · exact fun h j hkj hj => h j hkj (Nat.lt_succ_of_lt hj)
    · intro h j hkj hj
      rcases Nat.lt_or_eq_of_le (Nat.le_of_lt_succ hj) with hlt | rfl
      · exact h j hkj hlt
      · exact hcommit
  constructor
  · rintro ⟨i, hi, hlands, hkept⟩
    rcases Nat.lt_or_eq_of_le (Nat.le_of_lt_succ hi) with hlt | rfl
    · exact ⟨i, hlt, hlands, fun h => hkept ((hsame i).mpr h)⟩
    · obtain ⟨k, hk, hrest⟩ := hopen
      exact absurd ⟨k, Nat.le_of_lt_succ hk, hrest⟩ hkept
  · rintro ⟨i, hi, hlands, hkept⟩
    exact ⟨i, Nat.lt_succ_of_lt hi, hlands, fun h => hkept ((hsame i).mp h)⟩

theorem durable_closed (hclosed : ¬ LeftOpen fails n) :
    (∃ i < n, Lands m0 fails ms i ∧ ¬ Undone fails n i) ↔ ∃ i < n, Lands m0 fails ms i := by
  refine exists_congr fun i => and_congr_right fun hi => and_iff_left ?_
  rintro ⟨k, hk, hrest⟩
  exact hclosed ⟨k, Nat.lt_of_le_of_lt hk hi, hrest⟩

theorem moduleScript_eq_some (h : moduleScript m0 n = some block) : ∃ copies,
    (existing m0).mapM (copyStatement m0 n) = some copies ∧
      block = [Stmt.begin n] ++
        ((if n = 0 then (existing m0).map fun spec => Stmt.createTable spec.name else []) ++
          ([Stmt.attach n] ++ ((if n = 0 then copies
            else [Stmt.createOffsets n] ++ (copies ++ [Stmt.dropOffsets n])) ++
              [Stmt.commit n, Stmt.detach n]))) := by
  rw [moduleScript] at h
  cases hcopies : (existing m0).mapM (copyStatement m0 n) with
  | none =>
      rw [hcopies] at h
      exact absurd h (by simp)
  | some copies =>
      rw [hcopies] at h
      refine ⟨copies, rfl, (Option.some.inj h).symm.trans ?_⟩
      split <;> simp

theorem final_single (ms : List (Tables ν)) (fails : Stmt → Bool) (stmt : Stmt) (sh : Shape) :
    final (shapeExec ms) fails [stmt] sh = step (shapeExec ms) fails sh stmt :=
  final_eq_foldl [stmt] sh

/-- What is ready for the copies of module `n`, and what they and the `COMMIT` make of it. -/
theorem after_tail {ready : Shape} {body : List Stmt} (h : After m0 fails ms n sh) {b : Bool}
    (left : Bool) (hopened : ready.opened = (sh.opened || !fails (.begin n)))
    (hview : ready.viewRows = sh.viewRows) (hdurable : ready.durableRows = sh.durableRows)
    (hattached : ∀ j ∈ ready.attached, j < n + 1)
    (hcolumns : ready.columns = createdColumns m0 fails) (hb : b = true ↔ Lands m0 fails ms n)
    (hleft : left = true ↔ OffsetsLeft m0 fails (n + 1))
    (hbody : final (shapeExec ms) fails body ready = { ready.addRows b with offsets := left }) :
    After m0 fails ms (n + 1) (final (shapeExec ms) fails (body ++ [.commit n, .detach n]) ready) := by
  rw [final_append, hbody, final_eq_foldl]
  simp only [List.foldl_cons, List.foldl_nil, step_commit]
  obtain ⟨attached, hsub, hdetach⟩ := step_detach ms fails _ n
  rw [hdetach]
  have hopen : (ready.opened && fails (.commit n)) = true ↔ LeftOpen fails (n + 1) := by
    rw [hopened, leftOpen_succ, Bool.and_eq_true, Bool.or_eq_true, h.opened, Bool.not_eq_true']
  have hviewRows : (ready.viewRows || b) = true ↔ ∃ i < n + 1, Lands m0 fails ms i := by
    rw [Bool.or_eq_true, hview, h.view, hb, Nat.exists_lt_succ_right]
  have hrows : (if ready.opened && !fails (.commit n) then ready.viewRows || b
      else if ready.opened then ready.durableRows else ready.viewRows || b) =
      if ready.opened && fails (.commit n) then sh.durableRows else ready.viewRows || b := by
    rw [hdurable]
    cases ready.opened <;> cases fails (.commit n) <;> rfl
  refine ⟨?_, hopen, hleft, fun j hj => hattached j (hsub hj), hviewRows, ?_, ?_⟩
  · rw [if_neg (Nat.succ_ne_zero n)]
    exact hcolumns
  · refine (Bool.coe_iff_coe.mpr hrows).trans ?_
    by_cases hstill : LeftOpen fails (n + 1)
    · rw [if_pos (hopen.mpr hstill), h.durable, durable_succ_open hstill]
    · rw [if_neg fun ht => hstill (hopen.mp ht), hviewRows, durable_closed hstill]
  · intro hclosed
    have hclosed' : (ready.opened && fails (.commit n)) = false := hclosed
    refine Eq.trans hrows ?_
    rw [hclosed']
    rfl

/-- The copies of a module are INSERTs. -/
theorem insertInto_of_copies (hcopies : (existing m0).mapM (copyStatement m0 n) = some copies) :
    ∀ stmt ∈ copies, ∃ i t, stmt.insertInto = some (i, t) := by
  intro stmt hmem
  obtain ⟨spec, _, hstmt⟩ := (mem_mapM_iff hcopies stmt).mp hmem
  exact ⟨n, spec.name, copyStatement_insertInto hstmt⟩

/-- **A module's transaction**: the invariant of the shapes between the modules. -/
theorem after_block (hhead : ∀ t, sourceOf ms 0 t = m0 t) (hn : n < ms.length)
    (hblock : moduleScript m0 n = some block) (h : After m0 fails ms n sh) :
    After m0 fails ms (n + 1) (final (shapeExec ms) fails block sh) := by
  obtain ⟨copies, hcopies, rfl⟩ := moduleScript_eq_some hblock
  have hinto := insertInto_of_copies hcopies
  have hnew : n ∉ sh.attached := fun hmem => Nat.lt_irrefl n (h.attached n hmem)
  have hhere : n ∈ (if fails (.attach n) then sh.attached else n :: sh.attached) ↔
      fails (.attach n) = false := by
    cases fails (.attach n) with
    | true => simp [hnew]
    | false => simp
  have hbound : ∀ j ∈ (if fails (.attach n) then sh.attached else n :: sh.attached), j < n + 1 := by
    intro j hj
    split at hj
    · exact Nat.lt_succ_of_lt (h.attached j hj)
    · rcases List.mem_cons.mp hj with rfl | hmem
      · exact Nat.lt_succ_self j
      · exact Nat.lt_succ_of_lt (h.attached j hmem)
  have hsettled : ∀ sh' : Shape, sh'.opened = (sh.opened || !fails (.begin n)) →
      sh'.viewRows = sh.viewRows → sh'.durableRows = sh.durableRows → sh'.Settled := by
    intro sh' ho hv hd hclosed
    rw [ho, Bool.or_eq_false_iff] at hclosed
    rw [hv, hd]
    exact h.settled hclosed.1
  rw [final_append, final_single, step_begin, final_append]
  by_cases hzero : n = 0
  · subst hzero
    have hempty := h.columns
    rw [if_pos rfl] at hempty
    rw [if_pos rfl, if_pos rfl,
      final_schema ms fails { sh with opened := sh.opened || !fails (.begin 0) } hhead hempty,
      final_append, final_single, step_attach ms fails
        { sh with columns := createdColumns m0 fails, opened := sh.opened || !fails (.begin 0) }
        hn hnew]
    let ready : Shape := { sh with
      columns := createdColumns m0 fails
      opened := sh.opened || !fails (.begin 0)
      attached := if fails (.attach 0) then sh.attached else 0 :: sh.attached }
    have hcopied := final_copies ms fails hinto ready (hsettled ready rfl rfl rfl)
    have hlands := any_lands_iff ms hcopies ready rfl hhere fun hpos => absurd hpos (Nat.lt_irrefl 0)
    refine after_tail h sh.offsets rfl rfl rfl hbound rfl hlands ?_ hcopied
    rw [h.offsets]
    constructor
    · rintro ⟨_, k, _, hk, _⟩
      exact absurd hk (Nat.not_lt_zero k)
    · rintro ⟨_, k, hpos, hk, _⟩
      exact absurd hk (Nat.not_lt.mpr hpos)
  · have hpos := Nat.pos_of_ne_zero hzero
    have hcolumns := h.columns
    rw [if_neg hzero] at hcolumns
    have hnil : ∀ sh', final (shapeExec ms) fails [] sh' = sh' := fun _ => rfl
    rw [if_neg hzero, if_neg hzero, hnil, final_append, final_single,
      step_attach ms fails { sh with opened := sh.opened || !fails (.begin n) } hn hnew]
    let made : Bool := sh.offsets ||
      (!fails (.createOffsets n) && offsetTables.all fun t => hasId (sh.columns t))
    have hmade : made = true ↔ HasOffsets m0 fails n := by
      rw [Bool.or_eq_true, h.offsets, Bool.and_eq_true, Bool.not_eq_true', List.all_eq_true,
        hcolumns, HasOffsets]
      refine or_congr_right ⟨fun hmake => ⟨hmake.2, hpos, hmake.1⟩, fun hmake => ?_⟩
      exact ⟨hmake.2.2, hmake.1⟩
    let ready : Shape := { sh with
      opened := sh.opened || !fails (.begin n)
      attached := if fails (.attach n) then sh.attached else n :: sh.attached }
    let readyToCopy : Shape := { ready with offsets := made }
    have hcopied := final_copies ms fails hinto readyToCopy (hsettled readyToCopy rfl rfl rfl)
    have hlands := any_lands_iff ms hcopies readyToCopy hcolumns hhere fun _ => hmade
    refine after_tail h (made && fails (.dropOffsets n)) rfl rfl rfl hbound hcolumns hlands ?_ ?_
    · rw [Bool.and_eq_true, hmade, offsetsLeft_succ m0 fails hpos]
    · rw [final_append, final_single, step_createOffsets, final_append, final_single,
        step_dropOffsets]
      exact congrArg (fun r : Shape => { r with offsets := r.offsets && fails (.dropOffsets n) })
        hcopied

/-! ## Scripts without a failure -/

theorem completes_stmt_iff : Completes (shapeExec ms) fails [stmt] sh ↔
      fails stmt = false ∧ canRun ms stmt sh = true := by
  rw [completes_single_iff, shapeExec]
  refine and_congr_right fun _ => ?_
  cases canRun ms stmt sh <;> simp

/-- The schema statements fail only when they are made to. -/
theorem completes_schema (hhead : ∀ t, sourceOf ms 0 t = m0 t) (hempty : sh.columns = fun _ => none)
    (hworks : ∀ spec ∈ existing m0, fails (.createTable spec.name) = false) :
    Completes (shapeExec ms) fails ((existing m0).map fun spec => .createTable spec.name) sh := by
  have hall : ∀ (specs : List TableSpec) (sh : Shape), (specs.map TableSpec.name).Nodup →
      (∀ spec ∈ specs, (m0 spec.name).isSome ∧ fails (.createTable spec.name) = false ∧
        sh.columns spec.name = none) →
      Completes (shapeExec ms) fails (specs.map fun spec => .createTable spec.name) sh := by
    intro specs
    induction specs with
    | nil => intro sh _ _; exact completes_nil
    | cons spec specs ih =>
        intro sh hnodup hspecs
        obtain ⟨hnew, hnodup⟩ := List.nodup_cons.mp hnodup
        obtain ⟨hsome, hspecWorks, hnone⟩ := hspecs spec List.mem_cons_self
        have hcan : canRun ms (.createTable spec.name) sh = true := by
          rw [canRun, hhead, hsome, hnone]
          rfl
        rw [List.map_cons, completes_cons_iff, completes_stmt_iff]
        refine ⟨⟨hspecWorks, hcan⟩, ?_⟩
        rw [final_single, step_eq, if_pos ⟨hspecWorks, hcan⟩]
        refine ih _ hnodup fun s hs => ?_
        obtain ⟨hsSome, hsWorks, hsNone⟩ := hspecs s (List.mem_cons_of_mem _ hs)
        have hne : s.name ≠ spec.name := fun heq =>
          hnew (heq ▸ List.mem_map_of_mem (f := TableSpec.name) hs)
        exact ⟨hsSome, hsWorks, (Function.update_of_ne hne _ _).trans hsNone⟩
  refine hall (existing m0) sh ((List.filter_sublist.map TableSpec.name).nodup (by decide)) ?_
  intro spec hspec
  exact ⟨(List.mem_filter.mp hspec).2, hworks spec hspec, by rw [hempty]⟩

/-- The copies of a module complete when each of them works and can run. -/
theorem completes_copies_iff (hcopies : ∀ stmt ∈ copies, ∃ i t, stmt.insertInto = some (i, t))
    (sh : Shape) :
    Completes (shapeExec ms) fails copies sh ↔
      ∀ stmt ∈ copies, fails stmt = false ∧ canRun ms stmt sh = true := by
  induction copies generalizing sh with
  | nil => exact iff_of_true completes_nil (by simp)
  | cons stmt copies ih =>
      obtain ⟨i, t, hinto⟩ := hcopies stmt List.mem_cons_self
      rw [completes_cons_iff, completes_stmt_iff, List.forall_mem_cons]
      refine and_congr_right fun hhere => ?_
      rw [final_single, step_eq, if_pos hhere, insert_effect ms hinto,
        ih (fun s hs => hcopies s (List.mem_cons_of_mem _ hs))]
      refine forall₂_congr fun s hs => ?_
      obtain ⟨j, u, hs'⟩ := hcopies s (List.mem_cons_of_mem _ hs)
      rw [insert_canRun_addRows ms hs']

/-- The INSERT of every table of module `i` fits. -/
def AllResolve (m0 : Tables ν) (ms : List (Tables ν)) (i : ℕ) : Prop :=
  ∀ spec ∈ existing m0, ∃ source target, sourceOf ms i spec.name = some source ∧
    m0 spec.name = some target ∧ Resolves i spec source target

/-- `_offsets` can be computed from the tables of the first module. -/
def OffsetTablesGiven (m0 : Tables ν) : Prop :=
  ∀ t ∈ offsetTables, hasId ((m0 t).map Sheet.columns) = true

theorem offsetTablesThere_iff
    (hworks : ∀ spec ∈ existing m0, fails (.createTable spec.name) = false) :
    OffsetTablesThere m0 fails ↔ OffsetTablesGiven m0 := by
  refine forall₂_congr fun t _ => ?_
  have hcolumns : createdColumns m0 fails t = (m0 t).map Sheet.columns := by
    rw [createdColumns]
    cases hm : m0 t with
    | none => split <;> rfl
    | some sheet =>
        obtain ⟨spec, hspec, rfl⟩ : ∃ spec ∈ tableSpecs, spec.name = t := by
          cases t <;> decide
        have hmem : spec ∈ existing m0 := List.mem_filter.mpr ⟨hspec, by rw [hm]; rfl⟩
        rw [hworks spec hmem]
        rfl
  rw [hcolumns]

theorem mapM_total {α β : Type} {f : α → Option β} {l : List α} {r : List β}
    (h : l.mapM f = some r) {a : α} (ha : a ∈ l) : ∃ b, f a = some b := by
  induction l generalizing r with
  | nil => exact absurd ha List.not_mem_nil
  | cons x l ih =>
      rw [List.mapM_cons] at h
      simp only [Option.bind_eq_bind, Option.bind_eq_some_iff, Option.pure_def,
        Option.some.injEq] at h
      obtain ⟨b, hb, rest, hrest, _⟩ := h
      rcases List.mem_cons.mp ha with rfl | hmem
      · exact ⟨b, hb⟩
      · exact ih hrest hmem

/-- The copies complete when they fit, once everything else has worked. -/
theorem completes_ready_iff (ms : List (Tables ν)) (ready : Shape)
    (hcopies : (existing m0).mapM (copyStatement m0 n) = some copies)
    (hworks : ∀ stmt ∈ copies, fails stmt = false)
    (hcreated : ∀ spec ∈ existing m0, fails (.createTable spec.name) = false)
    (hattach : fails (.attach n) = false) (hcolumns : ready.columns = createdColumns m0 fails)
    (hattached : n ∈ ready.attached) (hoffsets : 0 < n → ready.offsets = true)
    (hhas : 0 < n → HasOffsets m0 fails n) :
    Completes (shapeExec ms) fails copies ready ↔ AllResolve m0 ms n := by
  have hinto := insertInto_of_copies hcopies
  have hcan : ∀ spec ∈ existing m0, ∀ stmt, copyStatement m0 n spec = some stmt →
      (canRun ms stmt ready = true ↔ ∃ source target, sourceOf ms n spec.name = some source ∧
        m0 spec.name = some target ∧ Resolves n spec source target) := by
    intro spec hspec stmt hstmt
    rw [canRun_copy_iff hstmt hcolumns (iff_of_true hattached hattach)
      fun hn => iff_of_true (hoffsets hn) (hhas hn)]
    constructor
    · rintro ⟨-, -, source, target, hsource, htarget, hresolves, -⟩
      exact ⟨source, target, hsource, htarget, hresolves⟩
    · rintro ⟨source, target, hsource, htarget, hresolves⟩
      refine ⟨hattach, hcreated spec hspec, source, target, hsource, htarget, hresolves, fun hs => ?_⟩
      exact hhas (Nat.pos_of_ne_zero fun hzero => hs.1 (Or.inl hzero))
  rw [completes_copies_iff hinto]
  constructor
  · intro hall spec hspec
    obtain ⟨stmt, hstmt⟩ := mapM_total hcopies hspec
    have hmem := (mem_mapM_iff hcopies stmt).mpr ⟨spec, hspec, hstmt⟩
    exact (hcan spec hspec stmt hstmt).mp (hall stmt hmem).2
  · intro hall stmt hmem
    obtain ⟨spec, hspec, hstmt⟩ := (mem_mapM_iff hcopies stmt).mp hmem
    exact ⟨hworks stmt hmem, (hcan spec hspec stmt hstmt).mpr (hall spec hspec)⟩

theorem completes_end (hcommit : fails (.commit n) = false) (hdetach : fails (.detach n) = false)
    (hopened : sh.opened = true) (hattached : n ∈ sh.attached) :
    Completes (shapeExec ms) fails [.commit n, .detach n] sh := by
  rw [completes_cons_iff, completes_stmt_iff, final_single, step_commit, completes_stmt_iff]
  refine ⟨⟨hcommit, hopened⟩, hdetach, ?_⟩
  rw [canRun, decide_eq_true hattached, hcommit, Bool.and_false]
  rfl

/-- **A module's transaction completes** when its statements work, `_offsets` can be computed and
    its tables fit. -/
theorem completes_block_iff (hhead : ∀ t, sourceOf ms 0 t = m0 t) (hn : n < ms.length)
    (hblock : moduleScript m0 n = some block) (h : After m0 fails ms n sh)
    (hclosed : sh.opened = false) (hleft : sh.offsets = false)
    (hearlier : 0 < n → ∀ spec ∈ existing m0, fails (.createTable spec.name) = false)
    (hworks : ∀ stmt ∈ block, fails stmt = false) :
    Completes (shapeExec ms) fails block sh ↔
      (0 < n → OffsetTablesThere m0 fails) ∧ AllResolve m0 ms n := by
  obtain ⟨copies, hcopies, rfl⟩ := moduleScript_eq_some hblock
  have hinto := insertInto_of_copies hcopies
  have hbegin : fails (.begin n) = false := hworks _ (by simp)
  have hattach : fails (.attach n) = false := hworks _ (by simp)
  have hcommit : fails (.commit n) = false := hworks _ (by simp)
  have hdetach : fails (.detach n) = false := hworks _ (by simp)
  have hcopyWorks : ∀ stmt ∈ copies, fails stmt = false := by
    intro stmt hmem
    refine hworks stmt ?_
    by_cases hzero : n = 0
    · simp [hzero, hmem]
    · simp [hzero, hmem]
  have hnew : n ∉ sh.attached := fun hmem => Nat.lt_irrefl n (h.attached n hmem)
  have hcanBegin : canRun ms (.begin n) sh = true := by rw [canRun, hclosed]; rfl
  have hcanAttach : ∀ sh' : Shape, sh'.attached = sh.attached → canRun ms (.attach n) sh' = true := by
    intro sh' hsame
    rw [canRun, hsame, decide_eq_true hn, decide_eq_true hnew]
    rfl
  have hsettled : ∀ sh' : Shape, sh'.opened = true → sh'.Settled :=
    fun sh' hopen hclosed' => absurd (hopen.symm.trans hclosed') (by simp)
  have hworked : ∀ {stmt : Stmt} {sh' : Shape}, fails stmt = false → canRun ms stmt sh' = true →
      final (shapeExec ms) fails [stmt] sh' = effect ms stmt sh' := by
    intro stmt sh' hstmt hrun
    rw [final_single, step_eq, if_pos ⟨hstmt, hrun⟩]
  rw [completes_append_iff, completes_stmt_iff, hworked hbegin hcanBegin, completes_append_iff]
  by_cases hzero : n = 0
  · subst hzero
    have hempty := h.columns
    rw [if_pos rfl] at hempty
    have hcreated : ∀ spec ∈ existing m0, fails (.createTable spec.name) = false := by
      intro spec hspec
      refine hworks _ (List.mem_append_right _ (List.mem_append_left _ ?_))
      rw [if_pos rfl]
      exact List.mem_map_of_mem (f := fun spec => Stmt.createTable spec.name) hspec
    let ready : Shape := { sh with
      columns := createdColumns m0 fails
      opened := true
      attached := 0 :: sh.attached }
    have hready := completes_ready_iff ms ready hcopies hcopyWorks hcreated hattach
      rfl List.mem_cons_self (fun hpos => absurd hpos (Nat.lt_irrefl 0))
      fun hpos => absurd hpos (Nat.lt_irrefl 0)
    have hschema : final (shapeExec ms) fails
        ((existing m0).map fun spec => .createTable spec.name) (effect ms (.begin 0) sh) =
          { sh with columns := createdColumns m0 fails, opened := true } :=
      final_schema ms fails { sh with opened := true } hhead hempty
    have hcan := hcanAttach { sh with columns := createdColumns m0 fails, opened := true } rfl
    have hcopied := final_copies ms fails hinto ready (hsettled ready rfl)
    rw [if_pos rfl, if_pos rfl, hschema, completes_append_iff, completes_stmt_iff,
      hworked hattach hcan, completes_append_iff]
    constructor
    · rintro ⟨-, -, -, hcomplete, -⟩
      exact ⟨fun hpos => absurd hpos (Nat.lt_irrefl 0), hready.mp hcomplete⟩
    · rintro ⟨-, hresolve⟩
      refine ⟨⟨hbegin, hcanBegin⟩, completes_schema hhead hempty hcreated, ⟨hattach, hcan⟩,
        hready.mpr hresolve, ?_⟩
      exact hcopied.symm ▸ completes_end hcommit hdetach rfl List.mem_cons_self
  · have hpos := Nat.pos_of_ne_zero hzero
    have hcolumns := h.columns
    rw [if_neg hzero] at hcolumns
    have hcreate : fails (.createOffsets n) = false := hworks _ (by simp [hzero])
    have hdrop : fails (.dropOffsets n) = false := hworks _ (by simp [hzero])
    have hnil : ∀ sh', final (shapeExec ms) fails [] sh' = sh' := fun _ => rfl
    have hcan := hcanAttach (effect ms (.begin n) sh) rfl
    let attached : Shape := effect ms (.attach n) (effect ms (.begin n) sh)
    have hcanCreate : canRun ms (.createOffsets n) attached = true ↔
        OffsetTablesThere m0 fails := by
      have hoffsets : attached.offsets = false := hleft
      have hsame : attached.columns = createdColumns m0 fails := hcolumns
      rw [canRun, hoffsets, hsame, Bool.not_false, Bool.true_and, List.all_eq_true,
        OffsetTablesThere]
    let ready : Shape := effect ms (.createOffsets n) attached
    have hcopied := final_copies ms fails hinto ready (hsettled ready rfl)
    have hready (hthere : OffsetTablesThere m0 fails) :=
      completes_ready_iff ms ready hcopies hcopyWorks (hearlier hpos) hattach hcolumns
        List.mem_cons_self (fun _ => rfl) fun _ => Or.inr ⟨hthere, hpos, hcreate⟩
    rw [if_neg hzero, if_neg hzero, hnil, completes_append_iff, completes_stmt_iff,
      hworked hattach hcan, List.append_assoc, completes_append_iff, completes_stmt_iff]
    constructor
    · rintro ⟨-, -, -, ⟨-, hthere⟩, hrest⟩
      have hthere := hcanCreate.mp hthere
      rw [hworked hcreate (hcanCreate.mpr hthere), List.append_assoc, completes_append_iff] at hrest
      exact ⟨fun _ => hthere, (hready hthere).mp hrest.1⟩
    · rintro ⟨hthere, hresolve⟩
      have hthere := hthere hpos
      refine ⟨⟨hbegin, hcanBegin⟩, completes_nil, ⟨hattach, hcan⟩,
        ⟨hcreate, hcanCreate.mpr hthere⟩, ?_⟩
      rw [hworked hcreate (hcanCreate.mpr hthere), List.append_assoc, completes_append_iff]
      refine ⟨(hready hthere).mpr hresolve, ?_⟩
      have hlast : Completes (shapeExec ms) fails
          ([.dropOffsets n] ++ [.commit n, .detach n])
          (ready.addRows (copies.any (lands ms fails ready))) := by
        rw [completes_append_iff, completes_stmt_iff, final_single, step_dropOffsets]
        exact ⟨⟨hdrop, rfl⟩, completes_end hcommit hdetach rfl List.mem_cons_self⟩
      exact hcopied.symm ▸ hlast

/-! ## The whole script -/

/-- The shape of a fresh session. -/
def startShape : Shape := ⟨fun _ => none, false, false, false, false, []⟩

theorem after_zero (m0 : Tables ν) (fails : Stmt → Bool) (ms : List (Tables ν)) :
    After m0 fails ms 0 startShape := by
  have hnone : ∀ P : ℕ → Prop, ¬ ∃ i < 0, P i := fun P h => by
    obtain ⟨i, hi, _⟩ := h
    exact absurd hi (Nat.not_lt_zero i)
  refine ⟨rfl, iff_of_false Bool.false_ne_true (hnone _), iff_of_false Bool.false_ne_true ?_,
    fun j hj => absurd hj List.not_mem_nil, iff_of_false Bool.false_ne_true (hnone _),
    iff_of_false Bool.false_ne_true (hnone _), fun _ => rfl⟩
  rintro ⟨_, k, _, hk, _⟩
  exact absurd hk (Nat.not_lt_zero k)

theorem mapM_range_succ {α : Type} {f : ℕ → Option α} {k : ℕ} {r : List α}
    (h : (List.range (k + 1)).mapM f = some r) :
    ∃ first last, (List.range k).mapM f = some first ∧ f k = some last ∧ r = first ++ [last] := by
  rw [List.range_succ, List.mapM_append] at h
  simp only [Option.bind_eq_bind, Option.bind_eq_some_iff, List.mapM_cons, List.mapM_nil,
    Option.pure_def, Option.some.injEq, Option.bind_some] at h
  obtain ⟨first, hfirst, singleton, ⟨last, hlast, rfl⟩, rfl⟩ := h
  exact ⟨first, last, hfirst, hlast, rfl⟩

section Whole

variable {m0 : Tables ν} {fails : Stmt → Bool} {ms : List (Tables ν)}

variable {blocks : List (List Stmt)}

theorem after_blocks (hhead : ∀ t, sourceOf ms 0 t = m0 t) {k : ℕ} (hk : k ≤ ms.length)
    (hblocks : (List.range k).mapM (moduleScript m0) = some blocks) :
    After m0 fails ms k (final (shapeExec ms) fails blocks.flatten startShape) := by
  induction k generalizing blocks with
  | zero =>
      obtain rfl : [] = blocks := Option.some.inj hblocks
      exact after_zero m0 fails ms
  | succ k ih =>
      obtain ⟨first, last, hfirst, hlast, rfl⟩ := mapM_range_succ hblocks
      rw [List.flatten_append, List.flatten_singleton, final_append]
      exact after_block hhead hk hlast (ih (Nat.le_of_succ_le hk) hfirst)

theorem not_leftOpen {k : ℕ} (hworks : ∀ j < k, fails (.commit j) = false) : ¬ LeftOpen fails k := by
  rintro ⟨j, hj, _, hcommits⟩
  exact absurd (hcommits j le_rfl hj) (by rw [hworks j hj]; exact Bool.false_ne_true)

theorem not_offsetsLeft {k : ℕ} (hworks : ∀ j < k, 0 < j → fails (.dropOffsets j) = false) :
    ¬ OffsetsLeft m0 fails k := by
  rintro ⟨_, j, hpos, hj, _, hdrops⟩
  exact absurd (hdrops j le_rfl hj) (by rw [hworks j hj hpos]; exact Bool.false_ne_true)

theorem mem_moduleScript {n : ℕ} {block : List Stmt} (h : moduleScript m0 n = some block) :
    Stmt.commit n ∈ block ∧ (0 < n → Stmt.dropOffsets n ∈ block) ∧
      (n = 0 → ∀ spec ∈ existing m0, Stmt.createTable spec.name ∈ block) := by
  obtain ⟨copies, _, rfl⟩ := moduleScript_eq_some h
  refine ⟨by simp, fun hpos => by simp [Nat.ne_of_gt hpos], fun hzero spec hspec => ?_⟩
  refine List.mem_append_right _ (List.mem_append_left _ ?_)
  rw [if_pos hzero]
  exact List.mem_map_of_mem (f := fun spec => Stmt.createTable spec.name) hspec

theorem mem_blocks {k : ℕ} (hblocks : (List.range k).mapM (moduleScript m0) = some blocks) {j : ℕ}
    (hj : j < k) : ∃ block ∈ blocks, moduleScript m0 j = some block := by
  obtain ⟨block, hblock⟩ := mapM_total hblocks (List.mem_range.mpr hj)
  exact ⟨block, (mem_mapM_iff hblocks block).mpr ⟨j, List.mem_range.mpr hj, hblock⟩, hblock⟩

/-- When the transactions complete. -/
theorem completes_blocks_iff (hhead : ∀ t, sourceOf ms 0 t = m0 t) {k : ℕ} (hk : k ≤ ms.length)
    (hblocks : (List.range k).mapM (moduleScript m0) = some blocks) :
    Completes (shapeExec ms) fails blocks.flatten startShape ↔
      (∀ stmt ∈ blocks.flatten, fails stmt = false) ∧ (1 < k → OffsetTablesGiven m0) ∧
        ∀ i < k, AllResolve m0 ms i := by
  induction k generalizing blocks with
  | zero =>
      obtain rfl : [] = blocks := Option.some.inj hblocks
      exact iff_of_true completes_nil ⟨by simp, fun h => absurd h (by simp), fun i hi =>
        absurd hi (Nat.not_lt_zero i)⟩
  | succ k ih =>
      obtain ⟨first, last, hfirst, hlast, rfl⟩ := mapM_range_succ hblocks
      have hkle := Nat.le_of_succ_le hk
      have hafter : After m0 fails ms k _ := after_blocks hhead hkle hfirst
      rw [List.flatten_append, List.flatten_singleton, completes_append_iff, ih hkle hfirst]
      have hblock (hworks : ∀ stmt ∈ first.flatten ++ last, fails stmt = false) :
          Completes (shapeExec ms) fails last
              (final (shapeExec ms) fails first.flatten startShape) ↔
            (0 < k → OffsetTablesGiven m0) ∧ AllResolve m0 ms k := by
        have hearly : ∀ j < k, ∀ stmt, (∀ block, moduleScript m0 j = some block → stmt ∈ block) →
            fails stmt = false := by
          intro j hj stmt hstmt
          obtain ⟨block, hmem, hblock⟩ := mem_blocks hfirst hj
          exact hworks stmt (List.mem_append_left _
            (List.mem_flatten.mpr ⟨block, hmem, hstmt block hblock⟩))
        have hclosed : (final (shapeExec ms) fails first.flatten startShape).opened = false := by
          rw [← Bool.not_eq_true, hafter.opened]
          exact not_leftOpen fun j hj => hearly j hj _ fun _ h => (mem_moduleScript h).1
        have hleft : (final (shapeExec ms) fails first.flatten startShape).offsets = false := by
          rw [← Bool.not_eq_true, hafter.offsets]
          exact not_offsetsLeft fun j hj hpos => hearly j hj _ fun _ h => (mem_moduleScript h).2.1 hpos
        have hcreated : 0 < k → ∀ spec ∈ existing m0, fails (.createTable spec.name) = false :=
          fun hpos spec hspec => hearly 0 hpos _ fun _ h => (mem_moduleScript h).2.2 rfl spec hspec
        rw [completes_block_iff hhead hk hlast hafter hclosed hleft hcreated
          fun stmt hmem => hworks stmt (List.mem_append_right _ hmem)]
        exact and_congr_left fun _ => forall_congr' fun hpos => offsetTablesThere_iff (hcreated hpos)
      have hsplit : (∀ i < k + 1, AllResolve m0 ms i) ↔
          (∀ i < k, AllResolve m0 ms i) ∧ AllResolve m0 ms k := Nat.forall_lt_succ_right
      constructor
      · rintro ⟨⟨hfirstWorks, hgiven, hresolve⟩, hcomplete⟩
        have hworks : ∀ stmt ∈ first.flatten ++ last, fails stmt = false := by
          intro stmt hmem
          rcases List.mem_append.mp hmem with hearly | hlate
          · exact hfirstWorks stmt hearly
          · exact hcomplete.works hlate
        obtain ⟨hoffsets, hlastResolve⟩ := (hblock hworks).mp hcomplete
        exact ⟨hworks, fun hlt => hoffsets (Nat.lt_of_succ_lt_succ hlt),
          hsplit.mpr ⟨hresolve, hlastResolve⟩⟩
      · rintro ⟨hworks, hgiven, hresolve⟩
        obtain ⟨hresolve, hlastResolve⟩ := hsplit.mp hresolve
        exact ⟨⟨fun stmt hmem => hworks stmt (List.mem_append_left _ hmem),
            fun hlt => hgiven (Nat.lt_succ_of_lt hlt), hresolve⟩,
          (hblock hworks).mpr ⟨fun hpos => hgiven (Nat.succ_lt_succ hpos), hlastResolve⟩⟩

end Whole

theorem mergeScript_eq_some {script : List Stmt} (h : mergeScript m0 n = some script) : ∃ blocks,
      (List.range n).mapM (moduleScript m0) = some blocks ∧
        script = pragmas ++ (blocks.flatten ++ [.count ((existing m0).map TableSpec.name)]) := by
  rw [mergeScript] at h
  cases hblocks : (List.range n).mapM (moduleScript m0) with
  | none =>
      rw [hblocks] at h
      exact absurd h (by simp)
  | some blocks =>
      rw [hblocks] at h
      refine ⟨blocks, rfl, (Option.some.inj h).symm.trans ?_⟩
      rw [List.append_assoc]

section Script

variable {m0 : Tables ν} {fails : Stmt → Bool} {ms : List (Tables ν)} {script : List Stmt}

theorem final_pragmas (sh : Shape) : final (shapeExec ms) fails pragmas sh = sh := by
  have hstep : ∀ p, step (shapeExec ms) fails sh (.pragma p) = sh := by
    intro p
    rw [step_eq]
    exact ite_self sh
  rw [final_eq_foldl, pragmas]
  simp only [List.foldl_cons, List.foldl_nil, hstep]

/-- **What a run of the merge script leaves**, whatever fails. -/
theorem after_script (hhead : ∀ t, sourceOf ms 0 t = m0 t)
    (hscript : mergeScript m0 ms.length = some script) :
    After m0 fails ms ms.length (final (shapeExec ms) fails script startShape) := by
  obtain ⟨blocks, hblocks, rfl⟩ := mergeScript_eq_some hscript
  rw [final_append, final_pragmas, final_append, final_single, step_eq]
  have hcount : ∀ (tables : List Table) (sh : Shape), effect ms (.count tables) sh = sh :=
    fun _ _ => rfl
  rw [hcount, ite_self]
  exact after_blocks hhead le_rfl hblocks

/-- **When the merge script completes.** -/
theorem completes_script_iff (hhead : ∀ t, sourceOf ms 0 t = m0 t) (hne : 0 < ms.length)
    (hscript : mergeScript m0 ms.length = some script) :
    Completes (shapeExec ms) fails script startShape ↔ (∀ stmt ∈ script, fails stmt = false) ∧
      (1 < ms.length → OffsetTablesGiven m0) ∧ ∀ i < ms.length, AllResolve m0 ms i := by
  obtain ⟨blocks, hblocks, rfl⟩ := mergeScript_eq_some hscript
  have hafter : After m0 fails ms ms.length _ := after_blocks hhead le_rfl hblocks
  have hcan (hworks : ∀ stmt ∈ blocks.flatten, fails stmt = false) :
      canRun ms (.count ((existing m0).map TableSpec.name))
        (final (shapeExec ms) fails blocks.flatten startShape) = true := by
    rw [canRun, hafter.columns, if_neg (Nat.ne_of_gt hne), List.all_eq_true]
    intro t ht
    obtain ⟨spec, hspec, rfl⟩ := List.mem_map.mp ht
    obtain ⟨block, hmem, hblock⟩ := mem_blocks hblocks hne
    have hcreate := hworks _ (List.mem_flatten.mpr
      ⟨block, hmem, (mem_moduleScript hblock).2.2 rfl spec hspec⟩)
    rw [createdColumns, hcreate, if_neg Bool.false_ne_true, Option.isSome_map]
    exact (List.mem_filter.mp hspec).2
  have hpragmas (hworks : ∀ stmt ∈ pragmas, fails stmt = false) :
      Completes (shapeExec ms) fails pragmas startShape := by
    have hone : ∀ {p : Pragma} {rest : List Stmt} {sh : Shape}, fails (.pragma p) = false →
        Completes (shapeExec ms) fails rest sh →
          Completes (shapeExec ms) fails (.pragma p :: rest) sh := by
      intro p rest sh hp hrest
      have hsame : final (shapeExec ms) fails [.pragma p] sh = sh := by
        rw [final_single, step_eq]
        exact ite_self sh
      rw [completes_cons_iff, completes_stmt_iff, hsame]
      exact ⟨⟨hp, rfl⟩, hrest⟩
    exact hone (hworks _ (by simp [pragmas])) (hone (hworks _ (by simp [pragmas]))
      (hone (hworks _ (by simp [pragmas])) (hone (hworks _ (by simp [pragmas])) completes_nil)))
  rw [completes_append_iff, final_pragmas, completes_append_iff,
    completes_blocks_iff hhead le_rfl hblocks, completes_stmt_iff]
  constructor
  · rintro ⟨hp, ⟨hworks, hgiven, hresolve⟩, hcount, -⟩
    refine ⟨fun stmt hmem => ?_, hgiven, hresolve⟩
    rcases List.mem_append.mp hmem with hmem | hmem
    · exact hp.works hmem
    · rcases List.mem_append.mp hmem with hmem | hmem
      · exact hworks stmt hmem
      · rw [List.mem_singleton.mp hmem]
        exact hcount
  · rintro ⟨hworks, hgiven, hresolve⟩
    have hblocksWork : ∀ stmt ∈ blocks.flatten, fails stmt = false := fun stmt hmem =>
      hworks stmt (List.mem_append_right _ (List.mem_append_left _ hmem))
    exact ⟨hpragmas fun stmt hmem => hworks stmt (List.mem_append_left _ hmem),
      ⟨hblocksWork, hgiven, hresolve⟩,
      hworks _ (List.mem_append_right _ (List.mem_append_right _ (List.mem_singleton_self _))),
      hcan hblocksWork⟩

end Script

end CodeScope.Merge
