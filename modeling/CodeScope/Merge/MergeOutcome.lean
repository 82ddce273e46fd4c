import CodeScope.Merge.MergeRun

/-! # Is the merge atomic and complete?

A result that says `merged: false` should leave the main database without rows, one that says
`merged: true` should have copied every table of every module. The schema check compares the other
modules with the first one's tables only, and every module has its own transaction. -/

namespace CodeScope.Merge

open Text Script Connection

variable {ν : Type}

/-! ## The schema check -/

theorem normalise_plain {name : Str} (h : Plain name) : normalise name = name :=
  List.filter_eq_self.mpr fun c hc => by
    have hspace : c ≠ ' ' := fun heq => h.2 ' ' (by decide) (heq ▸ hc)
    simpa using hspace

theorem normalise_join (sep : Str) (hsep : normalise sep = [',']) {names : List Str}
    (h : ∀ name ∈ names, Plain name) :
    normalise (sep.intercalate names) = [','].intercalate names := by
  induction names with
  | nil => rfl
  | cons first others ih =>
      have hfirst := normalise_plain (h first List.mem_cons_self)
      have hothers := ih fun name hmem => h name (List.mem_cons_of_mem _ hmem)
      cases others with
      | nil => rw [List.intercalate_singleton, List.intercalate_singleton, hfirst]
      | cons second more =>
          rw [List.intercalate_cons_cons, List.intercalate_cons_cons, ← hothers, ← hsep]
          conv_rhs => rw [← hfirst]
          simp only [normalise, List.filter_append]

/-- The texts that the check compares are equal exactly when the lists of names are. -/
theorem joined_eq_iff {names expected : List Str} (hnames : ∀ name ∈ names, Plain name)
    (hexpected : ∀ name ∈ expected, Plain name) :
    normalise (groupConcat names) = normalise (joinExpected expected) ↔ names = expected := by
  rw [groupConcat, joinExpected, normalise_join [','] rfl hnames,
    normalise_join [',', ' '] rfl hexpected]
  have hcomma : ∀ {l : List Str}, (∀ name ∈ l, Plain name) → ∀ name ∈ l, ',' ∉ name :=
    fun h name hmem => (h name hmem).2 ',' (by decide)
  have hnil : ∀ {l : List Str}, (∀ name ∈ l, Plain name) →
      ([','].intercalate l = [] ↔ l = []) := by
    intro l hl
    cases l with
    | nil => exact iff_of_true rfl rfl
    | cons first others =>
        refine iff_of_false (fun h => ?_) (by simp)
        have hfirst := (hl first List.mem_cons_self).1
        cases others with
        | nil => exact hfirst (by rwa [List.intercalate_singleton] at h)
        | cons second more =>
            rw [List.intercalate_cons_cons, List.append_assoc, List.append_eq_nil_iff] at h
            exact hfirst h.1
  constructor
  · intro heq
    by_cases hempty : names = []
    · rw [hempty, eq_comm]
      exact (hnil hexpected).mp (heq.symm.trans ((hnil hnames).mpr hempty))
    · have hother : expected ≠ [] := fun h =>
        hempty ((hnil hnames).mp (heq.trans ((hnil hexpected).mpr h)))
      rw [← segments_intercalate hempty (hcomma hnames), heq,
        segments_intercalate hother (hcomma hexpected)]
  · rintro rfl
    rfl

variable {target : Sheet ν} {faults : MergeFaults} {m0 : Tables ν} {others : List (Tables ν)}
  {script : List Stmt}

theorem sameColumns_iff (m : Tables ν) (t : Table) (hne : dataColumns target ≠ []) :
    sameColumns m t (dataColumns target) = true ↔
      ∃ source, m t = some source ∧ dataColumns source = dataColumns target := by
  have hplain : ∀ sheet : Sheet ν, ∀ name ∈ dataColumns sheet, Plain name :=
    fun sheet name h => sheet.plain name (mem_of_mem_dataColumns h)
  rw [sameColumns, decide_eq_true_eq]
  cases hm : m t with
  | none =>
      have hjoin : normalise (groupConcat []) = normalise (joinExpected (dataColumns target)) ↔
          [] = dataColumns target := joined_eq_iff (by simp) (hplain target)
      refine iff_of_false (fun h => hne (hjoin.mp h).symm) ?_
      rintro ⟨source, hsource, _⟩
      exact absurd hsource (by simp)
  | some source =>
      rw [Option.map_some, Option.getD_some, joined_eq_iff (hplain source) (hplain target)]
      constructor
      · exact fun h => ⟨source, rfl, h⟩
      · rintro ⟨source', hsource, h⟩
        obtain rfl := Option.some.inj hsource
        exact h

/-- A script whose check passes meets the columns of the first module everywhere. -/
theorem preflight_columns (h : preflight faults m0 others = none) {m : Tables ν} (hm : m ∈ others)
    {t : Table} (htarget : m0 t = some target) (hne : dataColumns target ≠ []) :
    ∃ source, m t = some source ∧ dataColumns source = dataColumns target := by
  have hcols : allCols m0 t = some (dataColumns target) := by
    simp only [allCols, htarget, Option.bind_eq_bind, Option.bind_some, guard, if_pos hne,
      Option.pure_def]
  obtain ⟨spec, hspec, rfl⟩ : ∃ spec ∈ tableSpecs, spec.name = t := by
    cases t <;> decide
  have hexisting : spec ∈ existing m0 := List.mem_filter.mpr ⟨hspec, by rw [htarget]; rfl⟩
  have hsome : (existing m0).any (fun s => (allCols m0 s.name).isSome) = true :=
    List.any_eq_true.mpr ⟨spec, hexisting, by rw [hcols]; rfl⟩
  rw [preflight] at h
  split at h
  · exact absurd h (by simp)
  · split at h
    · exact absurd h (by simp)
    · split at h
      · exact absurd h (by simp)
      · split at h
        · exact absurd h (by simp)
        · rename_i hpass
          have hcheck : checkModuleSchemaConsistency m0 others = true := by
            by_contra hfail
            exact hpass ⟨List.ne_nil_of_mem hm, hsome, Or.inr hfail⟩
          have hspecs := List.all_eq_true.mp (List.all_eq_true.mp hcheck m hm) spec hexisting
          rw [hcols, Option.all_some] at hspecs
          exact (sameColumns_iff m spec.name hne).mp hspecs

/-! ## Copies -/

/-- The source columns of an INSERT with the columns they go to. -/
def Stmt.carries (source target : List Str) : Stmt → List (Str × Str)
  | .insertAll _ _ => source.zip target
  | .insertColumns _ _ cols => cols.zip cols
  | .insertRemapped _ _ cols => cols.zip target
  | _ => []

/-- The statement copies the table of a module, each of its columns but `rowid` to the column of
    that name. -/
def Copies (stmt : Stmt) (i : ℕ) (t : Table) (source target : Sheet ν) : Prop :=
  stmt.insertInto = some (i, t) ∧
    ∀ c ∈ source.columns, c ≠ str "rowid" → (c, c) ∈ stmt.carries source.columns target.columns

/-- Every table of every module was copied by a statement that succeeded. -/
def CompleteMerge (val : Values ν) (fails : Stmt → Bool) (m0 : Tables ν)
    (ms : List (Tables ν)) : Prop :=
  ∃ script, mergeScript m0 ms.length = some script ∧
    ∀ i t source, sourceOf ms i t = some source →
      ∃ stmt ∈ (run (exec val ms) fails false script (startSession ν)).1,
        ∃ target, m0 t = some target ∧ Copies stmt i t source target

/-! ## Complete merges -/

/-- The table is copied as `SELECT *` from every module. -/
def CopiedWhole (t : Table) : Prop :=
  ∃ spec ∈ tableSpecs, spec.name = t ∧ spec.remapCols = [] ∧ spec.skipRowid = false

/-- The columns stand where the columns of the same names stand. -/
def Aligned (source target : Sheet ν) : Prop :=
  ∀ c ∈ source.columns, c ≠ str "rowid" → (c, c) ∈ source.columns.zip target.columns

/-- The first module has every table that any module has, and where tables are copied as they are,
    the columns stand in the same places. -/
def Covered (m0 : Tables ν) (ms : List (Tables ν)) : Prop :=
  ∀ i t source, sourceOf ms i t = some source →
    ∃ target, m0 t = some target ∧ (CopiedWhole t → Aligned source target)

theorem mem_zip_self {l : List Str} {c : Str} (h : c ∈ l) : (c, c) ∈ l.zip l := by
  induction l with
  | nil => exact absurd h List.not_mem_nil
  | cons a l ih =>
      rw [List.zip_cons_cons, List.mem_cons, Prod.mk.injEq, and_self]
      exact (List.mem_cons.mp h).imp_right ih

theorem aligned_self (sheet : Sheet ν) : Aligned sheet sheet := fun _ hc _ => mem_zip_self hc

theorem insert_mem_script {n : ℕ} (hscript : mergeScript m0 n = some script) {stmt : Stmt}
    (hmem : stmt ∈ script) {i : ℕ} {t : Table} (hinto : stmt.insertInto = some (i, t)) :
    ∃ spec ∈ existing m0, copyStatement m0 i spec = some stmt ∧ spec.name = t := by
  obtain ⟨blocks, hblocks, rfl⟩ := mergeScript_eq_some hscript
  rcases List.mem_append.mp hmem with hmem | hmem
  · simp only [pragmas, List.mem_cons, List.not_mem_nil, or_false] at hmem
    rcases hmem with rfl | rfl | rfl | rfl <;> exact absurd hinto (by simp [Stmt.insertInto])
  · rcases List.mem_append.mp hmem with hmem | hmem
    · obtain ⟨block, hblock, hstmt⟩ := List.mem_flatten.mp hmem
      obtain ⟨k, _, hmodule⟩ := (mem_mapM_iff hblocks block).mp hblock
      obtain ⟨copies, hcopies, rfl⟩ := moduleScript_eq_some hmodule
      have hcopy : stmt ∈ copies := by
        cases stmt with
        | insertAll j u | insertColumns j u cols | insertRemapped j u cols =>
            by_cases hk : k = 0
            · simpa [hk] using hstmt
            · simpa [hk] using hstmt
        | _ => exact absurd hinto (by simp [Stmt.insertInto])
      obtain ⟨spec, hspec, hcopyStatement⟩ := (mem_mapM_iff hcopies stmt).mp hcopy
      have hsame := (copyStatement_insertInto hcopyStatement).symm.trans hinto
      obtain ⟨rfl, rfl⟩ := Prod.mk.inj (Option.some.inj hsame)
      exact ⟨spec, hspec, hcopyStatement, rfl⟩
    · rw [List.mem_singleton.mp hmem] at hinto
      exact absurd hinto (by simp [Stmt.insertInto])

theorem mem_existing {t : Table} (h : m0 t = some target) :
    ∃ spec ∈ existing m0, spec.name = t := by
  obtain ⟨spec, hspec, rfl⟩ : ∃ spec ∈ tableSpecs, spec.name = t := by
    cases t <;> decide
  exact ⟨spec, List.mem_filter.mpr ⟨hspec, by rw [h]; rfl⟩, rfl⟩

theorem spec_unique {spec spec' : TableSpec} (h : spec ∈ tableSpecs) (h' : spec' ∈ tableSpecs)
    (hname : spec.name = spec'.name) : spec = spec' :=
  List.inj_on_of_nodup_map (by decide) h h' hname

/-- The statement that copies a table carries its columns where it should. -/
theorem copies_of_covered (hpreflight : preflight faults m0 others = none)
    (hcovered : Covered m0 (m0 :: others)) {i : ℕ} {spec : TableSpec} (hspec : spec ∈ existing m0)
    {stmt : Stmt} (hstmt : copyStatement m0 i spec = some stmt) {source : Sheet ν}
    (hsource : sourceOf (m0 :: others) i spec.name = some source)
    (htarget : m0 spec.name = some target) (hresolves : Resolves i spec source target) :
    Copies stmt i spec.name source target := by
  refine ⟨copyStatement_insertInto hstmt, ?_⟩
  have hfirst : i = 0 → source = target := by
    rintro rfl
    exact Option.some.inj (hsource.symm.trans htarget)
  have hdata : dataColumns target ≠ [] → dataColumns source = dataColumns target := by
    intro hne
    cases i with
    | zero => rw [hfirst rfl]
    | succ i =>
        obtain ⟨m, hm, hsheet⟩ := Option.bind_eq_some_iff.mp hsource
        obtain ⟨source', hsource', hsame⟩ :=
          preflight_columns hpreflight (List.mem_of_getElem? hm) htarget hne
        rwa [Option.some.inj (hsheet.symm.trans hsource')]
  have hmem : ∀ c ∈ source.columns, c ≠ str "rowid" → c ∈ dataColumns source :=
    fun c hc hne => List.mem_filter.mpr ⟨hc, decide_eq_true hne⟩
  rw [copyStatement] at hstmt
  by_cases hplain : i = 0 ∨ spec.remapCols = []
  · rw [if_pos hplain, buildInsertSql] at hstmt
    by_cases hskip : spec.skipRowid = true
    · rw [if_pos hskip] at hstmt
      obtain ⟨cols, hcols, rfl⟩ := Option.map_eq_some_iff.mp hstmt
      obtain ⟨target', htarget', rfl, hne⟩ := allCols_eq_some hcols
      obtain rfl := Option.some.inj (htarget'.symm.trans htarget)
      intro c hc hrowid
      have hcol := hmem c hc hrowid
      rw [hdata hne] at hcol
      exact mem_zip_self hcol
    · rw [if_neg hskip] at hstmt
      obtain rfl := Option.some.inj hstmt
      rcases hplain with hzero | hremap
      · rw [hfirst hzero]
        exact aligned_self target
      · obtain ⟨target', htarget', haligned⟩ := hcovered i spec.name source hsource
        obtain rfl := Option.some.inj (htarget'.symm.trans htarget)
        exact haligned ⟨spec, (List.mem_filter.mp hspec).1, rfl, hremap, by simpa using hskip⟩
  · rw [if_neg hplain] at hstmt
    obtain ⟨cols, hcols, rfl⟩ := Option.map_eq_some_iff.mp hstmt
    obtain ⟨target', htarget', rfl, hne⟩ := allCols_eq_some hcols
    obtain rfl := Option.some.inj (htarget'.symm.trans htarget)
    rw [Resolves, if_neg hplain] at hresolves
    have hwhole : dataColumns target' = target'.columns :=
      List.filter_eq_self.mpr (List.length_filter_eq_length_iff.mp hresolves.1)
    intro c hc hrowid
    have hcol := hmem c hc hrowid
    rw [hdata hne] at hcol
    have hself := mem_zip_self hcol
    rwa [hwhole] at hself ⊢

theorem copy_mem_script {n : ℕ} (hscript : mergeScript m0 n = some script) {i : ℕ} (hi : i < n)
    {spec : TableSpec} (hspec : spec ∈ existing m0) :
    ∃ stmt ∈ script, copyStatement m0 i spec = some stmt := by
  obtain ⟨blocks, hblocks, rfl⟩ := mergeScript_eq_some hscript
  obtain ⟨block, hmem, hmodule⟩ := mem_blocks hblocks hi
  obtain ⟨copies, hcopies, rfl⟩ := moduleScript_eq_some hmodule
  obtain ⟨stmt, hstmt⟩ := mapM_total hcopies hspec
  have hcopy := (mem_mapM_iff hcopies stmt).mpr ⟨spec, hspec, hstmt⟩
  refine ⟨stmt, List.mem_append_right _ (List.mem_append_left _
    (List.mem_flatten.mpr ⟨_, hmem, ?_⟩)), hstmt⟩
  by_cases hzero : i = 0
  · simp [hzero, hcopy]
  · simp [hzero, hcopy]

theorem sourceOf_lt {ms : List (Tables ν)} {i : ℕ} {t : Table} {source : Sheet ν}
    (h : sourceOf ms i t = some source) : i < ms.length := by
  obtain ⟨m, hm, _⟩ := Option.bind_eq_some_iff.mp h
  exact (List.getElem?_eq_some_iff.mp hm).1

/-- **A script that completes has copied everything exactly when the first module covers the
    others.** -/
theorem complete_iff_covered {val : Values ν} (hpreflight : preflight faults m0 others = none)
    (hscript : mergeScript m0 (m0 :: others).length = some script)
    (hresolve : ∀ i < (m0 :: others).length, AllResolve m0 (m0 :: others) i)
    (hdone : (run (exec val (m0 :: others)) faults.script false script (startSession ν)).1 = script) :
    CompleteMerge val faults.script m0 (m0 :: others) ↔ Covered m0 (m0 :: others) := by
  constructor
  · rintro ⟨script', hscript', hcopied⟩ i t source hsource
    obtain rfl := Option.some.inj (hscript'.symm.trans hscript)
    obtain ⟨stmt, hmem, target, htarget, hinto, hcarries⟩ := hcopied i t source hsource
    refine ⟨target, htarget, ?_⟩
    rintro ⟨spec, hspec, rfl, hremap, hskip⟩
    rw [hdone] at hmem
    obtain ⟨spec', hspec', hstmt, hname⟩ := insert_mem_script hscript' hmem hinto
    obtain rfl := spec_unique (List.mem_filter.mp hspec').1 hspec hname
    rw [copyStatement, if_pos (Or.inr hremap), buildInsertSql, if_neg (by simp [hskip])] at hstmt
    obtain rfl := Option.some.inj hstmt
    exact hcarries
  · intro hcovered
    refine ⟨script, hscript, fun i t source hsource => ?_⟩
    obtain ⟨target, htarget, _⟩ := hcovered i t source hsource
    obtain ⟨spec, hspec, rfl⟩ := mem_existing htarget
    have hi := sourceOf_lt hsource
    obtain ⟨stmt, hmem, hstmt⟩ := copy_mem_script hscript hi hspec
    obtain ⟨source', target', hsource', htarget', hresolves⟩ := hresolve i hi spec hspec
    obtain rfl := Option.some.inj (hsource'.symm.trans hsource)
    obtain rfl := Option.some.inj (htarget'.symm.trans htarget)
    refine ⟨stmt, by rwa [hdone], target', htarget', ?_⟩
    exact copies_of_covered hpreflight hcovered hspec hstmt hsource' htarget' hresolves

end CodeScope.Merge
