import Mathlib.Data.List.Nodup

/-! # Tables with uniqueness keys

A table is a list of rows in insertion order. Each key of the table is a function of the row (the
primary key, a unique constraint); an insert that would repeat the value of a key is skipped. When
no key value repeats, inserting a list of rows appends it. -/

namespace KeyedTable

variable {ρ κ : Type} [DecidableEq κ]

/-- `INSERT OR IGNORE` of one row. -/
def insertOrIgnore (keys : List (ρ → κ)) (rows : List ρ) (r : ρ) : List ρ :=
  if rows.any fun r' => keys.any fun k => k r' = k r then rows else rows ++ [r]

/-- `INSERT OR IGNORE … SELECT`: the selected rows are inserted one after the other. -/
def insertAll (keys : List (ρ → κ)) (rows selected : List ρ) : List ρ :=
  selected.foldl (insertOrIgnore keys) rows

/-- No key of the table repeats a value. -/
def Unique (keys : List (ρ → κ)) (rows : List ρ) : Prop :=
  ∀ k ∈ keys, (rows.map k).Nodup

variable {key : ρ → κ} {rows selected : List ρ} {keys : List (ρ → κ)}

omit [DecidableEq κ] in
@[simp] theorem unique_singleton : Unique [key] rows ↔ (rows.map key).Nodup := by
  simp [Unique]

omit [DecidableEq κ] in
theorem Unique.of_append {rows' : List ρ} (h : Unique keys (rows ++ rows')) : Unique keys rows := by
  intro k hk
  have hnodup := h k hk
  rw [List.map_append] at hnodup
  exact (List.nodup_append.mp hnodup).1

theorem insertOrIgnore_eq_append {r : ρ} (h : Unique keys (rows ++ [r])) :
    insertOrIgnore keys rows r = rows ++ [r] := by
  unfold insertOrIgnore
  rw [if_neg]
  intro hconflict
  obtain ⟨r', hr', hkeys⟩ := List.any_eq_true.mp hconflict
  obtain ⟨k, hk, hsame⟩ := List.any_eq_true.mp hkeys
  have hnodup := h k hk
  rw [List.map_append, List.map_singleton] at hnodup
  have hne := (List.nodup_append.mp hnodup).2.2 (k r') (List.mem_map_of_mem hr') (k r) (by simp)
  exact hne (by simpa using hsame)

/-- **Rows without conflicts are all inserted, in their order.** -/
theorem insertAll_eq_append (h : Unique keys (rows ++ selected)) :
    insertAll keys rows selected = rows ++ selected := by
  induction selected generalizing rows with
  | nil => simp [insertAll]
  | cons r rest ih =>
      have hassoc : rows ++ r :: rest = (rows ++ [r]) ++ rest := by simp
      rw [hassoc] at h
      have hone : insertOrIgnore keys rows r = rows ++ [r] := insertOrIgnore_eq_append h.of_append
      have hrest : insertAll keys (rows ++ [r]) rest = (rows ++ [r]) ++ rest := ih h
      calc insertAll keys rows (r :: rest)
          = insertAll keys (insertOrIgnore keys rows r) rest := rfl
        _ = (rows ++ [r]) ++ rest := by rw [hone, hrest]
        _ = rows ++ r :: rest := hassoc.symm

theorem Unique.insertOrIgnore (h : Unique keys rows) (r : ρ) :
    Unique keys (insertOrIgnore keys rows r) := by
  unfold KeyedTable.insertOrIgnore
  split_ifs with hconflict
  · exact h
  · intro k hk
    rw [List.map_append, List.map_singleton, List.nodup_append]
    refine ⟨h k hk, List.nodup_singleton _, ?_⟩
    intro a ha b hb heq
    obtain ⟨r', hr', rfl⟩ := List.mem_map.mp ha
    rw [List.mem_singleton.mp hb] at heq
    refine hconflict (List.any_eq_true.mpr ⟨r', hr', List.any_eq_true.mpr ⟨k, hk, ?_⟩⟩)
    exact decide_eq_true heq

theorem Unique.insertAll (h : Unique keys rows) (selected : List ρ) :
    Unique keys (insertAll keys rows selected) := by
  induction selected generalizing rows with
  | nil => exact h
  | cons r rest ih => exact ih (h.insertOrIgnore r)

theorem perm_of_classes [DecidableEq ρ] (key : ρ → κ) {rows rows' : List ρ}
    (h : ∀ k, (rows.filter fun r => key r = k).Perm (rows'.filter fun r => key r = k)) :
    rows.Perm rows' := by
  rw [List.perm_iff_count]
  intro a
  have hclass : ∀ l : List ρ, (l.filter fun r => key r = key a).count a = l.count a := by
    intro l
    exact List.count_filter (by simp)
  calc rows.count a
      = (rows.filter fun r => key r = key a).count a := (hclass rows).symm
    _ = (rows'.filter fun r => key r = key a).count a := (h (key a)).count_eq a
    _ = rows'.count a := hclass rows'

/-! ## Rows that conflict -/

/-- Some row of the table has a key value of the row. -/
def conflicts (keys : List (ρ → κ)) (rows : List ρ) (r : ρ) : Bool :=
  rows.any fun r' => keys.any fun k => k r' = k r

theorem insertOrIgnore_eq (keys : List (ρ → κ)) (rows : List ρ) (r : ρ) :
    insertOrIgnore keys rows r = if conflicts keys rows r then rows else rows ++ [r] := rfl

/-- Inserting only adds rows, and only selected ones. -/
theorem exists_insertAll_eq (keys : List (ρ → κ)) (rows selected : List ρ) :
    ∃ added, insertAll keys rows selected = rows ++ added ∧ ∀ r ∈ added, r ∈ selected := by
  induction selected generalizing rows with
  | nil => exact ⟨[], by simp [insertAll], by simp⟩
  | cons r rest ih =>
      obtain ⟨added, heq, hadded⟩ := ih (insertOrIgnore keys rows r)
      have hstep : insertAll keys rows (r :: rest) =
          insertAll keys (insertOrIgnore keys rows r) rest := rfl
      rw [hstep, heq, insertOrIgnore_eq]
      by_cases hr : conflicts keys rows r = true
      · rw [if_pos hr]
        exact ⟨added, rfl, fun s hs => List.mem_cons_of_mem _ (hadded s hs)⟩
      · rw [if_neg hr]
        refine ⟨r :: added, by simp, ?_⟩
        intro s hs
        rcases List.mem_cons.mp hs with rfl | hs
        · exact List.mem_cons_self
        · exact List.mem_cons_of_mem _ (hadded s hs)

/-- Nothing is added exactly when every selected row conflicts. -/
theorem insertAll_eq_self_iff (keys : List (ρ → κ)) (rows selected : List ρ) :
    insertAll keys rows selected = rows ↔ ∀ r ∈ selected, conflicts keys rows r = true := by
  induction selected generalizing rows with
  | nil => simp [insertAll]
  | cons r rest ih =>
      have hstep : insertAll keys rows (r :: rest) =
          insertAll keys (insertOrIgnore keys rows r) rest := rfl
      rw [hstep, insertOrIgnore_eq, List.forall_mem_cons]
      by_cases hr : conflicts keys rows r = true
      · rw [if_pos hr, ih]
        simp [hr]
      · rw [if_neg hr]
        obtain ⟨added, heq, -⟩ := exists_insertAll_eq keys (rows ++ [r]) rest
        refine iff_of_false ?_ (fun h => hr h.1)
        intro hsame
        have hlength := congrArg List.length (heq.symm.trans hsame)
        simp at hlength

theorem conflicts_append_singleton {r s : ρ} (h : ∀ k ∈ keys, k r ≠ k s) :
    conflicts keys (rows ++ [r]) s = conflicts keys rows s := by
  have hnew : (keys.any fun k => k r = k s) = false := by
    rw [List.any_eq_false]
    intro k hk
    simpa using h k hk
  rw [conflicts, conflicts, List.any_append]
  simp [hnew]

/-- **Of rows whose own keys are distinct, those without a conflict are added.** -/
theorem insertAll_eq_append_filter (rows : List ρ) (h : Unique keys selected) :
    insertAll keys rows selected =
      rows ++ selected.filter fun r => ! conflicts keys rows r := by
  induction selected generalizing rows with
  | nil => simp [insertAll]
  | cons r rest ih =>
      have hrest : Unique keys rest := fun k hk => (List.nodup_cons.mp (h k hk)).2
      have hstep : insertAll keys rows (r :: rest) =
          insertAll keys (insertOrIgnore keys rows r) rest := rfl
      rw [hstep, ih _ hrest, insertOrIgnore_eq]
      by_cases hr : conflicts keys rows r = true
      · simp [hr]
      · have hsame : (rest.filter fun s => ! conflicts keys (rows ++ [r]) s) =
            rest.filter fun s => ! conflicts keys rows s := by
          refine List.filter_congr ?_
          intro s hs
          rw [conflicts_append_singleton]
          intro k hk heq
          exact (List.nodup_cons.mp (h k hk)).1 (heq ▸ List.mem_map_of_mem hs)
        rw [if_neg hr, hsame, List.filter_cons]
        simp [hr]

/-! ## One key -/

/-- The row with a key. -/
def find (key : ρ → κ) (rows : List ρ) (k : κ) : Option ρ := rows.find? fun r => key r = k

/-- `INSERT … ON CONFLICT(key) DO UPDATE`: the row that is there is changed, else `r` is added. -/
def upsert (key : ρ → κ) (update : ρ → ρ) (r : ρ) : List ρ → List ρ
  | [] => [r]
  | row :: rows => if key row = key r then update row :: rows else row :: upsert key update r rows

theorem find_cons (key : ρ → κ) (row : ρ) (rows : List ρ) (k : κ) :
    find key (row :: rows) k = if key row = k then some row else find key rows k := by
  rw [find, List.find?_cons]
  split_ifs with hk
  · rw [decide_eq_true hk]
  · rw [decide_eq_false hk, find]

theorem key_of_find {k : κ} {row : ρ} (h : find key rows k = some row) : key row = k := by
  simpa using List.find?_some h

theorem find_id_iff {rows : List κ} {k : κ} : find id rows k = some k ↔ k ∈ rows := by
  rw [find]
  constructor
  · intro h
    exact List.mem_of_find?_eq_some h
  · intro h
    cases hfind : rows.find? fun r => id r = k with
    | none => exact absurd (List.find?_eq_none.mp hfind k h) (by simp)
    | some r =>
        have hr : r = k := by simpa using List.find?_some hfind
        rw [hr]

section Upsert

variable (key : ρ → κ) (update : ρ → ρ) (r : ρ)
  (hupdate : ∀ row, key row = key r → key (update row) = key r)

include hupdate

/-- An upsert changes the row of one key. -/
theorem find_upsert (rows : List ρ) (k : κ) :
    find key (upsert key update r rows) k =
      if key r = k then some (((find key rows k).map update).getD r) else find key rows k := by
  induction rows with
  | nil => rw [upsert, find_cons]; rfl
  | cons row rows ih =>
      rw [upsert]
      by_cases hrow : key row = key r
      · rw [if_pos hrow, find_cons, find_cons, hupdate row hrow, hrow]
        by_cases hk : key r = k
        · simp [hk]
        · simp [hk]
      · rw [if_neg hrow, find_cons, find_cons, ih]
        by_cases hk : key row = k
        · have hr : key r ≠ k := fun heq => hrow (hk.trans heq.symm)
          simp [hk, hr]
        · simp [hk]

theorem nodup_upsert {rows : List ρ} (h : (rows.map key).Nodup) :
    ((upsert key update r rows).map key).Nodup := by
  have hkeys : ∀ rows : List ρ, ∀ k ∈ (upsert key update r rows).map key,
      k = key r ∨ k ∈ rows.map key := by
    intro rows
    induction rows with
    | nil => simp [upsert]
    | cons row rows ih =>
        intro k hk
        rw [upsert] at hk
        split_ifs at hk with hrow
        · rw [List.map_cons, hupdate row hrow, ← hrow] at hk
          exact Or.inr hk
        · rcases List.mem_cons.mp hk with rfl | hrest
          · exact Or.inr List.mem_cons_self
          · rcases ih k hrest with hnew | hold
            · exact Or.inl hnew
            · exact Or.inr (List.mem_cons_of_mem _ hold)
  induction rows with
  | nil => simp [upsert]
  | cons row rows ih =>
      obtain ⟨hfresh, hrest⟩ := List.nodup_cons.mp h
      rw [upsert]
      split_ifs with hrow
      · rw [List.map_cons, hupdate row hrow, ← hrow]
        exact h
      · rw [List.map_cons]
        refine List.nodup_cons.mpr ⟨?_, ih hrest⟩
        intro hmem
        rcases hkeys rows _ hmem with hnew | hold
        · exact hrow hnew
        · exact hfresh hold

end Upsert

/-- Deleting by key leaves the rows of the other keys. -/
theorem find_filter (key : ρ → κ) (p : κ → Bool) (rows : List ρ) (k : κ) :
    find key (rows.filter fun r => p (key r)) k = if p k = true then find key rows k else none := by
  induction rows with
  | nil => simp [find]
  | cons row rows ih =>
      rw [List.filter_cons]
      by_cases hkept : p (key row) = true
      · rw [if_pos hkept, find_cons, find_cons, ih]
        by_cases hk : key row = k
        · rw [if_pos hk, if_pos hk, ← hk, if_pos hkept]
        · rw [if_neg hk, if_neg hk]
      · rw [if_neg hkept, ih, find_cons]
        by_cases hk : key row = k
        · rw [← hk, if_neg hkept, if_neg hkept]
        · rw [if_neg hk]

/-- Without a repeated key, the rows are those that are found. -/
theorem mem_iff_find (h : (rows.map key).Nodup) {row : ρ} :
    row ∈ rows ↔ find key rows (key row) = some row := by
  constructor
  · intro hmem
    induction rows with
    | nil => exact absurd hmem List.not_mem_nil
    | cons first rows ih =>
        obtain ⟨hfresh, hrest⟩ := List.nodup_cons.mp h
        rw [find_cons]
        rcases List.mem_cons.mp hmem with rfl | hlater
        · rw [if_pos rfl]
        · rw [if_neg]
          · exact ih hrest hlater
          · intro heq
            exact hfresh (heq ▸ List.mem_map_of_mem hlater)
  · exact List.mem_of_find?_eq_some

theorem filter_key_eq_singleton (h : (rows.map key).Nodup) {row : ρ} (hrow : row ∈ rows) :
    (rows.filter fun r => key r = key row) = [row] := by
  induction rows with
  | nil => exact absurd hrow List.not_mem_nil
  | cons first rows ih =>
      obtain ⟨hfresh, hrest⟩ := List.nodup_cons.mp h
      rcases List.mem_cons.mp hrow with rfl | hlater
      · have hnone : (rows.filter fun r => key r = key row) = [] := by
          rw [List.filter_eq_nil_iff]
          intro r hr heq
          exact hfresh (of_decide_eq_true heq ▸ List.mem_map_of_mem hr)
        rw [List.filter_cons, if_pos (decide_eq_true rfl), hnone]
      · have hne : key first ≠ key row := fun heq => hfresh (heq ▸ List.mem_map_of_mem hlater)
        rw [List.filter_cons, if_neg (by simpa using hne), ih hrest hlater]

/-! ## Replacing rows -/

/-- `INSERT OR REPLACE` of one row: the row with its key is deleted first. -/
def insertOrReplace (key : ρ → κ) (rows : List ρ) (r : ρ) : List ρ :=
  (rows.filter fun r' => key r' ≠ key r) ++ [r]

/-- `INSERT OR REPLACE … SELECT` -/
def replaceAll (key : ρ → κ) (rows selected : List ρ) : List ρ :=
  selected.foldl (insertOrReplace key) rows

/-- The rows whose key is not among those of the selected rows. -/
def kept (key : ρ → κ) (rows selected : List ρ) : List ρ :=
  rows.filter fun r => key r ∉ selected.map key

theorem mem_kept {r : ρ} : r ∈ kept key rows selected ↔ r ∈ rows ∧ key r ∉ selected.map key := by
  rw [kept, List.mem_filter, decide_eq_true_eq]

/-- **Replacing keeps every row whose key is not selected.** -/
theorem replaceAll_eq (rows : List ρ) (h : (selected.map key).Nodup) :
    replaceAll key rows selected = kept key rows selected ++ selected := by
  unfold kept
  induction selected generalizing rows with
  | nil => simp [replaceAll]
  | cons r rest ih =>
      obtain ⟨hfresh, hrest⟩ := List.nodup_cons.mp h
      have hstep : replaceAll key rows (r :: rest) =
          replaceAll key (insertOrReplace key rows r) rest := rfl
      have hself : ([r].filter fun s => key s ∉ rest.map key) = [r] := by
        simp only [List.filter_cons, List.filter_nil]
        rw [if_pos (by simpa using hfresh)]
      rw [hstep, ih _ hrest, insertOrReplace, List.filter_append, hself, List.filter_filter,
        List.append_assoc, List.singleton_append]
      congr 1
      refine List.filter_congr ?_
      intro s _
      by_cases hs : key s = key r
      · simp [hs]
      · simp [hs]

/-- The rows of a group are deleted, and its new rows inserted. -/
def refresh (group : ρ → κ) (g : κ) (rows fresh : List ρ) : List ρ :=
  (rows.filter fun r => group r ≠ g) ++ fresh

theorem filter_refresh_self {group : ρ → κ} {g : κ} (rows : List ρ) {fresh : List ρ}
    (h : ∀ r ∈ fresh, group r = g) : ((refresh group g rows fresh).filter fun r => group r = g) =
      fresh := by
  have hold : ((rows.filter fun r => group r ≠ g).filter fun r => group r = g) = [] := by
    rw [List.filter_filter, List.filter_eq_nil_iff]
    intro r _ hr
    simp at hr
  have hnew : (fresh.filter fun r => group r = g) = fresh :=
    List.filter_eq_self.mpr fun r hr => decide_eq_true (h r hr)
  rw [refresh, List.filter_append, hold, hnew, List.nil_append]

/-- The other groups are left alone. -/
theorem filter_refresh_other {group : ρ → κ} {g k : κ} (rows : List ρ) {fresh : List ρ}
    (h : ∀ r ∈ fresh, group r = g) (hk : k ≠ g) :
    ((refresh group g rows fresh).filter fun r => group r = k) =
      rows.filter fun r => group r = k := by
  have hold : ((rows.filter fun r => group r ≠ g).filter fun r => group r = k) =
      rows.filter fun r => group r = k := by
    rw [List.filter_filter]
    refine List.filter_congr ?_
    intro r _
    by_cases hr : group r = k
    · simp [hr, hk]
    · simp [hr]
  have hnew : (fresh.filter fun r => group r = k) = [] := by
    rw [List.filter_eq_nil_iff]
    intro r hr heq
    exact hk ((of_decide_eq_true heq).symm.trans (h r hr))
  rw [refresh, List.filter_append, hold, hnew, List.append_nil]


/-! ## Guarded inserts -/

/-- A guarded insert adds the first selected row of every key the table does not have. -/
theorem mem_insertAll_iff {r : ρ} :
    r ∈ insertAll [key] rows selected ↔
      r ∈ rows ∨ (key r ∉ rows.map key ∧ find key selected (key r) = some r) := by
  induction selected generalizing rows with
  | nil => simp [insertAll, find]
  | cons s rest ih =>
      have hstep : insertAll [key] rows (s :: rest) =
          insertAll [key] (insertOrIgnore [key] rows s) rest := rfl
      have hconflict : conflicts [key] rows s = true ↔ key s ∈ rows.map key := by
        simp [conflicts, List.any_eq_true, List.mem_map]
      rw [hstep, ih, insertOrIgnore_eq, find_cons]
      by_cases hs : conflicts [key] rows s = true
      · rw [if_pos hs]
        refine or_congr_right (and_congr_right fun hr => ?_)
        have hne : key s ≠ key r := fun heq => hr (heq ▸ hconflict.mp hs)
        rw [if_neg hne]
      · have hnew := fun hmem => hs (hconflict.mpr hmem)
        rw [if_neg hs, List.map_append, List.map_singleton, List.mem_append, List.mem_append,
          List.mem_singleton, List.mem_singleton]
        by_cases hk : key s = key r
        · rw [if_pos hk, Option.some.injEq, ← hk]
          constructor
          · rintro ((hr | rfl) | ⟨hno, _⟩)
            · exact Or.inl hr
            · exact Or.inr ⟨hnew, rfl⟩
            · exact absurd (Or.inr rfl) hno
          · rintro (hr | ⟨_, rfl⟩)
            · exact Or.inl (Or.inl hr)
            · exact Or.inl (Or.inr rfl)
        · rw [if_neg hk]
          constructor
          · rintro ((hr | rfl) | ⟨hno, hfind⟩)
            · exact Or.inl hr
            · exact absurd rfl hk
            · exact Or.inr ⟨fun hr => hno (Or.inl hr), hfind⟩
          · rintro (hr | ⟨hno, hfind⟩)
            · exact Or.inl (Or.inl hr)
            · exact Or.inr ⟨fun hr => hr.elim hno fun heq => hk heq.symm, hfind⟩

/-- **A guarded insert leaves what it leaves of the empty table exactly when every row that was there
    is the first of its key among the selected ones.** -/
theorem insertAll_perm_fresh_iff (h : (rows.map key).Nodup) :
    (insertAll [key] rows selected).Perm (insertAll [key] [] selected) ↔
      ∀ r ∈ rows, find key selected (key r) = some r := by
  have hkeys : ∀ {l : List ρ}, (l.map key).Nodup → (insertAll [key] l selected).Nodup := by
    intro l hl
    have hunique : Unique [key] l := unique_singleton.mpr hl
    exact (hunique.insertAll selected key List.mem_cons_self).of_map
  have hempty : (([] : List ρ).map key).Nodup := List.nodup_nil
  rw [List.perm_ext_iff_of_nodup (hkeys h) (hkeys hempty)]
  constructor
  · intro hsame r hr
    rcases mem_insertAll_iff.mp ((hsame r).mp (mem_insertAll_iff.mpr (Or.inl hr))) with hin | hin
    · exact absurd hin List.not_mem_nil
    · exact hin.2
  · intro hall r
    rw [mem_insertAll_iff, mem_insertAll_iff]
    constructor
    · rintro (hr | ⟨_, hfind⟩)
      · exact Or.inr ⟨List.not_mem_nil, hall r hr⟩
      · exact Or.inr ⟨List.not_mem_nil, hfind⟩
    · rintro (hr | ⟨_, hfind⟩)
      · exact absurd hr List.not_mem_nil
      · by_cases hmem : key r ∈ rows.map key
        · obtain ⟨s, hs, hkey⟩ := List.mem_map.mp hmem
          have hsame := hall s hs
          rw [hkey, hfind] at hsame
          exact Or.inl (Option.some.inj hsame ▸ hs)
        · exact Or.inr ⟨hmem, hfind⟩

section Groups

variable {γ : Type} [DecidableEq γ] {key : ρ → κ} {group : ρ → γ} {g : γ}

/-- Rows of one group are inserted as if the table held that group alone. -/
theorem filter_insertAll_self (hkey : ∀ r s, key r = key s → group r = group s) (rows : List ρ)
    {selected : List ρ} (h : ∀ r ∈ selected, group r = g) :
    ((insertAll [key] rows selected).filter fun r => group r = g) =
      insertAll [key] (rows.filter fun r => group r = g) selected := by
  induction selected generalizing rows with
  | nil => rfl
  | cons s rest ih =>
      have hs := h s List.mem_cons_self
      have hsame : conflicts [key] (rows.filter fun r => group r = g) s = conflicts [key] rows s := by
        rw [Bool.eq_iff_iff]
        simp only [conflicts, List.any_eq_true, List.mem_filter, List.mem_singleton, exists_eq_left,
          decide_eq_true_eq]
        constructor
        · rintro ⟨r, ⟨hr, _⟩, heq⟩
          exact ⟨r, hr, heq⟩
        · rintro ⟨r, hr, heq⟩
          exact ⟨r, ⟨hr, (hkey r s heq).trans hs⟩, heq⟩
      have hone : ((insertOrIgnore [key] rows s).filter fun r => group r = g) =
          insertOrIgnore [key] (rows.filter fun r => group r = g) s := by
        rw [insertOrIgnore_eq, insertOrIgnore_eq, hsame]
        split
        · rfl
        · have hself : ([s].filter fun r => group r = g) = [s] :=
            List.filter_cons_of_pos (decide_eq_true hs)
          rw [List.filter_append, hself]
      have hstep : ∀ l, insertAll [key] l (s :: rest) =
          insertAll [key] (insertOrIgnore [key] l s) rest := fun l => rfl
      rw [hstep, hstep, ih _ fun r hr => h r (List.mem_cons_of_mem s hr), hone]

theorem filter_insertAll_other (rows : List ρ) {selected : List ρ} {k : γ}
    (h : ∀ r ∈ selected, group r = g) (hk : k ≠ g) :
    ((insertAll [key] rows selected).filter fun r => group r = k) =
      rows.filter fun r => group r = k := by
  obtain ⟨added, heq, hadded⟩ := exists_insertAll_eq [key] rows selected
  have hnone : (added.filter fun r => group r = k) = [] := by
    rw [List.filter_eq_nil_iff]
    intro r hr hgroup
    exact hk ((of_decide_eq_true hgroup).symm.trans (h r (hadded r hr)))
  rw [heq, List.filter_append, hnone, List.append_nil]

end Groups

end KeyedTable
