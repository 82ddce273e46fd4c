import CodeScope.Merge.TableSpecs
import Mathlib.Data.List.Basic

/-! # The merge script

`merge_module_dbs` copies the first database as it is. For each later one it takes the largest id
of every table of the main database as that table's offset and copies the rows with the offsets
added to the remapped columns, table by table. The script runs on a fresh main database. -/

namespace CodeScope.Merge

open KeyedTable

variable {γ : Type}

/-- The main database before the merge. -/
def emptyDb : Db γ := fun _ => []

/-- `COALESCE(MAX(id), 0)` -/
def maxId (rows : List (Row γ)) : Nat := (rows.map (·.int .id)).foldr max 0

/-- The `_offsets` row: the offset of each table, before the next database is merged. -/
def offsets (main : Db γ) (t : Table) : Nat := maxId (main t)

/-- `build_remap_insert_sql`: the selected row, the offset added to each remapped column. -/
def selectRemapped (spec : TableSpec) (off : Table → Nat) (r : Row γ) : Row γ :=
  { r with
    int := fun c => match spec.remapCols.find? (·.1 = c) with
      | some (_, src) => r.int c + off (src.getD spec.name)
      | none => r.int c }

/-- The INSERT OR IGNORE of one table, with the rows as `select` gives them. -/
def mergeTable (select : TableSpec → Row γ → Row γ) (m : Db γ) (main : Db γ) (spec : TableSpec) :
    Db γ :=
  Function.update main spec.name
    (insertAll (keysOf spec.name) (main spec.name) ((m spec.name).map (select spec)))

/-- Module 0: INSERT OR IGNORE directly. -/
def mergeFirst (m : Db γ) : Db γ := tableSpecs.foldl (mergeTable (fun _ r => r) m) emptyDb

/-- Module i > 0: remap by the offsets of the main database before it. -/
def mergeNext (main m : Db γ) : Db γ :=
  tableSpecs.foldl (mergeTable (fun spec => selectRemapped spec (offsets main)) m) main

def mergeModuleDbs : List (ModuleDb γ) → Db γ
  | [] => emptyDb
  | m :: rest => rest.foldl (fun main m => mergeNext main m.rows) (mergeFirst m.rows)

/-! ## What the script does to one table -/

/-- The table whose offset is added to column `c` of table `t`. -/
def remapOffset (t : Table) (c : Column) : Option Table :=
  ((tableSpecs.filter (·.name = t)).flatMap (·.remapCols)).find? (·.1 = c) |>.map
    fun p => p.2.getD t

/-- The image of a row of table `t` under the offsets `off`. -/
def remap (off : Table → Nat) (t : Table) (r : Row γ) : Row γ :=
  { r with int := fun c => r.int c + ((remapOffset t c).map off).getD 0 }

@[simp] theorem remap_path (off : Table → Nat) (t : Table) (r : Row γ) :
    (remap off t r).path = r.path := rfl

@[simp] theorem remap_rest (off : Table → Nat) (t : Table) (r : Row γ) :
    (remap off t r).rest = r.rest := rfl

theorem remap_int_some {off : Table → Nat} {t s : Table} {c : Column} (r : Row γ)
    (h : remapOffset t c = some s) : (remap off t r).int c = r.int c + off s := by
  simp [remap, h]

theorem remap_int_none {off : Table → Nat} {t : Table} {c : Column} (r : Row γ)
    (h : remapOffset t c = none) : (remap off t r).int c = r.int c := by
  simp [remap, h]

theorem remapOffset_projectId (t : Table) : remapOffset t .projectId = none := by
  cases t <;> rfl

theorem remap_zero (t : Table) (r : Row γ) : remap (fun _ => 0) t r = r := by
  have hint : ∀ c, ((remapOffset t c).map fun _ => 0).getD 0 = 0 := by
    intro c
    cases remapOffset t c <;> rfl
  simp [remap, hint]

theorem selectRemapped_eq {spec : TableSpec} (hspec : spec ∈ tableSpecs) (off : Table → Nat)
    (r : Row γ) : selectRemapped spec off r = remap off spec.name r := by
  have hsource : ∀ c, remapOffset spec.name c =
      (spec.remapCols.find? (·.1 = c)).map fun p => p.2.getD spec.name := by
    intro c
    simp only [tableSpecs, List.mem_cons, List.not_mem_nil, or_false] at hspec
    rcases hspec with rfl | rfl | rfl | rfl | rfl | rfl | rfl | rfl | rfl | rfl | rfl | rfl | rfl |
      rfl <;> rfl
  unfold selectRemapped remap
  congr 1
  funext c
  rw [hsource c]
  cases spec.remapCols.find? (·.1 = c) <;> rfl

theorem exists_spec (t : Table) : ∃ spec ∈ tableSpecs, spec.name = t := by
  cases t <;> decide

/-- The specs handle one table each: a pass over them changes a table once, by its own spec. -/
theorem foldl_mergeTable {select : TableSpec → Row γ → Row γ} {m : Db γ} (main : Db γ)
    {specs : List TableSpec} (hnodup : (specs.map (·.name)).Nodup) :
    (∀ spec ∈ specs, specs.foldl (mergeTable select m) main spec.name =
      insertAll (keysOf spec.name) (main spec.name) ((m spec.name).map (select spec))) ∧
    (∀ t, t ∉ specs.map (·.name) → specs.foldl (mergeTable select m) main t = main t) := by
  induction specs generalizing main with
  | nil => simp
  | cons s rest ih =>
      simp only [List.map_cons, List.nodup_cons] at hnodup
      obtain ⟨hs, hrest⟩ := hnodup
      obtain ⟨hin, hout⟩ := ih (mergeTable select m main s) hrest
      refine ⟨fun spec hspec => ?_, fun t ht => ?_⟩
      · rcases List.mem_cons.mp hspec with rfl | hmem
        · rw [List.foldl_cons, hout _ hs]
          simp [mergeTable]
        · have hne : spec.name ≠ s.name := fun he => hs (he ▸ List.mem_map_of_mem hmem)
          rw [List.foldl_cons, hin spec hmem]
          simp [mergeTable, Function.update_of_ne hne]
      · simp only [List.map_cons, List.mem_cons, not_or] at ht
        rw [List.foldl_cons, hout t ht.2]
        simp [mergeTable, Function.update_of_ne ht.1]

theorem tableSpecs_nodup : (tableSpecs.map (·.name)).Nodup := by decide

theorem mergeNext_apply (main m : Db γ) (t : Table) :
    mergeNext main m t =
      insertAll (keysOf t) (main t) ((m t).map (remap (offsets main) t)) := by
  obtain ⟨spec, hspec, rfl⟩ := exists_spec t
  have hselect : (m spec.name).map (selectRemapped spec (offsets main)) =
      (m spec.name).map (remap (offsets main) spec.name) :=
    List.map_congr_left fun r _ => selectRemapped_eq hspec _ r
  rw [mergeNext, (foldl_mergeTable _ tableSpecs_nodup).1 spec hspec, hselect]

theorem mergeFirst_eq (m : Db γ) : mergeFirst m = mergeNext emptyDb m := by
  funext t
  have hzero : offsets (emptyDb : Db γ) = fun _ => 0 := rfl
  have hcopy : (m t).map (remap (fun _ => 0) t) = m t := by
    rw [ List.map_congr_left fun r _ => remap_zero t r, List.map_id']
  obtain ⟨spec, hspec, rfl⟩ := exists_spec t
  rw [mergeNext_apply, hzero, hcopy, mergeFirst, (foldl_mergeTable _ tableSpecs_nodup).1 spec hspec,
    List.map_id']

theorem mergeModuleDbs_eq_foldl (ms : List (ModuleDb γ)) :
    mergeModuleDbs ms = ms.foldl (fun main m => mergeNext main m.rows) emptyDb := by
  cases ms with
  | nil => rfl
  | cons m rest => simp [mergeModuleDbs, mergeFirst_eq]

theorem mergeModuleDbs_concat (ms : List (ModuleDb γ)) (m : ModuleDb γ) :
    mergeModuleDbs (ms ++ [m]) = mergeNext (mergeModuleDbs ms) m.rows := by
  simp [mergeModuleDbs_eq_foldl]

/-! ## The largest id -/

theorem le_maxId {rows : List (Row γ)} {r : Row γ} (h : r ∈ rows) : r.int .id ≤ maxId rows := by
  induction rows with
  | nil => simp at h
  | cons s rest ih =>
      rcases List.mem_cons.mp h with rfl | hmem
      · exact Nat.le_max_left _ _
      · exact Nat.le_trans (ih hmem) (Nat.le_max_right _ _)

theorem maxId_le_append (rows rows' : List (Row γ)) : maxId rows ≤ maxId (rows ++ rows') := by
  induction rows with
  | nil => exact Nat.zero_le _
  | cons s rest ih =>
      have hcons : maxId (s :: rest) = max (s.int .id) (maxId rest) := rfl
      have happend : maxId (s :: rest ++ rows') = max (s.int .id) (maxId (rest ++ rows')) := rfl
      rw [hcons, happend]
      omega

end CodeScope.Merge
