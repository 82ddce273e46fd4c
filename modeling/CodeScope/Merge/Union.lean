import CodeScope.Merge.MergeDriver
import Mathlib.Data.List.Enum
import Mathlib.Data.List.Induction

/-! # The merge as a disjoint union

Offsets larger than every id merged before keep the copies of different databases apart, so no
INSERT OR IGNORE is ever ignored (`mergeModuleDbs_eq`): the merged tables are the images of the
source rows, one each. A reference and the id it names are moved by the same offset. The value 0,
which names no row, is moved as well, so it survives exactly where the offset is 0
(`merge_preserves_references_iff`). -/

namespace CodeScope.Merge

open KeyedTable

variable {γ : Type}

/-! ## The schema's columns and their offsets -/

theorem remapOffset_reference (t : Table) : ∀ ref ∈ referencesOf t,
    remapOffset t ref.1 = some ref.2 ∧ remapOffset ref.2 .id = some ref.2 ∧
      .column .id ∈ schemaKeys ref.2 := by
  cases t <;> decide

theorem remapOffset_key {t : Table} {c : Column} (h : Key.column c ∈ schemaKeys t) :
    (c = .id ∧ remapOffset t c = some t) ∨
      (remapOffset t c = some .entity ∧ (c, Table.entity) ∈ referencesOf t) := by
  have hall : ∀ k ∈ schemaKeys t, ∀ c, k = Key.column c → (c = .id ∧ remapOffset t c = some t) ∨
      (remapOffset t c = some .entity ∧ (c, Table.entity) ∈ referencesOf t) := by
    cases t <;> simp [schemaKeys] <;> decide
  exact hall _ h c rfl

/-! ## The invariant of the fold -/

/-- The main database after databases with the projects `ps`: no constraint repeats a value, every
    row belongs to one of the projects, and no key exceeds the offset its column is moved by. -/
structure Merged (ps : List Nat) (main : Db γ) : Prop where
  unique : ∀ t, Unique (keysOf t) (main t)
  project : ∀ t, ∀ r ∈ main t, r.int .projectId ∈ ps
  bounded : ∀ t c s, .column c ∈ schemaKeys t → remapOffset t c = some s →
    ∀ r ∈ main t, r.int c ≤ offsets main s

theorem merged_empty : Merged [] (emptyDb : Db γ) where
  unique t k _ := by simp [emptyDb]
  project t r hr := by simp [emptyDb] at hr
  bounded t c s _ _ r hr := by simp [emptyDb] at hr

/-- No value of a constraint occurs twice among the rows already merged and the images of the next
    database. -/
theorem unique_append {ps : List Nat} {main : Db γ} (hmain : Merged ps main) (m : ModuleDb γ)
    (hnew : m.project ∉ ps) (t : Table) :
    Unique (keysOf t) (main t ++ (m.rows t).map (remap (offsets main) t)) := by
  intro k hk
  obtain ⟨key, hkey, rfl⟩ := List.mem_map.mp hk
  have hmodule := m.keys_unique t _ (List.mem_map_of_mem hkey)
  rw [List.map_append, List.map_map]
  refine List.nodup_append.mpr ⟨hmain.unique t _ hk, ?_, ?_⟩
  · cases key with
    | projectPath =>
        refine (List.map_congr_left fun r _ => ?_).symm ▸ hmodule
        simp [Key.value, remap_int_none r (remapOffset_projectId t)]
    | column c =>
        obtain ⟨s, hs⟩ : ∃ s, remapOffset t c = some s := by
          rcases remapOffset_key hkey with ⟨_, hs⟩ | ⟨hs, _⟩
          · exact ⟨_, hs⟩
          · exact ⟨_, hs⟩
        have hshift : ((m.rows t).map ((fun r => Key.value r (.column c)) ∘
            remap (offsets main) t)) =
            ((m.rows t).map fun r => Key.value r (.column c)).map
              fun v => (v.1 + offsets main s, v.2) := by
          rw [List.map_map]
          exact List.map_congr_left fun r _ => by simp [Key.value, remap_int_some r hs]
        rw [hshift]
        refine hmodule.map fun v w hvw => ?_
        simp only [Prod.mk.injEq, Nat.add_right_cancel_iff] at hvw
        exact Prod.ext hvw.1 hvw.2
  · intro v hv w hw hvw
    obtain ⟨r, hr, rfl⟩ := List.mem_map.mp hv
    obtain ⟨r', hr', rfl⟩ := List.mem_map.mp hw
    cases key with
    | projectPath =>
        -- rows of different projects
        have hproject : r.int .projectId = m.project := by
          have hsame := (Prod.mk.inj hvw).1
          rw [remap_int_none r' (remapOffset_projectId t)] at hsame
          exact hsame.trans (m.rows_project t r' hr')
        exact hnew (hproject ▸ hmain.project t r hr)
    | column c =>
        -- old keys are at most the offset, new ones larger
        obtain ⟨s, hs⟩ : ∃ s, remapOffset t c = some s := by
          rcases remapOffset_key hkey with ⟨_, hs⟩ | ⟨hs, _⟩
          · exact ⟨_, hs⟩
          · exact ⟨_, hs⟩
        have hold := hmain.bounded t c s hkey hs r hr
        have hpos := m.keys_positive t c hkey r' hr'
        have hsame := (Prod.mk.inj hvw).1
        rw [remap_int_some r' hs] at hsame
        omega

theorem mergeNext_append {ps : List Nat} {main : Db γ} (hmain : Merged ps main) (m : ModuleDb γ)
    (hnew : m.project ∉ ps) (t : Table) :
    mergeNext main m.rows t = main t ++ (m.rows t).map (remap (offsets main) t) := by
  rw [mergeNext_apply, insertAll_eq_append (unique_append hmain m hnew t)]

theorem merged_next {ps : List Nat} {main : Db γ} (hmain : Merged ps main) (m : ModuleDb γ)
    (hnew : m.project ∉ ps) : Merged (m.project :: ps) (mergeNext main m.rows) where
  unique t := by
    rw [mergeNext_append hmain m hnew]
    exact unique_append hmain m hnew t
  project t r hr := by
    rw [mergeNext_append hmain m hnew] at hr
    rcases List.mem_append.mp hr with hold | himage
    · exact List.mem_cons_of_mem _ (hmain.project t r hold)
    · obtain ⟨r₀, hr₀, rfl⟩ := List.mem_map.mp himage
      rw [remap_int_none r₀ (remapOffset_projectId t), m.rows_project t r₀ hr₀]
      exact List.mem_cons_self
  bounded t c s hkey hs r hr := by
    have hgrow : offsets main s ≤ offsets (mergeNext main m.rows) s := by
      simp only [offsets, mergeNext_append hmain m hnew]
      exact maxId_le_append _ _
    rw [mergeNext_append hmain m hnew] at hr
    rcases List.mem_append.mp hr with hold | himage
    · exact Nat.le_trans (hmain.bounded t c s hkey hs r hold) hgrow
    · obtain ⟨r₀, hr₀, rfl⟩ := List.mem_map.mp himage
      rcases remapOffset_key hkey with ⟨rfl, hid⟩ | ⟨hentity, href⟩
      · -- the table's own ids: the image is one of the rows the offset is taken over
        obtain rfl : s = t := Option.some.inj (hs.symm.trans hid)
        refine le_maxId ?_
        rw [mergeNext_append hmain m hnew]
        exact List.mem_append_right _ (List.mem_map_of_mem hr₀)
      · -- a reference used as a key: it equals the id of the image of its target
        obtain rfl : s = .entity := Option.some.inj (hs.symm.trans hentity)
        have hpos := m.keys_positive t c hkey r₀ hr₀
        obtain ⟨target, htarget, hsame⟩ := m.references_closed t _ href r₀ hr₀
          (Nat.ne_of_gt hpos)
        have himage : remap (offsets main) .entity target ∈ mergeNext main m.rows .entity := by
          rw [mergeNext_append hmain m hnew]
          exact List.mem_append_right _ (List.mem_map_of_mem htarget)
        have hle := le_maxId himage
        have hid := (remapOffset_reference t _ href).2.1
        rw [remap_int_some target hid, hsame] at hle
        rw [remap_int_some r₀ hs]
        exact hle

/-! ## The merged database -/

/-- The offsets under which database `i` of the list is merged. -/
def moduleOffsets (ms : List (ModuleDb γ)) (i : Nat) : Table → Nat :=
  offsets (mergeModuleDbs (ms.take i))

theorem merged_modules (ms : List (ModuleDb γ)) (hprojects : (ms.map (·.project)).Nodup) :
    Merged (ms.map (·.project)).reverse (mergeModuleDbs ms) := by
  induction ms using List.reverseRecOn with
  | nil => exact merged_empty
  | append_singleton init m ih =>
      rw [List.map_append, List.map_singleton] at hprojects ⊢
      obtain ⟨hinit, _, hfresh⟩ := List.nodup_append.mp hprojects
      rw [mergeModuleDbs_concat, List.reverse_append, List.reverse_singleton]
      refine merged_next (ih hinit) m fun hmem => ?_
      exact hfresh _ (List.mem_reverse.mp hmem) m.project (by simp) rfl

/-- **Every source row is copied exactly once**: the merged tables list the images of the rows of
    the databases, in order. -/
theorem mergeModuleDbs_eq (ms : List (ModuleDb γ)) (hprojects : (ms.map (·.project)).Nodup)
    (t : Table) : mergeModuleDbs ms t =
      ms.zipIdx.flatMap fun mi => (mi.1.rows t).map (remap (moduleOffsets ms mi.2) t) := by
  induction ms using List.reverseRecOn with
  | nil => rfl
  | append_singleton init m ih =>
      rw [List.map_append, List.map_singleton] at hprojects
      obtain ⟨hinit, _, hfresh⟩ := List.nodup_append.mp hprojects
      have hnew : m.project ∉ (init.map (·.project)).reverse := by
        intro hmem
        exact hfresh _ (List.mem_reverse.mp hmem) m.project (by simp) rfl
      -- databases before the last one keep their offsets
      have hsame : ∀ mi ∈ init.zipIdx, moduleOffsets (init ++ [m]) mi.2 = moduleOffsets init mi.2 :=
        by
          rintro ⟨m', i⟩ hmem
          have hi : i < init.length := by
            have := (List.mem_zipIdx hmem).2.1
            omega
          simp only [moduleOffsets]
          rw [List.take_append_of_le_length (by omega)]
      have hlast : moduleOffsets (init ++ [m]) init.length = offsets (mergeModuleDbs init) := by
        simp [moduleOffsets]
      rw [mergeModuleDbs_concat, mergeNext_append (merged_modules init hinit) m hnew, ih hinit,
        List.zipIdx_append, List.flatMap_append]
      congr 1
      · refine List.flatMap_congr fun mi hmi => ?_
        rw [hsame mi hmi]
      · simp [hlast]

variable {ms : List (ModuleDb γ)}

theorem mem_merged (hprojects : (ms.map (·.project)).Nodup) {t : Table} {r : Row γ} :
    r ∈ mergeModuleDbs ms t ↔
      ∃ i m, ms[i]? = some m ∧ ∃ r₀ ∈ m.rows t, remap (moduleOffsets ms i) t r₀ = r := by
  rw [mergeModuleDbs_eq ms hprojects]
  simp only [List.mem_flatMap, List.mem_map, Prod.exists, List.mem_zipIdx_iff_getElem?]
  constructor
  · rintro ⟨m, i, hm, r₀, hr₀, hr⟩
    exact ⟨i, m, hm, r₀, hr₀, hr⟩
  · rintro ⟨i, m, hm, r₀, hr₀, hr⟩
    exact ⟨m, i, hm, r₀, hr₀, hr⟩

/-- The offset of a table that references point into is 0 exactly when no earlier database has rows
    in it. -/
theorem moduleOffsets_eq_zero (hprojects : (ms.map (·.project)).Nodup) {i : Nat} {s : Table}
    (hid : remapOffset s .id = some s) (hkey : .column .id ∈ schemaKeys s) :
    moduleOffsets ms i s = 0 ↔ ∀ j < i, ∀ m, ms[j]? = some m → m.rows s = [] := by
  have htake : ((ms.take i).map (·.project)).Nodup := by
    rw [List.map_take]
    exact hprojects.sublist (List.take_sublist i _)
  constructor
  · intro hzero j hj m hm
    by_contra hne
    obtain ⟨r, hr⟩ := List.exists_mem_of_ne_nil _ hne
    have hearlier : (ms.take i)[j]? = some m := by
      rw [List.getElem?_take_of_lt hj, hm]
    have himage := (mem_merged htake).mpr ⟨j, m, hearlier, r, hr, rfl⟩
    have hle := le_maxId himage
    have hpos := m.keys_positive s .id hkey r hr
    rw [remap_int_some r hid] at hle
    have hmax : maxId (mergeModuleDbs (ms.take i) s) = 0 := hzero
    omega
  · intro hempty
    have hnone : mergeModuleDbs (ms.take i) s = [] := by
      refine List.eq_nil_iff_forall_not_mem.mpr fun r hr => ?_
      obtain ⟨j, m, hm, r₀, hr₀, _⟩ := (mem_merged htake).mp hr
      have hj : j < i := by
        by_contra hge
        rw [List.getElem?_take, if_neg hge] at hm
        simp at hm
      rw [List.getElem?_take_of_lt hj] at hm
      rw [hempty j hj m hm] at hr₀
      simp at hr₀
    simp [moduleOffsets, offsets, hnone, maxId]

/-! ## References and sentinels -/

/-- `main` is the disjoint union of the databases: it holds one image of every source row and
    nothing else, no constraint repeats a value, an image keeps the row's project, path and payload,
    a reference names the image of the row it named, and the reference 0 stays 0. -/
def PreservesReferences (ms : List (ModuleDb γ)) (main : Db γ) : Prop :=
  ∃ image : Nat → Table → Row γ → Row γ,
    (∀ t, (main t).Perm (ms.zipIdx.flatMap fun mi => (mi.1.rows t).map (image mi.2 t))) ∧
    (∀ t, Unique (keysOf t) (main t)) ∧
    ∀ i m, ms[i]? = some m → ∀ t, ∀ r ∈ m.rows t,
      ((image i t r).int .projectId = r.int .projectId ∧ (image i t r).path = r.path ∧
        (image i t r).rest = r.rest) ∧
      ∀ ref ∈ referencesOf t,
        (r.int ref.1 ≠ 0 → ∀ target ∈ m.rows ref.2, target.int .id = r.int ref.1 →
          (image i ref.2 target).int .id = (image i t r).int ref.1) ∧
        (r.int ref.1 = 0 → (image i t r).int ref.1 = 0)

/-- A reference of value 0 occurs only in databases before which no row of the table it could have
    pointed into was merged. -/
def SentinelsSafe (ms : List (ModuleDb γ)) : Prop :=
  ∀ (i : Nat) (m : ModuleDb γ), ms[i]? = some m → ∀ t, ∀ ref ∈ referencesOf t, ∀ r ∈ m.rows t,
    r.int ref.1 = 0 → ∀ j < i, ∀ m' : ModuleDb γ, ms[j]? = some m' → m'.rows ref.2 = []

/-- A merge that preserves references moves no reference of value 0. -/
theorem sentinelsSafe_of_preserves (hprojects : (ms.map (·.project)).Nodup)
    (h : PreservesReferences ms (mergeModuleDbs ms)) : SentinelsSafe ms := by
  obtain ⟨image, hperm, -, himage⟩ := h
  intro i m hm t ref href r hr hzero
  obtain ⟨hmoved, hid, hkey⟩ := remapOffset_reference t ref href
  rw [← moduleOffsets_eq_zero hprojects hid hkey]
  obtain ⟨⟨hproject, -, -⟩, hrefs⟩ := himage i m hm t r hr
  have hsentinel := (hrefs ref href).2 hzero
  -- the image is the copy of some row of the same database, moved by its offset
  have hmem : image i t r ∈ mergeModuleDbs ms t := by
    refine (hperm t).mem_iff.mpr (List.mem_flatMap.mpr ⟨(m, i), ?_, List.mem_map_of_mem hr⟩)
    exact List.mem_zipIdx_iff_getElem?.mpr hm
  obtain ⟨i', m', hm', r', hr', hcopy⟩ := (mem_merged hprojects).mp hmem
  have hsame : i' = i := by
    have hprojectIds : m'.project = m.project := by
      rw [← m'.rows_project t r' hr', ← m.rows_project t r hr, ← hproject, ← hcopy,
        remap_int_none r' (remapOffset_projectId t)]
    obtain ⟨hi', hget'⟩ := List.getElem?_eq_some_iff.mp hm'
    obtain ⟨hi, hget⟩ := List.getElem?_eq_some_iff.mp hm
    have hnames : (ms.map (·.project)).get ⟨i', by simpa using hi'⟩ =
        (ms.map (·.project)).get ⟨i, by simpa using hi⟩ := by
      simpa [hget', hget] using hprojectIds
    exact Fin.mk.inj_iff.mp (hprojects.get_inj_iff.mp hnames)
  rw [← hcopy, remap_int_some r' hmoved, hsame] at hsentinel
  omega

/-- The copies of the rows are images that preserve references, where no reference of value 0 is
    moved. -/
theorem preserves_of_sentinelsSafe (hprojects : (ms.map (·.project)).Nodup)
    (hsafe : SentinelsSafe ms) : PreservesReferences ms (mergeModuleDbs ms) := by
  refine ⟨fun i => remap (moduleOffsets ms i), fun t => ?_, (merged_modules ms hprojects).unique,
    fun i m hm t r hr => ⟨⟨?_, rfl, rfl⟩, fun ref href => ?_⟩⟩
  · rw [mergeModuleDbs_eq ms hprojects]
  · exact remap_int_none r (remapOffset_projectId t)
  · obtain ⟨hmoved, hid, hkey⟩ := remapOffset_reference t ref href
    rw [remap_int_some r hmoved]
    refine ⟨fun _ target _ hsame => ?_, fun hzero => ?_⟩
    · rw [remap_int_some target hid, hsame]
    · have hoffset := (moduleOffsets_eq_zero hprojects hid hkey).mpr
        (hsafe i m hm t ref href r hr hzero)
      rw [hzero, hoffset]

/-- A worker database with one global scope: id 1, parent 0. -/
def globalScope (project : Nat) : ModuleDb Unit where
  rows t := if t = .scope then
      [⟨fun c => match c with | .id => 1 | .projectId => project | _ => 0, "", ()⟩] else []
  project := project
  rows_project t r hr := by
    by_cases ht : t = .scope
    · obtain rfl := by simpa [ht] using hr
      rfl
    · simp [ht] at hr
  keys_positive t c hc r hr := by
    by_cases ht : t = .scope
    · subst ht
      obtain rfl := by simpa [schemaKeys] using hc
      obtain rfl := by simpa using hr
      exact Nat.one_pos
    · simp [ht] at hr
  keys_unique t k _ := by
    by_cases ht : t = .scope
    · simp [ht]
    · simp [ht]
  references_closed t ref href r hr hne := by
    by_cases ht : t = .scope
    · subst ht
      have hscope : ∀ ref ∈ referencesOf .scope, ref = (.parentId, .scope) := by decide
      obtain rfl := hscope ref href
      obtain rfl := by simpa using hr
      exact absurd rfl hne
    · simp [ht] at hr

end CodeScope.Merge
