import Mathlib.Order.Basic
import Mathlib.Data.List.Nodup

/-! # Grouping a sorted list by its runs

`runs` collects consecutive entries with one key. On a list sorted by key every key has one run, and
its run holds all the values of that key, so a single pass over the sorted list groups it. -/

namespace Runs

variable {κ ν : Type} [DecidableEq κ]

/-- Consecutive entries with the same key, collected. -/
def runs : List (κ × ν) → List (κ × List ν)
  | [] => []
  | (k, v) :: rest =>
    match runs rest with
    | [] => [(k, [v])]
    | (k', vs) :: more => if k = k' then (k, v :: vs) :: more else (k, [v]) :: (k', vs) :: more

/-- The values a key has in a list. -/
def valuesOf (k : κ) (l : List (κ × ν)) : List ν := (l.filter (·.1 = k)).map (·.2)

theorem runs_cons_key (k : κ) (v : ν) (rest : List (κ × ν)) :
    ∃ vs more, runs ((k, v) :: rest) = (k, vs) :: more := by
  rw [runs]
  split
  · exact ⟨_, _, rfl⟩
  · split
    · exact ⟨_, _, rfl⟩
    · exact ⟨_, _, rfl⟩

variable {l : List (κ × ν)}

theorem runs_ne_nil {r : κ × List ν} (h : r ∈ runs l) : r.2 ≠ [] := by
  induction l with
  | nil => simp [runs] at h
  | cons e rest ih =>
      obtain ⟨k, v⟩ := e
      rw [runs] at h
      split at h
      · rw [List.mem_singleton.mp h]
        simp
      · rename_i k' vs more hruns
        rw [hruns] at ih
        split_ifs at h
        · rcases List.mem_cons.mp h with rfl | hmore
          · simp
          · exact ih (List.mem_cons_of_mem _ hmore)
        · rcases List.mem_cons.mp h with rfl | hmore
          · simp
          · exact ih hmore

/-- The keys of the runs are the keys of the list. -/
theorem mem_keys_runs {k : κ} : k ∈ (runs l).map (·.1) ↔ k ∈ l.map (·.1) := by
  induction l with
  | nil => simp [runs]
  | cons e rest ih =>
      obtain ⟨k', v⟩ := e
      rw [runs]
      split
      · rename_i hruns
        rw [hruns] at ih
        simp only [List.map_nil, List.not_mem_nil, false_iff] at ih
        simp [ih]
      · rename_i k'' vs more hruns
        rw [hruns] at ih
        split_ifs with hkey
        · subst hkey
          simp only [List.map_cons, List.mem_cons] at ih ⊢
          rw [← ih]
          simp
        · simp only [List.map_cons, List.mem_cons] at ih ⊢
          rw [← ih]

/-- A buffer of one key followed by another key is a run of its own. -/
theorem runs_append_of_ne {k : κ} {buf : List ν} (hbuf : buf ≠ []) (hl : ∀ e ∈ l.head?, e.1 ≠ k) :
    runs (buf.map (k, ·) ++ l) = (k, buf) :: runs l := by
  induction buf with
  | nil => exact absurd rfl hbuf
  | cons v rest ih =>
      cases rest with
      | nil =>
          cases l with
          | nil => simp [runs]
          | cons e more =>
              obtain ⟨k', v'⟩ := e
              have hne : k' ≠ k := hl (k', v') (by simp)
              obtain ⟨vs, others, hruns⟩ := runs_cons_key k' v' more
              have hlist : [v].map (k, ·) ++ (k', v') :: more = (k, v) :: (k', v') :: more := rfl
              rw [hlist, runs, hruns]
              simp [hne.symm]
      | cons v' rest' =>
          have htail := ih (by simp)
          have hlist : (v :: v' :: rest').map (k, ·) ++ l =
              (k, v) :: ((v' :: rest').map (k, ·) ++ l) := rfl
          rw [hlist, runs, htail]
          simp

section Sorted

variable [PartialOrder κ]

omit [DecidableEq κ] in
theorem sorted_tail {e : κ × ν} {l : List (κ × ν)}
    (h : (e :: l).Pairwise (fun a b => a.1 ≤ b.1)) : l.Pairwise (fun a b => a.1 ≤ b.1) :=
  (List.pairwise_cons.mp h).2

/-- **A key has one run**, when the list is sorted. -/
theorem nodup_keys_runs {l : List (κ × ν)} (h : l.Pairwise (fun a b => a.1 ≤ b.1)) :
    ((runs l).map (·.1)).Nodup := by
  induction l with
  | nil => simp [runs]
  | cons e rest ih =>
      obtain ⟨k, v⟩ := e
      have hrest := ih (sorted_tail h)
      have hkeys := fun k' => mem_keys_runs (l := rest) (k := k')
      rw [runs]
      split
      · simp
      · rename_i k' vs more hruns
        rw [hruns] at hrest hkeys
        split_ifs with hkey
        · rw [hkey]
          exact hrest
        · rw [List.map_cons, List.nodup_cons]
          refine ⟨?_, hrest⟩
          -- a later run of `k` would stand behind `k'`, so `k ≤ k' ≤ k`
          intro hmem
          have hmore : k ∈ rest.map (·.1) := (hkeys k).mp hmem
          have hfirst : k' ∈ rest.map (·.1) := (hkeys k').mp (by simp)
          obtain ⟨e', he', hk'⟩ := List.mem_map.mp hfirst
          have hle : k ≤ k' := by
            rw [← hk']
            exact (List.pairwise_cons.mp h).1 e' he'
          obtain ⟨e₁, rest', hshape⟩ : ∃ e₁ rest', rest = e₁ :: rest' := by
            cases rest with
            | nil => simp at hmore
            | cons e₁ rest' => exact ⟨e₁, rest', rfl⟩
          subst hshape
          obtain ⟨k₁, v₁⟩ := e₁
          obtain ⟨vs₁, more₁, hruns₁⟩ := runs_cons_key k₁ v₁ rest'
          rw [hruns₁] at hruns
          have hk₁ : k₁ = k' := by simpa using congrArg Prod.fst (List.cons.inj hruns).1
          obtain ⟨e₂, he₂, hk₂⟩ := List.mem_map.mp hmore
          have hge : k' ≤ k := by
            rw [← hk₁, ← hk₂]
            rcases List.mem_cons.mp he₂ with rfl | hlater
            · exact le_refl _
            · exact (List.pairwise_cons.mp (sorted_tail h)).1 e₂ hlater
          exact hkey (le_antisymm hle hge)

end Sorted

/-! ## The values of a run -/

/-- The entries of a run. -/
def entries (r : κ × List ν) : List (κ × ν) := r.2.map (r.1, ·)

/-- The runs in their order are the list. -/
theorem flatMap_runs (l : List (κ × ν)) : (runs l).flatMap entries = l := by
  induction l with
  | nil => rfl
  | cons e rest ih =>
      obtain ⟨k, v⟩ := e
      rw [runs]
      split
      · rename_i hruns
        rw [hruns] at ih
        rw [← ih]
        rfl
      · rename_i k' vs more hruns
        rw [hruns] at ih
        split_ifs with hkey
        · subst hkey
          rw [← ih]
          rfl
        · rw [← ih]
          rfl

theorem valuesOf_append (k : κ) (l l' : List (κ × ν)) :
    valuesOf k (l ++ l') = valuesOf k l ++ valuesOf k l' := by
  unfold valuesOf
  rw [List.filter_append, List.map_append]

theorem valuesOf_entries_self (r : κ × List ν) : valuesOf r.1 (entries r) = r.2 := by
  unfold valuesOf entries
  induction r.2 with
  | nil => rfl
  | cons v rest ih => simpa using ih

theorem valuesOf_of_not_mem {k : κ} (h : k ∉ l.map (·.1)) : valuesOf k l = [] := by
  unfold valuesOf
  rw [List.map_eq_nil_iff, List.filter_eq_nil_iff]
  intro e he hkey
  exact h (List.mem_map.mpr ⟨e, he, by simpa using hkey⟩)

omit [DecidableEq κ] in
theorem key_of_mem_entries {rs : List (κ × List ν)} {k : κ}
    (h : k ∈ (rs.flatMap entries).map (·.1)) : k ∈ rs.map (·.1) := by
  obtain ⟨e, he, rfl⟩ := List.mem_map.mp h
  obtain ⟨r, hr, her⟩ := List.mem_flatMap.mp he
  obtain ⟨v, -, rfl⟩ := List.mem_map.mp her
  exact List.mem_map_of_mem hr

/-- When no key repeats, a group holds all the values of its key. -/
theorem valuesOf_flatMap {rs : List (κ × List ν)} (hnodup : (rs.map (·.1)).Nodup)
    {r : κ × List ν} (hr : r ∈ rs) : valuesOf r.1 (rs.flatMap entries) = r.2 := by
  induction rs with
  | nil => simp at hr
  | cons first rest ih =>
      rw [List.map_cons, List.nodup_cons] at hnodup
      obtain ⟨hfresh, hrest⟩ := hnodup
      rw [List.flatMap_cons, valuesOf_append]
      rcases List.mem_cons.mp hr with rfl | hmem
      · have hlater : r.1 ∉ (rest.flatMap entries).map (·.1) :=
          fun hkey => hfresh (key_of_mem_entries hkey)
        rw [valuesOf_entries_self, valuesOf_of_not_mem hlater, List.append_nil]
      · have hne : r.1 ∉ (entries first).map (·.1) := by
          intro hkey
          obtain ⟨e, he, hek⟩ := List.mem_map.mp hkey
          obtain ⟨v, -, rfl⟩ := List.mem_map.mp he
          exact hfresh (by rw [hek]; exact List.mem_map_of_mem hmem)
        rw [valuesOf_of_not_mem hne, List.nil_append, ih hrest hmem]

/-- **The run of a key holds all its values**, when the list is sorted. -/
theorem runs_values [PartialOrder κ] {l : List (κ × ν)}
    (h : l.Pairwise (fun a b => a.1 ≤ b.1)) {r : κ × List ν} (hr : r ∈ runs l) :
    r.2 = valuesOf r.1 l := by
  have hgroup := valuesOf_flatMap (nodup_keys_runs h) hr
  rw [flatMap_runs] at hgroup
  exact hgroup.symm

end Runs
