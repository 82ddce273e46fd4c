import Mathlib.Data.List.Basic
import Mathlib.Data.List.Dedup
import Mathlib.Data.List.Nodup

/-! # Slices and groups of a list

A list cut into slices by index ranges, a list sorted into groups by a key, and a list reduced to the
first occurrence of every element. When the ranges name every index once, the slices hold every
element once; the groups of all keys together hold what the list holds. -/

namespace Slices

variable {α κ : Type}

/-- `count` elements from `start` on. -/
def slice (start count : ℕ) (xs : List α) : List α := (xs.drop start).take count

theorem slice_eq_filterMap (start count : ℕ) (xs : List α) :
    slice start count xs = (List.range' start count).filterMap (xs[·]?) := by
  rw [slice]
  induction count generalizing start with
  | zero => rw [List.take_zero, List.range'_zero, List.filterMap_nil]
  | succ count ih =>
      rw [List.range'_succ]
      cases hx : xs[start]? with
      | none =>
          have hend : xs.length ≤ start := List.getElem?_eq_none_iff.mp hx
          have hrest : (List.range' (start + 1) count).filterMap (xs[·]?) = [] := by
            rw [← ih, List.drop_eq_nil_of_le (Nat.le_succ_of_le hend), List.take_nil]
          rw [List.filterMap_cons_none hx, hrest, List.drop_eq_nil_of_le hend, List.take_nil]
      | some x =>
          obtain ⟨hlt, hget⟩ := List.getElem?_eq_some_iff.mp hx
          rw [List.filterMap_cons_some hx, ← ih, List.drop_eq_getElem_cons hlt, hget,
            List.take_succ_cons]

theorem filterMap_range (xs : List α) : (List.range xs.length).filterMap (xs[·]?) = xs := by
  rw [List.range_eq_range', ← slice_eq_filterMap, slice, List.drop_zero, List.take_length]

theorem eq_slice {idx : α → ℕ} {xs taken : List α} {start count : ℕ}
    (hidx : ∀ a ∈ taken, xs[idx a]? = some a) (h : taken.map idx = List.range' start count) :
    taken = slice start count xs := by
  rw [slice_eq_filterMap, ← h, List.filterMap_map]
  clear h
  induction taken with
  | nil => rfl
  | cons a taken ih =>
      have hhead : ((xs[·]?) ∘ idx) a = some a := hidx a List.mem_cons_self
      rw [List.filterMap_cons_some hhead, ← ih fun b hb => hidx b (List.mem_cons_of_mem a hb)]

/-- **Ranges that name every index once cut the list into slices that hold every element once.** -/
theorem flatMap_slice_perm {ρ : Type} {start count : ρ → ℕ} {ranges : List ρ} {xs : List α}
    (h : (ranges.flatMap fun r => List.range' (start r) (count r)).Perm (List.range xs.length)) :
    (ranges.flatMap fun r => slice (start r) (count r) xs).Perm xs := by
  have hslices : (ranges.flatMap fun r => slice (start r) (count r) xs) =
      (ranges.flatMap fun r => List.range' (start r) (count r)).filterMap (xs[·]?) := by
    rw [List.filterMap_flatMap]
    exact congrArg (List.flatMap · ranges) (funext fun r => slice_eq_filterMap _ _ _)
  rw [hslices]
  refine (h.filterMap _).trans ?_
  rw [filterMap_range]

/-! ## Groups -/

variable [DecidableEq κ]

/-- **The groups of all keys hold what the list holds.** -/
theorem flatMap_group_perm {key : α → κ} {keys : List κ} {xs : List α} (hnodup : keys.Nodup)
    (hcover : ∀ a ∈ xs, key a ∈ keys) :
    (keys.flatMap fun k => xs.filter fun a => key a = k).Perm xs := by
  induction keys generalizing xs with
  | nil =>
      cases xs with
      | nil => exact .refl _
      | cons a xs => exact absurd (hcover a List.mem_cons_self) List.not_mem_nil
  | cons k keys ih =>
      obtain ⟨hk, hnodup⟩ := List.nodup_cons.mp hnodup
      have hothers : (keys.flatMap fun k' => xs.filter fun a => key a = k') =
          keys.flatMap fun k' => (xs.filter fun a => !decide (key a = k)).filter
            fun a => key a = k' := by
        rw [List.flatMap_def, List.flatMap_def]
        refine congrArg List.flatten (List.map_congr_left fun k' hk' => ?_)
        rw [List.filter_filter]
        refine List.filter_congr fun a _ => ?_
        by_cases ha : key a = k'
        · have hne : k' ≠ k := by
            rintro rfl
            exact hk hk'
          simp [ha, hne]
        · simp [ha]
      rw [List.flatMap_cons, hothers]
      refine (List.Perm.append_left _ (ih hnodup ?_)).trans ?_
      · intro a ha
        obtain ⟨hmem, hne⟩ := List.mem_filter.mp ha
        rcases List.mem_cons.mp (hcover a hmem) with heq | hin
        · exact absurd hne (by simp [heq])
        · exact hin
      · exact List.filter_append_perm _ xs

/-! ## First occurrences -/

section FirstOccurrences

variable [BEq α] [LawfulBEq α]

theorem nodup_eraseDups (xs : List α) : xs.eraseDups.Nodup := by
  match xs with
  | [] => exact List.nodup_nil
  | a :: as =>
    have hshorter := List.length_filter_le (fun b => !b == a) as
    rw [List.eraseDups_cons, List.nodup_cons]
    refine ⟨?_, nodup_eraseDups _⟩
    rw [List.mem_eraseDups, List.mem_filter]
    rintro ⟨_, hne⟩
    exact absurd hne (by simp)
termination_by xs.length
decreasing_by exact Nat.lt_succ_of_le hshorter

theorem eraseDups_eq_self {xs : List α} (h : xs.Nodup) : xs.eraseDups = xs := by
  induction xs with
  | nil => rfl
  | cons a as ih =>
      obtain ⟨ha, has⟩ := List.nodup_cons.mp h
      have hall : (as.filter fun b => !b == a) = as := by
        rw [List.filter_eq_self]
        intro b hb
        have hne : b ≠ a := by
          rintro rfl
          exact ha hb
        simp [hne]
      rw [List.eraseDups_cons, hall, ih has]

end FirstOccurrences

end Slices
