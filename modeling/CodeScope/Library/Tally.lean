import Mathlib.Data.List.Induction
import Mathlib.Data.List.Count
import Mathlib.Logic.Function.Basic

/-! # Counting with scratch counters

A list of keys is counted in an array of counters that is all zero before. The keys that were
touched are remembered on the way, and only their counters are set back afterwards. -/

namespace Tally

variable {κ : Type} [DecidableEq κ]

/-- The counters, and the keys touched in the order they were first seen. -/
structure Scratch (κ : Type) where
  counts : κ → ℕ
  touched : List κ

/-- Count one key. -/
def Scratch.count (s : Scratch κ) (k : κ) : Scratch κ where
  counts := Function.update s.counts k (s.counts k + 1)
  touched := if s.counts k = 0 then s.touched ++ [k] else s.touched

/-- Count a list of keys from the counters as they are. -/
def tally (counts : κ → ℕ) (keys : List κ) : Scratch κ :=
  keys.foldl Scratch.count { counts, touched := [] }

/-- Set some counters back to zero. -/
def reset (counts : κ → ℕ) (touched : List κ) : κ → ℕ :=
  touched.foldl (fun c k => Function.update c k 0) counts

variable {counts : κ → ℕ} (hzero : ∀ k, counts k = 0) (keys : List κ)
include hzero

theorem tally_counts (k : κ) : (tally counts keys).counts k = keys.count k := by
  induction keys using List.reverseRecOn with
  | nil => exact hzero k
  | append_singleton keys a ih =>
      rw [tally, List.foldl_append, List.count_append, ← ih]
      by_cases h : k = a
      · subst h
        simp [Scratch.count, tally]
      · have hcount : List.count k [a] = 0 := by simp [Ne.symm h]
        simp [Scratch.count, tally, h, hcount]

theorem mem_touched {k : κ} : k ∈ (tally counts keys).touched ↔ k ∈ keys := by
  induction keys using List.reverseRecOn with
  | nil => simp [tally]
  | append_singleton keys a ih =>
      have hcounts : (tally counts keys).counts a = keys.count a := tally_counts hzero keys a
      have hstep : tally counts (keys ++ [a]) = (tally counts keys).count a := by
        rw [tally, List.foldl_append]
        rfl
      rw [hstep, Scratch.count, hcounts, List.mem_append, List.mem_singleton, ← ih]
      dsimp only
      split_ifs with hnew
      · rw [List.mem_append, List.mem_singleton]
      · refine ⟨Or.inl, fun h => h.elim id ?_⟩
        rintro rfl
        rw [List.count_eq_zero, not_not] at hnew
        exact ih.mpr hnew

omit hzero keys in
theorem reset_of_mem (touched : List κ) (k : κ) :
    reset counts touched k = if k ∈ touched then 0 else counts k := by
  induction touched using List.reverseRecOn with
  | nil => rfl
  | append_singleton touched a ih =>
      have hstep : reset counts (touched ++ [a]) = Function.update (reset counts touched) a 0 := by
        rw [reset, List.foldl_append]
        rfl
      rw [hstep]
      by_cases h : k = a
      · subst h
        simp
      · rw [Function.update_of_ne h, ih]
        simp [h]

/-- **All counters are zero again** after the touched ones were set back. -/
theorem reset_tally (k : κ) :
    reset (tally counts keys).counts (tally counts keys).touched k = 0 := by
  rw [reset_of_mem, tally_counts hzero]
  split_ifs with h
  · rfl
  · exact List.count_eq_zero_of_not_mem fun hk => h ((mem_touched hzero keys).mpr hk)

end Tally
