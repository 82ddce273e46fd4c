import Mathlib.Data.List.Induction
import Mathlib.Data.List.Nodup
import Mathlib.Data.List.Perm.Basic
import Mathlib.Logic.Function.Basic

/-! # Grouping by a key

Items are put one by one under their keys, and the keys are remembered in the order they are first
seen. The groups of a list are a partition of it: one for each key that occurs, with the items of
that key in their order. -/

namespace Grouping

variable {α κ : Type} [DecidableEq κ]

/-- The keys seen, and the items under each of them. -/
structure Groups (κ α : Type) where
  order : List κ
  members : κ → Option (List α)

def Groups.empty : Groups κ α := ⟨[], fun _ => none⟩

/-- Put an item under its key; a new key is appended to the keys seen. -/
def Groups.push (key : α → κ) (g : Groups κ α) (a : α) : Groups κ α where
  order := if g.members (key a) = none then g.order ++ [key a] else g.order
  members := Function.update g.members (key a) (some ((g.members (key a)).getD [] ++ [a]))

def groupBy (key : α → κ) (items : List α) : Groups κ α := items.foldl (Groups.push key) .empty

/-- The items of a key. -/
def withKey (key : α → κ) (items : List α) (k : κ) : List α := items.filter fun a => key a = k

/-- What the groups of a list are. -/
structure Groups.Of (key : α → κ) (items : List α) (g : Groups κ α) : Prop where
  nodup : g.order.Nodup
  mem_order : ∀ k, k ∈ g.order ↔ ∃ a ∈ items, key a = k
  members_eq : ∀ k, g.members k = if k ∈ g.order then some (withKey key items k) else none

theorem Groups.Of.push {key : α → κ} {items : List α} {g : Groups κ α} (h : g.Of key items)
    (a : α) : (g.push key a).Of key (items ++ [a]) := by
  have hseen : g.members (key a) = none ↔ key a ∉ g.order := by
    rw [h.members_eq]
    split_ifs with hmem <;> simp [hmem]
  have horder : ∀ k, k ∈ (g.push key a).order ↔ k ∈ g.order ∨ k = key a := by
    intro k
    rw [Groups.push]
    dsimp only
    split_ifs with hnew
    · simp
    · rw [hseen, not_not] at hnew
      refine ⟨Or.inl, ?_⟩
      rintro (hk | rfl)
      · exact hk
      · exact hnew
  refine ⟨?_, ?_, ?_⟩
  · rw [Groups.push]
    dsimp only
    split_ifs with hnew
    · rw [hseen] at hnew
      refine List.nodup_append.mpr ⟨h.nodup, by simp, ?_⟩
      rintro k hk k' hk' rfl
      exact hnew (List.mem_singleton.mp hk' ▸ hk)
    · exact h.nodup
  · intro k
    rw [horder, h.mem_order]
    simp [or_and_right, exists_or, eq_comm]
  · intro k
    simp only [horder]
    by_cases hk : k = key a
    · subst hk
      have hold : (g.members (key a)).getD [] = withKey key items (key a) := by
        rw [h.members_eq]
        split_ifs with hmem
        · rfl
        · rw [h.mem_order] at hmem
          exact (List.filter_eq_nil_iff.mpr (by simpa using hmem)).symm
      simp [Groups.push, hold, withKey]
    · have hne : ¬ key a = k := fun heq => hk heq.symm
      simp [Groups.push, hk, h.members_eq, withKey, hne]

theorem groupBy_of (key : α → κ) (items : List α) : (groupBy key items).Of key items := by
  induction items using List.reverseRecOn with
  | nil => exact ⟨List.nodup_nil, by simp [groupBy, Groups.empty], by simp [groupBy, Groups.empty]⟩
  | append_singleton items a ih =>
      rw [groupBy, List.foldl_append]
      exact ih.push a

/-- **The groups are a partition**: put together again they are a permutation of the list. -/
theorem flatMap_withKey_perm {key : α → κ} {items : List α} {order : List κ} (hnodup : order.Nodup)
    (hall : ∀ a ∈ items, key a ∈ order) : (order.flatMap (withKey key items)).Perm items := by
  induction order generalizing items with
  | nil =>
      have hnil : items = [] :=
        List.eq_nil_iff_forall_not_mem.mpr fun a ha => absurd (hall a ha) (by simp)
      rw [hnil]
      rfl
  | cons k rest ih =>
      obtain ⟨hk, hrest⟩ := List.nodup_cons.mp hnodup
      -- the other keys find the same items among those without the key `k`
      have hothers : rest.flatMap (withKey key items) =
          rest.flatMap (withKey key (items.filter fun a => ! decide (key a = k))) := by
        refine List.flatMap_congr fun k' hk' => ?_
        rw [withKey, withKey, List.filter_filter]
        refine List.filter_congr fun a _ => ?_
        have hne : k' ≠ k := fun heq => hk (heq ▸ hk')
        by_cases ha : key a = k'
        · simp [ha, hne]
        · simp [ha]
      have hkeys : ∀ a ∈ items.filter fun a => ! decide (key a = k), key a ∈ rest := by
        intro a ha
        obtain ⟨hmem, hne⟩ := List.mem_filter.mp ha
        rcases List.mem_cons.mp (hall a hmem) with heq | hin
        · simp [heq] at hne
        · exact hin
      rw [List.flatMap_cons, hothers]
      exact ((ih hrest hkeys).append_left _).trans (List.filter_append_perm _ items)

end Grouping
