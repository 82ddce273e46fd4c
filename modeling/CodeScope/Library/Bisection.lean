import CodeScope.Library.Slices

/-! # Bisecting for the first bad element

A search narrows a list to a window: nothing before the window is bad, and the window ends where the
list ends or has a bad element in it. Testing the first part of the window moves its front or its
end; a window of one bad element is the first bad element of the list, and an empty window means that
there is none. -/

namespace Bisection

open Slices (slice)

variable {α : Type}

/-- The window from `left` to `right`. -/
structure Narrowed (bad : α → Bool) (xs : List α) (left right : ℕ) : Prop where
  clean : ∀ i x, i < left → xs[i]? = some x → bad x = false
  inside : right < xs.length
  ends : right + 1 = xs.length ∨ ∃ i x, left ≤ i ∧ i ≤ right ∧ xs[i]? = some x ∧ bad x = true

variable {bad : α → Bool} {xs : List α} {left mid right : ℕ}

theorem any_slice_iff (hmid : left ≤ mid) :
    (slice left (mid + 1 - left) xs).any bad = true ↔
      ∃ i x, left ≤ i ∧ i ≤ mid ∧ xs[i]? = some x ∧ bad x = true := by
  rw [List.any_eq_true, Slices.slice_eq_filterMap]
  constructor
  · rintro ⟨x, hx, hbad⟩
    obtain ⟨i, hi, hget⟩ := List.mem_filterMap.mp hx
    rw [List.mem_range'_1] at hi
    exact ⟨i, x, hi.1, by omega, hget, hbad⟩
  · rintro ⟨i, x, hleft, hright, hget, hbad⟩
    refine ⟨x, List.mem_filterMap.mpr ⟨i, ?_, hget⟩, hbad⟩
    rw [List.mem_range'_1]
    omega

theorem Narrowed.start (hne : xs ≠ []) : Narrowed bad xs 0 (xs.length - 1) := by
  have hlen := List.length_pos_iff.mpr hne
  exact ⟨fun i x hi => absurd hi (Nat.not_lt_zero i), by omega, Or.inl (by omega)⟩

/-- The first part of the window is clean. -/
theorem Narrowed.advance (h : Narrowed bad xs left right) (hmid : left ≤ mid)
    (hclean : (slice left (mid + 1 - left) xs).any bad = false) :
    Narrowed bad xs (mid + 1) right := by
  have hnone : ∀ i x, left ≤ i → i ≤ mid → xs[i]? = some x → bad x = false := by
    intro i x hleft hright hget
    by_contra hbad
    have hdirty := (any_slice_iff hmid).mpr
      ⟨i, x, hleft, hright, hget, (Bool.not_eq_false _).mp hbad⟩
    rw [hclean] at hdirty
    exact absurd hdirty Bool.false_ne_true
  refine ⟨?_, h.inside, ?_⟩
  · intro i x hi hget
    by_cases hfront : i < left
    · exact h.clean i x hfront hget
    · exact hnone i x (Nat.le_of_not_lt hfront) (Nat.le_of_lt_succ hi) hget
  · rcases h.ends with hend | ⟨i, x, hleft, hright, hget, hbad⟩
    · exact Or.inl hend
    · refine Or.inr ⟨i, x, ?_, hright, hget, hbad⟩
      by_contra hle
      have := hnone i x hleft (by omega) hget
      rw [hbad] at this
      exact absurd this (by simp)

theorem Narrowed.shrink (h : Narrowed bad xs left right) (hmid : left ≤ mid) (hright : mid ≤ right)
    (hdirty : (slice left (mid + 1 - left) xs).any bad = true) : Narrowed bad xs left mid :=
  ⟨h.clean, Nat.lt_of_le_of_lt hright h.inside, Or.inr ((any_slice_iff hmid).mp hdirty)⟩

theorem Narrowed.found (h : Narrowed bad xs left right)
    (hdirty : (slice left (left + 1 - left) xs).any bad = true) :
    xs.find? bad = xs[left]? := by
  obtain ⟨i, x, hleft, hright, hget, hbad⟩ := (any_slice_iff (Nat.le_refl left)).mp hdirty
  obtain rfl : left = i := Nat.le_antisymm hleft hright
  obtain ⟨hlt, hx⟩ := List.getElem?_eq_some_iff.mp hget
  rw [hget, List.find?_eq_some_iff_getElem]
  refine ⟨hbad, left, hlt, hx, fun j hj => ?_⟩
  have hjlen : j < xs.length := Nat.lt_trans hj hlt
  rw [h.clean j xs[j] hj (List.getElem?_eq_getElem hjlen)]
  rfl

theorem Narrowed.exhausted (h : Narrowed bad xs left right) (hempty : right < left) :
    xs.find? bad = none := by
  rw [List.find?_eq_none]
  intro x hx
  obtain ⟨i, hget⟩ := List.mem_iff_getElem?.mp hx
  rcases h.ends with hend | ⟨j, _, hleft, hright, _, _⟩
  · have hlt := (List.getElem?_eq_some_iff.mp hget).1
    rw [h.clean i x (by omega) hget]
    exact Bool.false_ne_true
  · omega

end Bisection
