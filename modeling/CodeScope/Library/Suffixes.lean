import Mathlib.Data.List.Infix
import Mathlib.Data.List.Nodup
import Mathlib.Data.List.Induction
import Mathlib.Data.List.Perm.Subperm

/-! # Longest suffixes in a set of words

For a set of words that contains the beginnings of its words, the longest suffix of a text that is in
the set can be kept up to date one symbol at a time: it is extended when the set allows, else it is
looked for behind its own longest proper suffix in the set. -/

namespace Suffixes

variable {α : Type} [DecidableEq α] {W P : List (List α)} {s t u v : List α} {c : α}

/-- The longest suffix of a text that is one of the words. -/
def longest (W : List (List α)) (t : List α) : List α := (t.tails.find? (· ∈ W)).getD []

/-- The set contains the empty word and the beginnings of its words. -/
structure PrefixClosed (W : List (List α)) : Prop where
  nil_mem : [] ∈ W
  init_mem : ∀ {w c}, w ++ [c] ∈ W → w ∈ W

@[simp] theorem longest_nil (W : List (List α)) : longest W [] = [] := by
  by_cases h : [] ∈ W <;> simp [longest, h]

theorem longest_cons (W : List (List α)) (c : α) (t : List α) :
    longest W (c :: t) = if c :: t ∈ W then c :: t else longest W t := by
  unfold longest
  rw [List.tails_cons, List.find?_cons]
  by_cases h : c :: t ∈ W <;> simp [h]

theorem longest_mem (h : PrefixClosed W) (t : List α) : longest W t ∈ W := by
  induction t with
  | nil => rw [longest_nil]; exact h.nil_mem
  | cons c t ih =>
      rw [longest_cons]
      split_ifs with hmem
      · exact hmem
      · exact ih

theorem longest_suffix (W : List (List α)) (t : List α) : longest W t <:+ t := by
  induction t with
  | nil => rw [longest_nil]
  | cons c t ih =>
      rw [longest_cons]
      split_ifs with hmem
      · exact List.suffix_refl _
      · exact ih.trans (List.suffix_cons c t)

theorem suffix_longest (hu : u ∈ W) (h : u <:+ t) : u <:+ longest W t := by
  induction t with
  | nil => rw [longest_nil]; exact h
  | cons c t ih =>
      rw [longest_cons]
      split_ifs with hmem
      · exact h
      · rcases List.suffix_cons_iff.mp h with rfl | hsuffix
        · exact absurd hu hmem
        · exact ih hsuffix

theorem longest_unique (hW : PrefixClosed W) (hv : v ∈ W) (hsuffix : v <:+ t)
    (hmax : ∀ u ∈ W, u <:+ t → u <:+ v) : longest W t = v := by
  have hle := hmax _ (longest_mem hW t) (longest_suffix W t)
  have hge := suffix_longest hv hsuffix
  exact hle.eq_of_length (Nat.le_antisymm hle.length_le hge.length_le)

omit [DecidableEq α] in
theorem suffix_snoc_iff : u <:+ t ++ [c] ↔ u = [] ∨ ∃ u', u = u' ++ [c] ∧ u' <:+ t := by
  constructor
  · intro h
    rcases List.eq_nil_or_concat u with rfl | ⟨u', d, rfl⟩
    · exact Or.inl rfl
    · obtain ⟨front, hsplit⟩ := h
      rw [List.concat_eq_append, ← List.append_assoc] at hsplit
      obtain ⟨hfront, hlast⟩ := List.append_inj' hsplit rfl
      obtain rfl : d = c := by simpa using hlast
      exact Or.inr ⟨u', List.concat_eq_append, front, hfront⟩
  · rintro (rfl | ⟨u', rfl, front, rfl⟩)
    · exact List.nil_suffix
    · exact ⟨front, (List.append_assoc _ _ _).symm⟩

/-- **One more symbol**: only the longest suffix so far matters for the next one. -/
theorem longest_snoc (hW : PrefixClosed W) (t : List α) (c : α) :
    longest W (t ++ [c]) = longest W (longest W t ++ [c]) := by
  have hgrow : longest W t ++ [c] <:+ t ++ [c] :=
    suffix_snoc_iff.mpr (Or.inr ⟨_, rfl, longest_suffix W t⟩)
  refine longest_unique hW (longest_mem hW _) ((longest_suffix W _).trans hgrow) ?_
  intro u hu hsuffix
  refine suffix_longest hu ?_
  rcases suffix_snoc_iff.mp hsuffix with rfl | ⟨u', rfl, hu'⟩
  · exact List.nil_suffix
  · exact suffix_snoc_iff.mpr (Or.inr ⟨u', rfl, suffix_longest (hW.init_mem hu) hu'⟩)

theorem longest_of_mem (h : t ∈ W) : longest W t = t := by
  cases t with
  | nil => exact longest_nil W
  | cons c t => rw [longest_cons, if_pos h]

theorem longest_miss (hW : PrefixClosed W) (hne : v ≠ []) (hmiss : v ++ [c] ∉ W) :
    longest W (v ++ [c]) = longest W (longest W v.tail ++ [c]) := by
  cases v with
  | nil => exact absurd rfl hne
  | cons d v =>
      have hmiss' : d :: (v ++ [c]) ∉ W := hmiss
      rw [List.cons_append, longest_cons, if_neg hmiss', longest_snoc hW]
      rfl

theorem longest_miss_nil (hmiss : [c] ∉ W) : longest W [c] = [] := by
  rw [longest_cons, if_neg hmiss, longest_nil]

theorem longest_tail_snoc (hW : PrefixClosed W) (hne : v ≠ []) :
    longest W (v ++ [c]).tail = longest W (longest W v.tail ++ [c]) := by
  rw [List.tail_append_of_ne_nil hne, longest_snoc hW]

omit [DecidableEq α] in
theorem PrefixClosed.mem_of_take (h : PrefixClosed W) (hv : v ∈ W) (k : ℕ) : v.take k ∈ W := by
  induction v using List.reverseRecOn with
  | nil => simpa using hv
  | append_singleton v c ih =>
      by_cases hk : k ≤ v.length
      · rw [List.take_append_of_le_length hk]
        exact ih (h.init_mem hv)
      · rw [List.take_of_length_le (by simp; omega)]
        exact hv

omit [DecidableEq α] in
theorem PrefixClosed.length_lt (h : PrefixClosed W) (hv : v ∈ W) : v.length < W.length := by
  have hnodup : ((List.range (v.length + 1)).map (v.take ·)).Nodup := by
    refine List.Nodup.map_on ?_ List.nodup_range
    intro i hi j hj heq
    have hlen := congrArg List.length heq
    simp only [List.length_take, List.mem_range] at hlen hi hj
    omega
  have hsub : (List.range (v.length + 1)).map (v.take ·) ⊆ W := by
    intro u hu
    obtain ⟨k, -, rfl⟩ := List.mem_map.mp hu
    exact h.mem_of_take hv k
  have hle := (List.Nodup.subperm hnodup hsub).length_le
  rw [List.length_map, List.length_range] at hle
  exact hle

/-! ## Words among the suffixes -/

/-- The longest suffix of a text that is among the given words, if there is one. -/
def firstOf (P : List (List α)) (t : List α) : Option (List α) := t.tails.find? (· ∈ P)

theorem firstOf_cons (P : List (List α)) (c : α) (t : List α) :
    firstOf P (c :: t) = if c :: t ∈ P then some (c :: t) else firstOf P t := by
  unfold firstOf
  rw [List.tails_cons, List.find?_cons]
  by_cases h : c :: t ∈ P <;> simp [h]

theorem firstOf_nil (hP : [] ∉ P) : firstOf P [] = none := by
  simp [firstOf, hP]

theorem firstOf_longest (hsub : ∀ p ∈ P, p ∈ W) (t : List α) :
    firstOf P (longest W t) = firstOf P t := by
  induction t with
  | nil => rw [longest_nil]
  | cons c t ih =>
      rw [longest_cons]
      split_ifs with hmem
      · rfl
      · rw [ih, firstOf_cons, if_neg fun hp => hmem (hsub _ hp)]

theorem firstOf_some (h : firstOf P t = some u) :
    u ∈ P ∧ u <:+ t ∧ ∀ v ∈ P, v <:+ t → v.length ≤ u.length := by
  induction t with
  | nil =>
      have hu := List.mem_of_find?_eq_some h
      have hmem := List.find?_some h
      obtain rfl : u = [] := by simpa using hu
      exact ⟨by simpa using hmem, List.suffix_refl _, fun v _ hv => hv.length_le⟩
  | cons c t ih =>
      rw [firstOf_cons] at h
      split_ifs at h with hmem
      · obtain rfl := Option.some.inj h
        exact ⟨hmem, List.suffix_refl _, fun v _ hv => hv.length_le⟩
      · obtain ⟨hu, hsuffix, hmax⟩ := ih h
        refine ⟨hu, hsuffix.trans (List.suffix_cons c t), fun v hv hvs => ?_⟩
        rcases List.suffix_cons_iff.mp hvs with rfl | hvt
        · exact absurd hv hmem
        · exact hmax v hv hvt

theorem firstOf_none (h : firstOf P t = none) : ∀ v ∈ P, ¬ v <:+ t := by
  intro v hv hsuffix
  have hnot := List.find?_eq_none.mp h v ((List.mem_tails _ _).mpr hsuffix)
  simp [hv] at hnot

end Suffixes
