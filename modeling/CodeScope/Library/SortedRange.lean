import Mathlib.Data.List.Lex
import Mathlib.Data.List.Sort

/-! # Ranges of a sorted list

A query whose answers are the keys from a lower bound on, as long as they satisfy it, is answered by
one contiguous range of a list that is sorted by these keys. The keys that begin with a given list
are such a range in the lexicographic order. -/

namespace SortedRange

variable {α κ : Type} [LinearOrder κ]

/-- The entries from the lower bound `low` on that satisfy `P`, up to the first that does not. -/
def range (key : α → κ) (low : κ) (P : κ → Bool) (l : List α) : List α :=
  (l.dropWhile fun a => key a < low).takeWhile fun a => P (key a)

/-- The answers to `P` are the keys from `low` up to some place. -/
structure Convex (low : κ) (P : κ → Bool) : Prop where
  low_le : ∀ k, P k = true → low ≤ k
  downward : ∀ k k', low ≤ k → k ≤ k' → P k' = true → P k = true

theorem takeWhile_eq_filter {key : α → κ} {low : κ} {P : κ → Bool} (h : Convex low P) {l : List α}
    (hsorted : l.Pairwise fun a b => key a ≤ key b) (hlow : ∀ a ∈ l, low ≤ key a) :
    (l.takeWhile fun a => P (key a)) = l.filter fun a => P (key a) := by
  induction l with
  | nil => rfl
  | cons a rest ih =>
      obtain ⟨hhead, htail⟩ := List.pairwise_cons.mp hsorted
      have hrest : ∀ b ∈ rest, low ≤ key b := fun b hb => hlow b (List.mem_cons_of_mem a hb)
      by_cases hP : P (key a) = true
      · rw [List.takeWhile_cons_of_pos (p := fun a => P (key a)) hP,
          List.filter_cons_of_pos (p := fun a => P (key a)) hP, ih htail hrest]
      · have hnone : ∀ b ∈ rest, ¬ P (key b) = true := fun b hb hPb =>
          hP (h.downward _ _ (hlow a List.mem_cons_self) (hhead b hb) hPb)
        rw [List.takeWhile_cons_of_neg (p := fun a => P (key a)) hP,
          List.filter_cons_of_neg (p := fun a => P (key a)) hP, List.filter_eq_nil_iff.mpr hnone]

/-- **The range holds every answer.** -/
theorem range_eq_filter {key : α → κ} {low : κ} {P : κ → Bool} (h : Convex low P) {l : List α}
    (hsorted : l.Pairwise fun a b => key a ≤ key b) :
    range key low P l = l.filter fun a => P (key a) := by
  unfold range
  induction l with
  | nil => rfl
  | cons a rest ih =>
      obtain ⟨hhead, htail⟩ := List.pairwise_cons.mp hsorted
      by_cases hlow : key a < low
      · have hP : ¬ P (key a) = true := fun hPa => absurd (h.low_le _ hPa) (not_le.mpr hlow)
        rw [List.dropWhile_cons_of_pos (by simpa using hlow),
          List.filter_cons_of_neg (p := fun a => P (key a)) hP, ih htail]
      · rw [List.dropWhile_cons_of_neg (by simpa using hlow)]
        refine takeWhile_eq_filter h hsorted fun b hb => ?_
        rcases List.mem_cons.mp hb with rfl | hrest
        · exact not_lt.mp hlow
        · exact (not_lt.mp hlow).trans (hhead b hrest)

/-! ## Keys with a common beginning -/

theorem cons_le_cons {c d : κ} {s t : List κ} :
    c :: s ≤ d :: t ↔ c < d ∨ c = d ∧ s ≤ t := by
  rw [← not_lt, List.cons_lt_cons_iff, ← not_lt]
  constructor
  · intro h
    rcases lt_trichotomy c d with hlt | rfl | hgt
    · exact Or.inl hlt
    · exact Or.inr ⟨rfl, fun hts => h (Or.inr ⟨rfl, hts⟩)⟩
    · exact absurd (Or.inl hgt) h
  · rintro (hlt | ⟨rfl, hle⟩) (hgt | ⟨heq, hts⟩)
    · exact absurd hgt (lt_asymm hlt)
    · exact absurd hlt (by rw [heq]; exact lt_irrefl c)
    · exact absurd hgt (lt_irrefl c)
    · exact hle hts

theorem le_of_isPrefix {q s : List κ} (h : q <+: s) : q ≤ s := by
  obtain ⟨t, rfl⟩ := h
  induction q with
  | nil => exact not_lt.mp (List.not_lt_nil _)
  | cons c q ih => exact cons_le_cons.mpr (Or.inr ⟨rfl, ih⟩)

theorem isPrefix_of_le_of_le {q s t : List κ} (hq : q ≤ s) (hs : s ≤ t) (ht : q <+: t) :
    q <+: s := by
  obtain ⟨u, rfl⟩ := ht
  induction q generalizing s with
  | nil => exact List.nil_prefix
  | cons c q ih =>
      cases s with
      | nil => exact absurd (List.nil_lt_cons c q) (not_lt.mpr hq)
      | cons d s =>
          rw [List.cons_append] at hs
          rcases cons_le_cons.mp hq with hlt | ⟨rfl, hqs⟩
          · rcases cons_le_cons.mp hs with hgt | ⟨heq, _⟩
            · exact absurd hgt (lt_asymm hlt)
            · exact absurd hlt (by rw [heq]; exact lt_irrefl c)
          · rcases cons_le_cons.mp hs with hgt | ⟨_, hst⟩
            · exact absurd hgt (lt_irrefl c)
            · exact List.cons_prefix_cons.mpr ⟨rfl, ih hqs hst⟩

theorem convex_isPrefixOf (q : List κ) : Convex q fun s => q.isPrefixOf s where
  low_le _ h := le_of_isPrefix (List.isPrefixOf_iff_prefix.mp h)
  downward _ _ hq hs h :=
    List.isPrefixOf_iff_prefix.mpr (isPrefix_of_le_of_le hq hs (List.isPrefixOf_iff_prefix.mp h))

end SortedRange
