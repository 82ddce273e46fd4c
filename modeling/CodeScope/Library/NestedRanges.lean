import Mathlib

/-! # Nested ranges

Ranges of rows, first and last row included, of which any two are nested or disjoint and no two
begin in one row. The smallest range around a row is then the one that begins last
(`innermost_of_latest`). A search that takes a last row of 0 for an unknown one finds the same as
long as any range is around the row (`innermost_of_candidate`). -/

namespace NestedRanges

variable {α : Type} (first last : α → ℕ)

/-- The range is around the row. -/
def Around (a : α) (r : ℕ) : Prop := first a ≤ r ∧ r ≤ last a

/-- Ranges that are nested or disjoint and begin in different rows. -/
structure Nested (l : List α) : Prop where
  ordered : ∀ a ∈ l, first a ≤ last a
  distinct : ∀ a ∈ l, ∀ b ∈ l, first a = first b → a = b
  nested : ∀ a ∈ l, ∀ b ∈ l, last a < first b ∨ last b < first a ∨
    (first b ≤ first a ∧ last a ≤ last b) ∨ (first a ≤ first b ∧ last b ≤ last a)

/-- The smallest range around a row. -/
structure Innermost (l : List α) (r : ℕ) (a : α) : Prop where
  mem : a ∈ l
  around : Around first last a r
  smallest : ∀ b ∈ l, Around first last b r → last a - first a ≤ last b - first b

/-- A range that a search finds which takes 0 for an unknown last row. -/
def Candidate (a : α) (r : ℕ) : Prop := first a ≤ r ∧ (r ≤ last a ∨ last a = 0)

variable {first last} {l : List α} {r : ℕ} {a b : α}

theorem Around.candidate (h : Around first last a r) : Candidate first last a r :=
  ⟨h.1, Or.inl h.2⟩

theorem Nested.inside (h : Nested first last l) (ha : a ∈ l) (hb : b ∈ l)
    (har : Around first last a r) (hbr : Around first last b r) (hle : first b ≤ first a) :
    last a ≤ last b := by
  rcases h.nested a ha b hb with hlt | hlt | hin | hout
  · have hfirst := hbr.1
    have hlast := har.2
    omega
  · have hfirst := har.1
    have hlast := hbr.2
    omega
  · exact hin.2
  · have heq := h.distinct a ha b hb (by omega)
    rw [heq]

/-- **The range that begins last is the smallest one.** -/
theorem innermost_of_latest (h : Nested first last l) (ha : a ∈ l) (har : Around first last a r)
    (hlatest : ∀ b ∈ l, Around first last b r → first b ≤ first a) :
    Innermost first last l r a where
  mem := ha
  around := har
  smallest b hb hbr := by
    have hinside := h.inside ha hb har hbr (hlatest b hb hbr)
    have hfirst := hlatest b hb hbr
    omega

theorem innermost_unique (h : Nested first last l) (ha : Innermost first last l r a)
    (hb : Innermost first last l r b) : a = b := by
  have hab := ha.smallest b hb.mem hb.around
  have hba := hb.smallest a ha.mem ha.around
  have hordered := h.ordered a ha.mem
  have hordered' := h.ordered b hb.mem
  apply h.distinct a ha.mem b hb.mem
  rcases Nat.le_total (first a) (first b) with hle | hle
  · have hinside := h.inside hb.mem ha.mem hb.around ha.around hle
    omega
  · have hinside := h.inside ha.mem hb.mem ha.around hb.around hle
    omega

/-- **A range that is around the row is not missed** for one whose last row is unknown. -/
theorem innermost_of_candidate (h : Nested first last l) (ha : a ∈ l)
    (har : Candidate first last a r) (hlatest : ∀ b ∈ l, Candidate first last b r →
      first b ≤ first a) (hsome : ∃ b ∈ l, Around first last b r) :
    Innermost first last l r a := by
  refine innermost_of_latest h ha ⟨har.1, ?_⟩ fun b hb hbr => hlatest b hb hbr.candidate
  rcases har.2 with hle | hzero
  · exact hle
  · -- A range that ends in row 0 begins there, and so does the one around the row.
    obtain ⟨b, hb, hbr⟩ := hsome
    have hordered := h.ordered a ha
    have hfirst := hlatest b hb hbr.candidate
    have heq : b = a := h.distinct b hb a ha (by omega)
    exact heq ▸ hbr.2

theorem Candidate.last_eq_zero (har : Candidate first last a r)
    (hnone : ¬ Around first last a r) : last a = 0 :=
  har.2.resolve_left fun hle => hnone ⟨har.1, hle⟩

theorem Nested.candidate_of_zero (h : Nested first last l) (ha : a ∈ l) (hzero : last a = 0) :
    Candidate first last a r := by
  have hordered := h.ordered a ha
  exact ⟨by omega, Or.inr hzero⟩

end NestedRanges
