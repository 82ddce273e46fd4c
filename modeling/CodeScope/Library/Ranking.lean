import Mathlib.Data.List.Lex
import Mathlib.Data.List.NodupEquivFin
import Mathlib.Order.Basic

/-! # Numbering by rank

The members of a list, sorted by a key and numbered one after the other from an offset on. When the
keys are distinct the numbering does not depend on the order of the list. -/

namespace Ranking

variable {α κ : Type} [LinearOrder κ]

/-- The members in the order of their keys. -/
def sorted (key : α → κ) (l : List α) : List α := l.mergeSort fun a b => key a ≤ key b

/-- The members with `offset + 1`, `offset + 2`, … in the order of their keys. -/
def ranked (key : α → κ) (offset : Int) (l : List α) : List (α × Int) :=
  (sorted key l).zipIdx.map fun p => (p.1, offset + 1 + p.2)

@[simp] theorem ranked_nil (key : α → κ) (offset : Int) : ranked key offset [] = [] := by
  simp [ranked, sorted]

theorem sorted_perm (key : α → κ) (l : List α) : (sorted key l).Perm l :=
  List.mergeSort_perm l _

theorem sorted_pairwise (key : α → κ) (l : List α) :
    (sorted key l).Pairwise fun a b => key a ≤ key b := by
  have htrans : ∀ a b c : α, decide (key a ≤ key b) = true → decide (key b ≤ key c) = true →
      decide (key a ≤ key c) = true := by
    intro a b c hab hbc
    rw [decide_eq_true_eq] at hab hbc ⊢
    exact hab.trans hbc
  have htotal : ∀ a b : α, (decide (key a ≤ key b) || decide (key b ≤ key a)) = true := by
    intro a b
    simpa using le_total (key a) (key b)
  exact (List.pairwise_mergeSort htrans htotal l).imp of_decide_eq_true

variable {key : α → κ} {l : List α}

theorem sorted_eq_of_perm {l' : List α} (hperm : l.Perm l') (hkeys : (l.map key).Nodup) :
    sorted key l = sorted key l' := by
  have hsame : (sorted key l).Perm (sorted key l') :=
    (sorted_perm key l).trans (hperm.trans (sorted_perm key l').symm)
  refine hsame.eq_of_pairwise ?_ (sorted_pairwise key l) (sorted_pairwise key l')
  intro a b ha hb hab hba
  have ha' : a ∈ l := (sorted_perm key l).mem_iff.mp ha
  have hb' : b ∈ l := hperm.mem_iff.mpr ((sorted_perm key l').mem_iff.mp hb)
  exact List.inj_on_of_nodup_map hkeys ha' hb' (le_antisymm hab hba)

/-- **With distinct keys the numbering does not depend on the order of the list.** -/
theorem ranked_eq_of_perm {l' : List α} (offset : Int) (hperm : l.Perm l')
    (hkeys : (l.map key).Nodup) : ranked key offset l = ranked key offset l' := by
  rw [ranked, ranked, sorted_eq_of_perm hperm hkeys]

theorem ranked_map_fst (key : α → κ) (offset : Int) (l : List α) :
    (ranked key offset l).map (·.1) = sorted key l := by
  rw [ranked, List.map_map]
  exact List.zipIdx_map_fst 0 (sorted key l)

theorem exists_rank (key : α → κ) (offset : Int) {a : α} (ha : a ∈ l) :
    ∃ n, (a, n) ∈ ranked key offset l := by
  have hmem : a ∈ (ranked key offset l).map (·.1) := by
    rw [ranked_map_fst]
    exact (sorted_perm key l).mem_iff.mpr ha
  obtain ⟨⟨b, n⟩, hb, rfl⟩ := List.mem_map.mp hmem
  exact ⟨n, hb⟩

theorem mem_of_ranked {offset : Int} {p : α × Int} (h : p ∈ ranked key offset l) : p.1 ∈ l := by
  have hmem : p.1 ∈ (ranked key offset l).map (·.1) := List.mem_map_of_mem h
  rw [ranked_map_fst] at hmem
  exact (sorted_perm key l).mem_iff.mp hmem

theorem ranked_nodup (key : α → κ) (offset : Int) (l : List α) :
    ((ranked key offset l).map (·.2)).Nodup := by
  have hnumbers : (ranked key offset l).map (·.2) =
      ((sorted key l).zipIdx.map (·.2)).map fun i : ℕ => offset + 1 + (i : Int) := by
    rw [ranked, List.map_map, List.map_map]
    rfl
  rw [hnumbers, List.zipIdx_map_snd]
  refine List.Nodup.map ?_ List.nodup_range'
  intro i j hij
  have heq : offset + 1 + (i : Int) = offset + 1 + (j : Int) := hij
  omega

theorem lt_of_ranked {offset : Int} {p : α × Int} (h : p ∈ ranked key offset l) : offset < p.2 := by
  obtain ⟨q, _, rfl⟩ := List.mem_map.mp h
  dsimp only
  omega

/-- The offset can be read off the numbers, if there are any. -/
theorem ranked_eq_ranked_iff {offset offset' : Int} :
    ranked key offset l = ranked key offset' l ↔ offset = offset' ∨ ranked key offset' l = [] := by
  constructor
  · intro h
    cases hsorted : sorted key l with
    | nil =>
        refine Or.inr ?_
        rw [ranked, hsorted]
        rfl
    | cons a rest =>
        simp only [ranked, hsorted, List.zipIdx_cons, List.map_cons, List.cons.injEq,
          Prod.mk.injEq] at h
        have hfirst : offset + 1 + ((0 : ℕ) : Int) = offset' + 1 + ((0 : ℕ) : Int) := h.1.2
        refine Or.inl ?_
        omega
  · rintro (rfl | hnone)
    · rfl
    · have hsorted : sorted key l = [] := by
        rw [← ranked_map_fst key offset', hnone]
        rfl
      rw [hnone, ranked, hsorted]
      rfl

end Ranking
