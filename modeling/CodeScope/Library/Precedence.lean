import Mathlib.Data.List.Basic

/-! # Ordered rules with exceptions

A rule that applies to a thing either claims it or releases it. When the last rule that applies
decides, a release takes back the claims before it. A search that ends at the first claim sees no
release behind it, so the two agree exactly on the lists in which no claim is taken back. -/

namespace Precedence

variable {R : Type} (applies releases : R → Bool)

/-- The last rule that applies claims. -/
def lastClaims (rules : List R) : Bool := (rules.filter applies).getLast?.any fun r => !releases r

/-- Some rule that applies claims. -/
def someClaims (rules : List R) : Bool := rules.any fun r => applies r && !releases r

/-- A release that applies stands behind a claim that applies, and only releases follow it. -/
def TakenBack (rules : List R) : Prop :=
  ∃ before claim between release after,
    rules = before ++ claim :: between ++ release :: after ∧
      (applies claim = true ∧ releases claim = false) ∧
      (applies release = true ∧ releases release = true) ∧
      ∀ r ∈ after, applies r = true → releases r = true

variable {applies releases}

variable {rules : List R}

/-- When some rule applies, one is the last to apply. -/
theorem exists_last (h : ∃ r ∈ rules, applies r = true) :
    ∃ before r after, rules = before ++ r :: after ∧ applies r = true ∧
      ∀ s ∈ after, applies s = false := by
  induction rules with
  | nil =>
      obtain ⟨r, hr, _⟩ := h
      exact absurd hr List.not_mem_nil
  | cons r rules ih =>
      by_cases hlater : ∃ s ∈ rules, applies s = true
      · obtain ⟨before, s, after, hsplit, hs, hafter⟩ := ih hlater
        exact ⟨r :: before, s, after, by rw [hsplit]; rfl, hs, hafter⟩
      · have hnone : ∀ s ∈ rules, applies s = false := by
          intro s hs
          cases hap : applies s with
          | false => rfl
          | true => exact absurd ⟨s, hs, hap⟩ hlater
        obtain ⟨s, hs, hap⟩ := h
        rcases List.mem_cons.mp hs with rfl | htail
        · exact ⟨[], s, rules, rfl, hap, hnone⟩
        · exact absurd ⟨s, htail, hap⟩ hlater

theorem lastClaims_split {before after : List R} {r : R} (hr : applies r = true)
    (hafter : ∀ s ∈ after, applies s = false) :
    lastClaims applies releases (before ++ r :: after) = !releases r := by
  have hnone : after.filter applies = [] := by
    rw [List.filter_eq_nil_iff]
    intro s hs
    rw [hafter s hs]
    exact Bool.false_ne_true
  rw [lastClaims, List.filter_append, List.filter_cons_of_pos hr, hnone, List.getLast?_append]
  rfl

theorem someClaims_of_lastClaims (h : lastClaims applies releases rules = true) :
    someClaims applies releases rules = true := by
  rw [lastClaims, Option.any_eq_true] at h
  obtain ⟨r, hlast, hclaims⟩ := h
  have hmem := List.mem_filter.mp (List.mem_of_getLast? hlast)
  rw [someClaims, List.any_eq_true]
  exact ⟨r, hmem.1, by rw [hmem.2, hclaims]; rfl⟩

/-- A claim the last rule does not uphold was taken back. -/
theorem takenBack_of_overruled (hsome : someClaims applies releases rules = true)
    (hlast : lastClaims applies releases rules = false) : TakenBack applies releases rules := by
  rw [someClaims, List.any_eq_true] at hsome
  obtain ⟨claim, hclaim, hboth⟩ := hsome
  rw [Bool.and_eq_true, Bool.not_eq_true'] at hboth
  obtain ⟨before, r, after, rfl, hr, hafter⟩ := exists_last ⟨claim, hclaim, hboth.1⟩
  rw [lastClaims_split hr hafter, Bool.not_eq_false'] at hlast
  have hbefore : claim ∈ before := by
    rcases List.mem_append.mp hclaim with hin | hin
    · exact hin
    · rcases List.mem_cons.mp hin with rfl | hin
      · exact absurd hlast (by rw [hboth.2]; exact Bool.false_ne_true)
      · exact absurd hboth.1 (by rw [hafter claim hin]; exact Bool.false_ne_true)
  obtain ⟨front, between, rfl⟩ := List.append_of_mem hbefore
  refine ⟨front, claim, between, r, after, rfl, hboth, ⟨hr, hlast⟩, ?_⟩
  intro s hs hap
  exact absurd hap (by rw [hafter s hs]; exact Bool.false_ne_true)

theorem overruled_of_takenBack (h : TakenBack applies releases rules) :
    someClaims applies releases rules = true ∧ lastClaims applies releases rules = false := by
  obtain ⟨front, claim, between, release, after, rfl, hclaim, hrelease, hafter⟩ := h
  constructor
  · rw [someClaims, List.any_eq_true]
    exact ⟨claim, by simp, by rw [hclaim.1, hclaim.2]; rfl⟩
  · have hsome : ∃ r ∈ release :: after, applies r = true :=
      ⟨release, List.mem_cons_self, hrelease.1⟩
    obtain ⟨before, r, rest, hsplit, hr, hrest⟩ := exists_last hsome
    have hreleases : releases r = true := by
      have hmem : r ∈ release :: after := by rw [hsplit]; simp
      rcases List.mem_cons.mp hmem with rfl | hmem
      · exact hrelease.2
      · exact hafter r hmem hr
    rw [hsplit, ← List.append_assoc, lastClaims_split hr hrest, hreleases]
    rfl

/-- **Ending the search at the first claim is last-rule precedence on the lists in which no claim is
    taken back**, and on no other. -/
theorem someClaims_eq_lastClaims_iff :
    someClaims applies releases rules = lastClaims applies releases rules ↔
      ¬ TakenBack applies releases rules := by
  constructor
  · intro heq hback
    obtain ⟨hsome, hlast⟩ := overruled_of_takenBack hback
    rw [hsome, hlast] at heq
    exact absurd heq.symm Bool.false_ne_true
  · intro hnot
    cases hlast : lastClaims applies releases rules with
    | true => exact someClaims_of_lastClaims hlast
    | false =>
        cases hsome : someClaims applies releases rules with
        | true => exact absurd (takenBack_of_overruled hsome hlast) hnot
        | false => rfl

end Precedence
