import Mathlib.Data.Finset.Card
import Mathlib.Logic.Relation

/-! # Search by rounds

Every round goes to what the last one came to for the first time. What is visited for the first time
and is to be kept is noted, and the next round goes on from it. However the relation looks, cycles
included, the search ends as soon as a round keeps nothing (`rounds_eq`), and what has been noted by
then is what a chain of kept elements leads to. -/

namespace Frontier

variable {α γ : Type} [DecidableEq α]

/-- What has been visited, what was made of it, and what the next round goes on from. -/
structure Search (α γ : Type) where
  visited : List α
  noted : γ
  next : List α

variable (succ : α → List α) (keep : α → Bool) (note : γ → α → γ)

def visit (s : Search α γ) (a : α) : Search α γ :=
  if a ∈ s.visited then s
  else if keep a then
    { visited := a :: s.visited, noted := note s.noted a, next := s.next ++ [a] }
  else { s with visited := a :: s.visited }

/-- The rounds from a frontier on, as many as `fuel` allows. -/
def rounds : ℕ → List α → γ → List α → Option γ
  | _, _, noted, [] => some noted
  | 0, _, _, _ :: _ => none
  | fuel + 1, visited, noted, a :: frontier =>
    let s := ((a :: frontier).flatMap succ).foldl (visit keep note) ⟨visited, noted, []⟩
    rounds fuel s.visited s.noted s.next

/-- A step of the search, to an element that it keeps. -/
def Goes (avoid : List α) (a b : α) : Prop := b ∈ succ a ∧ keep b = true ∧ b ∉ avoid

variable {succ keep note}

omit [DecidableEq α] in
theorem eq_of_chain {avoid : List α} (hself : ∀ a, ∀ b ∈ succ a, b = a) {a b : α}
    (hchain : Relation.TransGen (Goes succ keep avoid) a b) : b = a := by
  induction hchain with
  | single hgoes => exact hself _ _ hgoes.1
  | tail _ hgoes ih => exact (hself _ _ hgoes.1).trans ih

/-! ## One round -/

/-- What a round visits, keeps and notes. -/
theorem foldl_visit (keep : α → Bool) (note : γ → α → γ) (as : List α) (s : Search α γ) :
    ∃ kept, (as.foldl (visit keep note) s).next = s.next ++ kept ∧
      (as.foldl (visit keep note) s).noted = kept.foldl note s.noted ∧
      (∀ b, b ∈ (as.foldl (visit keep note) s).visited ↔ b ∈ s.visited ∨ b ∈ as) ∧
      ∀ b, b ∈ kept ↔ b ∈ as ∧ keep b = true ∧ b ∉ s.visited := by
  induction as generalizing s with
  | nil => exact ⟨[], by simp, rfl, by simp, by simp⟩
  | cons a as ih =>
      rw [List.foldl_cons]
      by_cases hvisited : a ∈ s.visited
      · have hstep : visit keep note s a = s := if_pos hvisited
        obtain ⟨kept, hnext, hnoted, hmem, hkept⟩ := ih s
        refine ⟨kept, by rw [hstep, hnext], by rw [hstep, hnoted], fun b => ?_, fun b => ?_⟩
        · rw [hstep, hmem, List.mem_cons]
          constructor
          · exact fun h => h.imp id Or.inr
          · rintro (h | rfl | h)
            · exact Or.inl h
            · exact Or.inl hvisited
            · exact Or.inr h
        · rw [hkept, List.mem_cons]
          constructor
          · exact fun ⟨h, hrest⟩ => ⟨Or.inr h, hrest⟩
          · rintro ⟨rfl | h, hkeep, hno⟩
            · exact absurd hvisited hno
            · exact ⟨h, hkeep, hno⟩
      · by_cases hkeep : keep a = true
        · have hstep : visit keep note s a =
              ⟨a :: s.visited, note s.noted a, s.next ++ [a]⟩ := by
            rw [visit, if_neg hvisited, if_pos hkeep]
          obtain ⟨kept, hnext, hnoted, hmem, hkept⟩ := ih (visit keep note s a)
          rw [hstep] at hnext hnoted hmem hkept
          refine ⟨a :: kept, by rw [hstep, hnext]; simp, by rw [hstep, hnoted]; rfl,
            fun b => ?_, fun b => ?_⟩
          · rw [hstep, hmem, List.mem_cons, List.mem_cons]
            tauto
          · rw [List.mem_cons, hkept, List.mem_cons, List.mem_cons]
            by_cases hb : b = a
            · subst hb
              simp [hkeep, hvisited]
            · simp [hb]
        · have hstep : visit keep note s a = { s with visited := a :: s.visited } := by
            rw [visit, if_neg hvisited, if_neg hkeep]
          obtain ⟨kept, hnext, hnoted, hmem, hkept⟩ := ih (visit keep note s a)
          rw [hstep] at hnext hnoted hmem hkept
          refine ⟨kept, by rw [hstep, hnext], by rw [hstep, hnoted], fun b => ?_, fun b => ?_⟩
          · rw [hstep, hmem, List.mem_cons, List.mem_cons]
            tauto
          · rw [hkept, List.mem_cons, List.mem_cons]
            by_cases hb : b = a
            · subst hb
              simp [hkeep]
            · simp [hb]

/-! ## All rounds -/

/-- What holds between two rounds of a search that started with `avoid` and `start`: `found` was
    kept so far, and whatever does not stand in the frontier any more has been gone on from. -/
structure Invariant (succ : α → List α) (keep : α → Bool) (avoid start found visited : List α)
    (frontier : List α) : Prop where
  sound : ∀ b ∈ found, ∃ a ∈ start, Relation.TransGen (Goes succ keep avoid) a b
  frontier_sub : ∀ a ∈ frontier, a ∈ start ∨ a ∈ found
  visited_iff : ∀ b ∈ visited, b ∈ avoid ∨ b ∈ found ∨ keep b = false
  avoid_sub : ∀ b ∈ avoid, b ∈ visited
  closed : ∀ a, a ∈ start ∨ a ∈ found → a ∈ frontier ∨ ∀ b ∈ succ a, b ∈ visited

omit [DecidableEq α] in
theorem Invariant.init (avoid start : List α) :
    Invariant succ keep avoid start [] avoid start where
  sound := by simp
  frontier_sub := fun a ha => Or.inl ha
  visited_iff := fun b hb => Or.inl hb
  avoid_sub := fun b hb => hb
  closed := fun a ha => Or.inl (by simpa using ha)

/-- **A round keeps the invariant.** -/
theorem Invariant.step {avoid start found visited frontier kept visited' : List α}
    (h : Invariant succ keep avoid start found visited frontier)
    (hvisited : ∀ b, b ∈ visited' ↔ b ∈ visited ∨ b ∈ frontier.flatMap succ)
    (hkept : ∀ b, b ∈ kept ↔ b ∈ frontier.flatMap succ ∧ keep b = true ∧ b ∉ visited) :
    Invariant succ keep avoid start (found ++ kept) visited' kept where
  sound := by
    intro b hb
    rcases List.mem_append.mp hb with hb | hb
    · exact h.sound b hb
    · obtain ⟨hmem, hkeep, hno⟩ := (hkept b).mp hb
      obtain ⟨a, ha, hab⟩ := List.mem_flatMap.mp hmem
      have hgoes : Goes succ keep avoid a b := ⟨hab, hkeep, fun hb => hno (h.avoid_sub b hb)⟩
      rcases h.frontier_sub a ha with hstart | hfound
      · exact ⟨a, hstart, Relation.TransGen.single hgoes⟩
      · obtain ⟨a', ha', hchain⟩ := h.sound a hfound
        exact ⟨a', ha', hchain.tail hgoes⟩
  frontier_sub := fun a ha => Or.inr (List.mem_append_right _ ha)
  visited_iff := by
    intro b hb
    rcases (hvisited b).mp hb with hb | hb
    · exact (h.visited_iff b hb).imp id fun h => h.imp (List.mem_append_left _) id
    · by_cases hno : b ∈ visited
      · exact (h.visited_iff b hno).imp id fun h => h.imp (List.mem_append_left _) id
      · cases hkeep : keep b with
        | false => exact Or.inr (Or.inr rfl)
        | true => exact Or.inr (Or.inl (List.mem_append_right _ ((hkept b).mpr ⟨hb, hkeep, hno⟩)))
  avoid_sub := fun b hb => (hvisited b).mpr (Or.inl (h.avoid_sub b hb))
  closed := by
    intro a ha
    have hold : a ∈ start ∨ a ∈ found → ∀ b ∈ succ a, b ∈ visited' := by
      intro ha b hb
      rcases h.closed a ha with hfrontier | hclosed
      · exact (hvisited b).mpr (Or.inr (List.mem_flatMap.mpr ⟨a, hfrontier, hb⟩))
      · exact (hvisited b).mpr (Or.inl (hclosed b hb))
    rcases ha with ha | ha
    · exact Or.inr (hold (Or.inl ha))
    · rcases List.mem_append.mp ha with ha | ha
      · exact Or.inr (hold (Or.inr ha))
      · exact Or.inl ha

omit [DecidableEq α] in
/-- At the end everything that a chain leads to has been kept. -/
theorem Invariant.complete {avoid start found visited : List α}
    (h : Invariant succ keep avoid start found visited []) {a b : α} (ha : a ∈ start)
    (hchain : Relation.TransGen (Goes succ keep avoid) a b) : b ∈ found := by
  have hnext : ∀ {c d}, c ∈ start ∨ c ∈ found → Goes succ keep avoid c d → d ∈ found := by
    intro c d hc hgoes
    rcases h.closed c hc with hnil | hclosed
    · exact absurd hnil List.not_mem_nil
    · rcases h.visited_iff d (hclosed d hgoes.1) with havoid | hfound | hno
      · exact absurd havoid hgoes.2.2
      · exact hfound
      · rw [hgoes.2.1] at hno
        exact absurd hno (by simp)
  induction hchain with
  | single hgoes => exact hnext (Or.inl ha) hgoes
  | tail _ hgoes ih => exact hnext (Or.inr ih) hgoes

/-- **The search ends** when there are more rounds than elements it could visit, and it has noted
    exactly what the chains from the start lead to. -/
theorem rounds_eq (succ : α → List α) (keep : α → Bool) (note : γ → α → γ) (all : List α)
    (hall : ∀ a, ∀ b ∈ succ a, b ∈ all) {fuel : ℕ} (hfuel : all.length < fuel)
    (avoid start : List α) (noted : γ) :
    ∃ found : List α, rounds succ keep note fuel avoid noted start = some (found.foldl note noted) ∧
      ∀ b, b ∈ found ↔ ∃ a ∈ start, Relation.TransGen (Goes succ keep avoid) a b := by
  have hrun : ∀ (fuel : ℕ) (found visited frontier : List α),
      Invariant succ keep avoid start found visited frontier →
      (all.toFinset \ visited.toFinset).card < fuel →
      ∃ found' : List α, rounds succ keep note fuel visited (found.foldl note noted) frontier =
          some (found'.foldl note noted) ∧
        ∃ visited', Invariant succ keep avoid start found' visited' [] := by
    intro fuel
    induction fuel with
    | zero => intro _ _ _ _ h; omega
    | succ fuel ih =>
        intro found visited frontier hinv hcard
        cases frontier with
        | nil => exact ⟨found, rfl, visited, hinv⟩
        | cons a frontier =>
            obtain ⟨kept, hnext, hnoted, hvisited, hkept⟩ := foldl_visit keep note
              ((a :: frontier).flatMap succ) ⟨visited, found.foldl note noted, []⟩
            have hinv' := hinv.step hvisited hkept
            rw [rounds]
            simp only [hnext, hnoted, List.nil_append, ← List.foldl_append]
            cases hcases : kept with
            | nil =>
                rw [hcases] at hinv'
                refine ⟨found ++ [], ?_, _, hinv'⟩
                cases fuel <;> rfl
            | cons b rest =>
                rw [← hcases]
                refine ih (found ++ kept) _ kept hinv' ?_
                -- the first element that was kept had not been visited
                obtain ⟨hmem, -, hno⟩ := (hkept b).mp (by rw [hcases]; exact List.mem_cons_self)
                obtain ⟨c, -, hb⟩ := List.mem_flatMap.mp hmem
                refine Nat.lt_of_lt_of_le (Finset.card_lt_card ?_) (Nat.le_of_lt_succ hcard)
                refine Finset.ssubset_iff_subset_ne.mpr ⟨fun d hd => ?_, fun heq => ?_⟩
                · rw [Finset.mem_sdiff, List.mem_toFinset, List.mem_toFinset] at hd ⊢
                  exact ⟨hd.1, fun h => hd.2 ((hvisited d).mpr (Or.inl h))⟩
                · have hin : b ∈ all.toFinset \ visited.toFinset := by
                    rw [Finset.mem_sdiff, List.mem_toFinset, List.mem_toFinset]
                    exact ⟨hall c b hb, hno⟩
                  rw [← heq, Finset.mem_sdiff, List.mem_toFinset, List.mem_toFinset] at hin
                  exact hin.2 ((hvisited b).mpr (Or.inr hmem))
  have hcard : (all.toFinset \ avoid.toFinset).card < fuel :=
    Nat.lt_of_le_of_lt ((Finset.card_le_card Finset.sdiff_subset).trans all.toFinset_card_le) hfuel
  obtain ⟨found, hrounds, visited, hinv⟩ :=
    hrun fuel [] avoid start (Invariant.init avoid start) hcard
  exact ⟨found, hrounds, fun b => ⟨hinv.sound b, fun ⟨a, ha, hchain⟩ => hinv.complete ha hchain⟩⟩

end Frontier
