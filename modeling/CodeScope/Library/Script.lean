import Mathlib.Data.List.Basic

/-! # Scripts of statements that may fail

The statements run in order. A statement fails when it is made to, or when it cannot be executed in
the state it meets; then it has no effect, and the runner goes on with the next one or stops. The
run returns the statements that succeeded and the state at the end. -/

namespace Script

variable {ι σ : Type} (exec : ι → σ → Option σ) (fails : ι → Bool)

/-- The state behind a statement that succeeds. -/
def attempt (i : ι) (s : σ) : Option σ := if fails i then none else exec i s

def run (stops : Bool) : List ι → σ → List ι × σ
  | [], s => ([], s)
  | i :: rest, s =>
      match attempt exec fails i s with
      | some s' => (i :: (run stops rest s').1, (run stops rest s').2)
      | none => if stops then ([], s) else run stops rest s

/-- The state behind a run that goes on. -/
abbrev final (l : List ι) (s : σ) : σ := (run exec fails false l s).2

variable {exec fails} {i : ι} {l : List ι} {s s' : σ}

theorem attempt_of_fails (h : fails i = true) : attempt exec fails i s = none := if_pos h

theorem attempt_of_works (h : fails i = false) : attempt exec fails i s = exec i s :=
  if_neg (by simp [h])

theorem run_cons_some (stops : Bool) (h : attempt exec fails i s = some s') :
    run exec fails stops (i :: l) s =
      (i :: (run exec fails stops l s').1, (run exec fails stops l s').2) := by
  rw [run, h]

theorem run_cons_none (h : attempt exec fails i s = none) :
    run exec fails false (i :: l) s = run exec fails false l s := by
  rw [run, h]
  rfl

theorem final_cons_some (h : attempt exec fails i s = some s') :
    final exec fails (i :: l) s = final exec fails l s' := by
  rw [final, run_cons_some false h]

theorem final_cons_none (h : attempt exec fails i s = none) :
    final exec fails (i :: l) s = final exec fails l s := by
  rw [final, run_cons_none h]

theorem final_append (a b : List ι) (s : σ) :
    final exec fails (a ++ b) s = final exec fails b (final exec fails a s) := by
  induction a generalizing s with
  | nil => rfl
  | cons i a ih =>
      rw [List.cons_append]
      cases h : attempt exec fails i s with
      | none => rw [final_cons_none h, final_cons_none h, ih]
      | some s' => rw [final_cons_some h, final_cons_some h, ih]

/-- What every statement preserves, the run preserves. -/
theorem run_invariant {P : σ → Prop} (stops : Bool) (hs : P s)
    (hstep : ∀ i ∈ l, ∀ s s', P s → exec i s = some s' → P s') :
    P (run exec fails stops l s).2 := by
  induction l generalizing s with
  | nil => exact hs
  | cons i l ih =>
      have hrest : ∀ j ∈ l, ∀ s s', P s → exec j s = some s' → P s' :=
        fun j hj => hstep j (List.mem_cons_of_mem _ hj)
      cases h : attempt exec fails i s with
      | none =>
          rw [run, h]
          cases stops with
          | true => exact hs
          | false => exact ih hs hrest
      | some s' =>
          have hexec : exec i s = some s' := by
            rw [attempt] at h
            split at h
            · exact absurd h (by simp)
            · exact h
          rw [run_cons_some stops h]
          exact ih (hstep i List.mem_cons_self s s' hs hexec) hrest

theorem run_sublist (stops : Bool) (l : List ι) (s : σ) :
    (run exec fails stops l s).1.Sublist l := by
  induction l generalizing s with
  | nil => exact List.nil_sublist _
  | cons i l ih =>
      rw [run]
      split
      · exact (ih _).cons_cons i
      · split
        · exact List.nil_sublist _
        · exact (ih s).cons i

/-- The script runs from `s` without a failure, up to `s'`. -/
inductive Succeeds (exec : ι → σ → Option σ) (fails : ι → Bool) : List ι → σ → σ → Prop where
  | nil (s : σ) : Succeeds exec fails [] s s
  | cons {i : ι} {l : List ι} {s s₁ s₂ : σ} (head : attempt exec fails i s = some s₁)
      (tail : Succeeds exec fails l s₁ s₂) : Succeeds exec fails (i :: l) s s₂

/-- **A run is complete exactly when nothing in it fails**; then stopping makes no difference. -/
theorem run_complete_iff (stops : Bool) (l : List ι) (s : σ) :
    (run exec fails stops l s).1 = l ↔ Succeeds exec fails l s (run exec fails stops l s).2 := by
  induction l generalizing s with
  | nil => exact iff_of_true rfl (Succeeds.nil s)
  | cons i l ih =>
      cases h : attempt exec fails i s with
      | some s' =>
          rw [run_cons_some stops h]
          simp only [List.cons.injEq, true_and, ih s']
          constructor
          · exact fun htail => Succeeds.cons h htail
          · intro hall
            cases hall with
            | cons head tail =>
                rw [h] at head
                obtain rfl := Option.some.inj head
                exact tail
      | none =>
          refine iff_of_false (fun heq => ?_) fun hall => ?_
          · have hlong : (i :: l).length ≤ l.length := by
              rw [← heq, run, h]
              cases stops with
              | true => exact Nat.zero_le _
              | false => exact (run_sublist false l s).length_le
            exact absurd hlong (by simp)
          · cases hall with
            | cons head _ => exact absurd (h.symm.trans head) (by simp)

variable {s₁ : σ} {a : List ι}

theorem Succeeds.works (h : Succeeds exec fails l s s₁) (hi : i ∈ l) : fails i = false := by
  induction h with
  | nil s => exact absurd hi List.not_mem_nil
  | @cons j l s s₁ s₂ head tail ih =>
      rcases List.mem_cons.mp hi with rfl | hmem
      · by_contra hfail
        rw [Bool.not_eq_false] at hfail
        rw [attempt_of_fails hfail] at head
        exact absurd head (by simp)
      · exact ih hmem

theorem Succeeds.append {b : List ι} {s₂ : σ} (ha : Succeeds exec fails a s s₁)
    (hb : Succeeds exec fails b s₁ s₂) : Succeeds exec fails (a ++ b) s s₂ := by
  induction ha with
  | nil s => exact hb
  | cons head tail ih => exact Succeeds.cons head (ih hb)

theorem Succeeds.of_append {b : List ι} {s₂ : σ} (h : Succeeds exec fails (a ++ b) s s₂) :
    ∃ s₁, Succeeds exec fails a s s₁ ∧ Succeeds exec fails b s₁ s₂ := by
  induction a generalizing s with
  | nil => exact ⟨s, Succeeds.nil s, h⟩
  | cons i a ih =>
      cases h with
      | cons head tail =>
          obtain ⟨s₁, hfirst, hsecond⟩ := ih tail
          exact ⟨s₁, Succeeds.cons head hfirst, hsecond⟩

theorem Succeeds.run_eq (stops : Bool) (h : Succeeds exec fails l s s₁) :
    run exec fails stops l s = (l, s₁) := by
  induction h with
  | nil s => rfl
  | cons head tail ih => rw [run_cons_some stops head, ih]

theorem Succeeds.final_eq (h : Succeeds exec fails l s s₁) : final exec fails l s = s₁ := by
  rw [final, h.run_eq false]

/-- Nothing in the script fails. -/
def Completes (exec : ι → σ → Option σ) (fails : ι → Bool) (l : List ι) (s : σ) : Prop :=
  Succeeds exec fails l s (final exec fails l s)

theorem completes_nil : Completes exec fails [] s := Succeeds.nil s

theorem completes_append_iff {b : List ι} : Completes exec fails (a ++ b) s ↔
    Completes exec fails a s ∧ Completes exec fails b (final exec fails a s) := by
  constructor
  · intro h
    obtain ⟨s₁, hfirst, hsecond⟩ := Succeeds.of_append h
    have hmid := hfirst.final_eq
    refine ⟨by rwa [Completes, hmid], ?_⟩
    rw [Completes, hmid]
    rwa [final_append, hmid] at hsecond
  · rintro ⟨hfirst, hsecond⟩
    rw [Completes, final_append]
    exact hfirst.append hsecond

theorem completes_single_iff : Completes exec fails [i] s ↔
    fails i = false ∧ (exec i s).isSome = true := by
  constructor
  · intro h
    have hworks := Succeeds.works h List.mem_cons_self
    cases h with
    | cons head tail =>
        rw [attempt_of_works hworks] at head
        exact ⟨hworks, by rw [head]; rfl⟩
  · rintro ⟨hworks, hsome⟩
    obtain ⟨s', hs'⟩ := Option.isSome_iff_exists.mp hsome
    have hattempt := (attempt_of_works hworks).trans hs'
    rw [Completes, final_cons_some hattempt]
    exact Succeeds.cons hattempt (Succeeds.nil s')

theorem completes_cons_iff : Completes exec fails (i :: l) s ↔
    Completes exec fails [i] s ∧ Completes exec fails l (final exec fails [i] s) :=
  completes_append_iff (a := [i])

theorem Completes.works (h : Completes exec fails l s) (hi : i ∈ l) : fails i = false :=
  Succeeds.works h hi

theorem run_complete_iff_completes (stops : Bool) (l : List ι) (s : σ) :
    (run exec fails stops l s).1 = l ↔ Completes exec fails l s := by
  constructor
  · intro h
    have hsucceeds := (run_complete_iff stops l s).mp h
    rwa [Completes, hsucceeds.final_eq]
  · intro h
    rw [Succeeds.run_eq stops h]

/-! ## Steps and abstractions -/

/-- The state behind a statement, whether it succeeds or not. -/
def step (exec : ι → σ → Option σ) (fails : ι → Bool) (s : σ) (i : ι) : σ :=
  (attempt exec fails i s).getD s

theorem final_eq_foldl (l : List ι) (s : σ) :
    final exec fails l s = l.foldl (step exec fails) s := by
  induction l generalizing s with
  | nil => rfl
  | cons i l ih =>
      rw [List.foldl_cons, step]
      cases h : attempt exec fails i s with
      | none => rw [final_cons_none h, ih, Option.getD_none]
      | some s' => rw [final_cons_some h, ih, Option.getD_some]

section Abstraction

variable {τ : Type} {exec' : ι → τ → Option τ} {f : σ → τ}

/-- **An abstraction that the statements respect is respected by the run**: the same statements
    succeed, and the states at the end correspond. -/
theorem run_map (h : ∀ i s, (exec i s).map f = exec' i (f s)) (stops : Bool) (l : List ι) (s : σ) :
    run exec' fails stops l (f s) =
      ((run exec fails stops l s).1, f (run exec fails stops l s).2) := by
  have hattempt : ∀ i s, (attempt exec fails i s).map f = attempt exec' fails i (f s) := by
    intro i s
    rw [attempt, attempt]
    split
    · rfl
    · exact h i s
  induction l generalizing s with
  | nil => rfl
  | cons i l ih =>
      have hi := hattempt i s
      cases hs : attempt exec fails i s with
      | none =>
          rw [hs] at hi
          rw [run, run, hs, ← hi]
          cases stops with
          | true => rfl
          | false => exact ih s
      | some s' =>
          rw [hs] at hi
          rw [run_cons_some stops hs, run_cons_some stops hi.symm, ih]

end Abstraction

theorem run_append_complete {stops : Bool} (h : (run exec fails stops a s).1 = a) (b : List ι) :
    run exec fails stops (a ++ b) s =
      (a ++ (run exec fails stops b (run exec fails stops a s).2).1,
        (run exec fails stops b (run exec fails stops a s).2).2) := by
  have hall := (run_complete_iff stops a s).mp h
  clear h
  induction a generalizing s with
  | nil => rfl
  | cons i a ih =>
      cases hall with
      | cons head tail =>
          rw [run_cons_some stops head] at tail ⊢
          rw [List.cons_append, run_cons_some stops head, ih tail]
          rfl

theorem run_append_incomplete (h : (run exec fails true a s).1 ≠ a) (b : List ι) :
    run exec fails true (a ++ b) s = run exec fails true a s := by
  induction a generalizing s with
  | nil => exact absurd rfl h
  | cons i a ih =>
      rw [List.cons_append]
      cases hi : attempt exec fails i s with
      | none => simp only [run, hi, if_true]
      | some s' =>
          rw [run_cons_some true hi] at h ⊢
          have hrest : (run exec fails true a s').1 ≠ a := fun heq => h (by rw [heq])
          rw [run_cons_some true hi, ih hrest]

end Script
