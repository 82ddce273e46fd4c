import Mathlib.Data.Option.Basic

/-! # Conditions along the runs of a step function

A run is a list of labels given to a partial step function; it goes on as long as its labels are
available. `Along next P s ls` says that `P` holds in every state of the run, `Meets next good s ls`
that every step taken meets `good` in the state before it. When good steps keep `P` and bad ones
break it, the two say the same (`along_iff_meets`). -/

namespace Traces

variable {σ ℓ : Type} (next : σ → ℓ → Option σ)

/-- `P` holds in every state of the run, the first one included. -/
def Along (P : σ → Prop) : σ → List ℓ → Prop
  | s, [] => P s
  | s, l :: ls => P s ∧ ∀ s' ∈ next s l, Along P s' ls

/-- Every step the run takes meets `good` in the state before it. -/
def Meets (good : σ → ℓ → Prop) : σ → List ℓ → Prop
  | _, [] => True
  | s, l :: ls => ∀ s' ∈ next s l, good s l ∧ Meets good s' ls

instance Along.decidable (P : σ → Prop) [DecidablePred P] :
    ∀ s ls, Decidable (Along next P s ls)
  | s, [] => inferInstanceAs (Decidable (P s))
  | s, l :: ls =>
      have : DecidablePred fun s' => Along next P s' ls := fun s' => Along.decidable P s' ls
      inferInstanceAs (Decidable (P s ∧ ∀ s' ∈ next s l, Along next P s' ls))

variable {next} {P Q : σ → Prop} {good : σ → ℓ → Prop}

theorem Along.head {s : σ} {ls : List ℓ} (h : Along next P s ls) : P s := by
  cases ls with
  | nil => exact h
  | cons l ls => exact h.1

/-- **A property holds along a run exactly when every step of the run is good**, where good steps keep
    a condition `Q` that implies the property, and any other step breaks the property. -/
theorem along_iff_meets (hQP : ∀ s, Q s → P s)
    (hgood : ∀ s l s', Q s → good s l → next s l = some s' → Q s')
    (hbad : ∀ s l s', Q s → ¬ good s l → next s l = some s' → ¬ P s')
    {s : σ} (hQ : Q s) (ls : List ℓ) : Along next P s ls ↔ Meets next good s ls := by
  induction ls generalizing s with
  | nil => exact iff_of_true (hQP s hQ) trivial
  | cons l ls ih =>
      have hstep : ∀ s' ∈ next s l, (Along next P s' ls ↔ good s l ∧ Meets next good s' ls) := by
        intro s' hs'
        by_cases hl : good s l
        · rw [ih (hgood s l s' hQ hl hs')]
          simp [hl]
        · have hbroken := hbad s l s' hQ hl hs'
          exact iff_of_false (fun h => hbroken h.head) (fun h => hl h.1)
      constructor
      · intro h s' hs'
        exact (hstep s' hs').mp (h.2 s' hs')
      · intro h
        exact ⟨hQP s hQ, fun s' hs' => (hstep s' hs').mpr (h s' hs')⟩

end Traces
