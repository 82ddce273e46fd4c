import Mathlib

/-! # Interleaved programs over a shared memory

Threads share one memory of type `σ`; each thread `w : W` also has a private state of type `τ` (its
program counter and local variables). A step is either a move of the environment or one indivisible
access made by one thread, so every interleaving of the threads is a list of labels.

`Program.Reaches` collects the worlds reached along runs all of whose steps meet a side condition;
with the condition `fun _ _ => True` these are all reachable worlds. `Outline.sound` is the proof
rule used for such programs: an invariant of the memory and one assertion per thread, kept by the
thread's own accesses and left intact by the accesses of every other thread. -/

namespace Interleaving

/-- The memory all threads share, and the private state of each thread. -/
structure World (W σ τ : Type) where
  shared : σ
  locals : W → τ

/-- What a step is: a move of the environment, or action `a` of thread `w`. -/
inductive Label (W ε α : Type) where
  | env (e : ε)
  | thread (w : W) (a : α)
deriving DecidableEq

/-- A program: how a thread acts on the memory and on its private state (`none` when the action is
    not available there), and how the environment moves the memory. -/
structure Program (W ε α σ τ : Type) where
  act : W → α → σ → τ → Option (σ × τ)
  env : ε → σ → σ

variable {W ε α σ τ : Type} [DecidableEq W]

/-- Write back what thread `w` did. -/
def World.put (s : World W σ τ) (w : W) (r : σ × τ) : World W σ τ :=
  ⟨r.1, Function.update s.locals w r.2⟩

@[simp] theorem World.put_shared (s : World W σ τ) (w : W) (r : σ × τ) :
    (s.put w r).shared = r.1 := rfl

@[simp] theorem World.put_locals_self (s : World W σ τ) (w : W) (r : σ × τ) :
    (s.put w r).locals w = r.2 := by
  simp [World.put]

theorem World.put_locals_of_ne (s : World W σ τ) {w b : W} (r : σ × τ) (h : b ≠ w) :
    (s.put w r).locals b = s.locals b := by
  simp [World.put, Function.update_of_ne h]

namespace Program

variable (P : Program W ε α σ τ)

/-- One step of the whole program. -/
def next (s : World W σ τ) : Label W ε α → Option (World W σ τ)
  | .env e => some ⟨P.env e s.shared, s.locals⟩
  | .thread w a => (P.act w a s.shared (s.locals w)).map (s.put w)

variable {s : World W σ τ}

theorem next_thread {s' : World W σ τ} {w : W} {a : α} (h : P.next s (.thread w a) = some s') :
    ∃ r, P.act w a s.shared (s.locals w) = some r ∧ s' = s.put w r := by
  simp only [next, Option.map_eq_some_iff] at h
  obtain ⟨r, hr, rfl⟩ := h
  exact ⟨r, hr, rfl⟩

/-- The worlds reached from `s` by runs whose every step meets `good` in the world before it. -/
inductive Reaches (good : World W σ τ → Label W ε α → Prop) (s : World W σ τ) :
    World W σ τ → Prop where
  | refl : Reaches good s s
  | step {t t' : World W σ τ} {l : Label W ε α} (run : Reaches good s t) (meets : good t l)
      (next : P.next t l = some t') : Reaches good s t'

/-- Execute a schedule. -/
def exec (s : World W σ τ) : List (Label W ε α) → Option (World W σ τ)
  | [] => some s
  | l :: ls => (P.next s l).bind fun s' => exec s' ls

/-- The world a schedule leads to. -/
def outcome (s : World W σ τ) (ls : List (Label W ε α)) : World W σ τ := (P.exec s ls).getD s

/-- Every step of the schedule meets `good` in the world before it. -/
def Meets (good : World W σ τ → Label W ε α → Prop) :
    World W σ τ → List (Label W ε α) → Prop
  | _, [] => True
  | s, l :: ls => good s l ∧ ∀ s' ∈ P.next s l, Meets good s' ls

instance Meets.decidable (good : World W σ τ → Label W ε α → Prop)
    [∀ s l, Decidable (good s l)] : ∀ s ls, Decidable (P.Meets good s ls)
  | _, [] => isTrue trivial
  | s, l :: ls =>
      have : DecidablePred fun s' => P.Meets good s' ls := fun s' => Meets.decidable good s' ls
      inferInstanceAs (Decidable (good s l ∧ ∀ s' ∈ P.next s l, P.Meets good s' ls))

variable {P} {good good' : World W σ τ → Label W ε α → Prop}

theorem Reaches.trans {t u : World W σ τ} (hst : P.Reaches good s t) (htu : P.Reaches good t u) :
    P.Reaches good s u := by
  induction htu with
  | refl => exact hst
  | step _ hgood hnext ih => exact ih.step hgood hnext

theorem Reaches.of_exec {t : World W σ τ} {ls : List (Label W ε α)} (hexec : P.exec s ls = some t)
    (hmeets : P.Meets good s ls) : P.Reaches good s t := by
  induction ls generalizing s with
  | nil =>
      simp only [exec, Option.some.injEq] at hexec
      exact hexec ▸ .refl
  | cons l ls ih =>
      simp only [exec, Option.bind_eq_some_iff] at hexec
      obtain ⟨s', hnext, hrest⟩ := hexec
      have hfirst : P.Reaches good s s' := Reaches.refl.step hmeets.1 hnext
      exact hfirst.trans (ih hrest (hmeets.2 s' hnext))

theorem Reaches.of_outcome {ls : List (Label W ε α)} (hmeets : P.Meets good s ls)
    (hexec : (P.exec s ls).isSome = true) : P.Reaches good s (P.outcome s ls) := by
  obtain ⟨t, ht⟩ := Option.isSome_iff_exists.mp hexec
  simpa [outcome, ht] using Reaches.of_exec ht hmeets

/-- A schedule leads by a run that meets the condition to a world in which `Q` holds; the premises
    can be evaluated. -/
theorem exists_reaches (P : Program W ε α σ τ) (s : World W σ τ) (ls : List (Label W ε α))
    (good : World W σ τ → Label W ε α → Prop) (Q : World W σ τ → Prop)
    (hmeets : P.Meets good s ls) (hexec : ∃ t ∈ P.exec s ls, Q t) :
    ∃ t, P.Reaches good s t ∧ Q t := by
  obtain ⟨t, ht, hQ⟩ := hexec
  exact ⟨t, .of_exec ht hmeets, hQ⟩

/-- The invariant rule: what holds at the start and is kept by every step that meets the condition
    holds wherever such a run leads. -/
theorem Reaches.invariant {I : World W σ τ → Prop} {t : World W σ τ} (h : P.Reaches good s t)
    (hinit : I s) (hstep : ∀ u l u', I u → good u l → P.next u l = some u' → I u') : I t := by
  induction h with
  | refl => exact hinit
  | step _ hgood hnext ih => exact hstep _ _ _ ih hgood hnext

end Program

/-! ## Proof outlines -/

/-- A proof outline for runs that meet `good`: `I` speaks of the memory, `A w` of thread `w`'s
    private state and the memory. A thread's action keeps `I` and establishes its own next
    assertion (`step`), and does not disturb the assertion of any other thread (`stable`). -/
structure Outline (P : Program W ε α σ τ) (good : World W σ τ → Label W ε α → Prop)
    (I : σ → Prop) (A : W → τ → σ → Prop) : Prop where
  env_shared : ∀ s e, I s → I (P.env e s)
  env_local : ∀ s e w l, I s → A w l s → A w l (P.env e s)
  step : ∀ (s : World W σ τ) w a r, good s (.thread w a) → I s.shared →
    (∀ b, A b (s.locals b) s.shared) → P.act w a s.shared (s.locals w) = some r →
    I r.1 ∧ A w r.2 r.1
  stable : ∀ (s : World W σ τ) w b a r, b ≠ w → good s (.thread w a) → I s.shared →
    (∀ b, A b (s.locals b) s.shared) → P.act w a s.shared (s.locals w) = some r →
    A b (s.locals b) r.1

/-- **The outline rule.** A proof outline whose assertions hold at the start holds in every world
    reached by a run that meets the condition. -/
theorem Outline.sound {P : Program W ε α σ τ} {good : World W σ τ → Label W ε α → Prop}
    {I : σ → Prop} {A : W → τ → σ → Prop} (outline : Outline P good I A) {s t : World W σ τ}
    (h : P.Reaches good s t) (hI : I s.shared) (hA : ∀ w, A w (s.locals w) s.shared) :
    I t.shared ∧ ∀ w, A w (t.locals w) t.shared := by
  refine Program.Reaches.invariant
    (I := fun u => I u.shared ∧ ∀ w, A w (u.locals w) u.shared) h ⟨hI, hA⟩ ?_
  rintro u l u' ⟨huI, huA⟩ hgood hnext
  cases l with
  | env e =>
      simp only [Program.next, Option.some.injEq] at hnext
      subst hnext
      exact ⟨outline.env_shared _ _ huI, fun w => outline.env_local _ _ _ _ huI (huA w)⟩
  | thread w a =>
      obtain ⟨r, hr, rfl⟩ := P.next_thread hnext
      have hown := outline.step u w a r hgood huI huA hr
      refine ⟨hown.1, fun b => ?_⟩
      by_cases hb : b = w
      · subst hb
        simpa using hown.2
      · rw [World.put_locals_of_ne _ _ hb]
        exact outline.stable u w b a r hb hgood huI huA hr

end Interleaving
