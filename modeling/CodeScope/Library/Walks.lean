import Mathlib

/-! # Walks and distances

A graph is given by the list of successors of each node. A search labels nodes with depths; as long
as it runs some labels are pending, since the successors of their nodes have not been looked at yet.
What every such search keeps is `Labelled`. When nothing is pending any more below the depth bound,
the labels are the distances up to the bound, whatever the order of the search. -/

namespace Walks

variable {α : Type}

/-- A walk of `n` steps. -/
inductive Walk (succ : α → List α) : ℕ → α → α → Prop where
  | nil (a : α) : Walk succ 0 a a
  | snoc {n : ℕ} {a b c : α} (walk : Walk succ n a b) (step : c ∈ succ b) : Walk succ (n + 1) a c

section

variable {succ : α → List α}

theorem Walk.append {m n : ℕ} {a b c : α} (hab : Walk succ m a b) (hbc : Walk succ n b c) :
    Walk succ (m + n) a c := by
  induction hbc with
  | nil b => exact hab
  | snoc _ step ih => exact .snoc (ih hab) step

theorem Walk.one {a b : α} (h : b ∈ succ a) : Walk succ 1 a b := .snoc (.nil a) h

theorem walk_zero_iff {a b : α} : Walk succ 0 a b ↔ a = b := by
  constructor
  · intro h
    cases h with
    | nil => rfl
  · rintro rfl
    exact .nil a

theorem Walk.congr {succ' : α → List α} (h : ∀ a b, b ∈ succ a → b ∈ succ' a) {n : ℕ} {a b : α}
    (hab : Walk succ n a b) : Walk succ' n a b := by
  induction hab with
  | nil a => exact .nil a
  | snoc _ step ih => exact .snoc ih (h _ _ step)

end

/-! ## Paths -/

/-- The nodes of a walk. -/
structure IsPath (succ : α → List α) (a b : α) (path : List α) : Prop where
  head : path.head? = some a
  last : path.getLast? = some b
  steps : path.IsChain fun x y => y ∈ succ x

section

variable {succ : α → List α}

theorem IsPath.ne_nil {a b : α} {path : List α} (h : IsPath succ a b path) : path ≠ [] := by
  rintro rfl
  exact absurd h.head (by simp)

theorem isPath_singleton (a : α) : IsPath succ a a [a] := ⟨rfl, rfl, List.isChain_singleton a⟩

theorem IsPath.congr {succ' : α → List α} (h : ∀ a b, b ∈ succ a → b ∈ succ' a) {a b : α}
    {path : List α} (hpath : IsPath succ a b path) : IsPath succ' a b path :=
  ⟨hpath.head, hpath.last, hpath.steps.imp fun x y => h x y⟩

theorem IsPath.snoc {a b c : α} {path : List α} (h : IsPath succ a b path) (hc : c ∈ succ b) :
    IsPath succ a c (path ++ [c]) := by
  refine ⟨?_, by simp, ?_⟩
  · rw [List.head?_append, h.head]
    rfl
  · refine List.isChain_append.mpr ⟨h.steps, List.isChain_singleton c, ?_⟩
    intro x hx y hy
    rw [h.last] at hx
    obtain rfl := Option.some.inj hx
    obtain rfl := Option.some.inj hy
    exact hc

theorem IsPath.init {a b c : α} {path : List α} (h : IsPath succ a b (path ++ [c]))
    (hne : path ≠ []) : c = b ∧ ∃ d, IsPath succ a d path ∧ c ∈ succ d := by
  have hc : c = b := by simpa using h.last
  refine ⟨hc, path.getLast hne, ⟨?_, List.getLast?_eq_getLast_of_ne_nil hne, ?_⟩, ?_⟩
  · have hhead := h.head
    rwa [List.head?_append_of_ne_nil _ hne] at hhead
  · exact (List.isChain_append.mp h.steps).1
  · exact (List.isChain_append.mp h.steps).2.2 _ (List.getLast?_eq_getLast_of_ne_nil hne) c rfl

theorem IsPath.walk {a b : α} {path : List α} (h : IsPath succ a b path) :
    Walk succ (path.length - 1) a b := by
  induction path using List.reverseRecOn generalizing b with
  | nil => exact absurd rfl h.ne_nil
  | append_singleton path c ih =>
      by_cases hne : path = []
      · subst hne
        have ha : c = a := by simpa using h.head
        have hb : c = b := by simpa using h.last
        exact ha ▸ hb ▸ .nil c
      · obtain ⟨rfl, d, hpath, hstep⟩ := h.init hne
        have hpos := List.length_pos_of_ne_nil hne
        have hlength : (path ++ [c]).length - 1 = path.length - 1 + 1 := by
          rw [List.length_append, List.length_singleton]
          omega
        rw [hlength]
        exact .snoc (ih hpath) hstep

theorem IsPath.walk_getElem {a b : α} {path : List α} (h : IsPath succ a b path) {i : ℕ}
    (hi : i < path.length) : Walk succ i a path[i] := by
  induction i with
  | zero =>
      have hhead := h.head
      rw [List.head?_eq_getElem?, List.getElem?_eq_getElem hi] at hhead
      exact Option.some.inj hhead ▸ .nil _
  | succ i ih => exact .snoc (ih (by omega)) (List.isChain_iff_getElem.mp h.steps i hi)

theorem Walk.path {n : ℕ} {a b : α} (h : Walk succ n a b) :
    ∃ path, IsPath succ a b path ∧ path.length = n + 1 := by
  induction h with
  | nil a => exact ⟨[a], isPath_singleton a, rfl⟩
  | snoc _ step ih =>
      obtain ⟨path, hpath, hlength⟩ := ih
      exact ⟨path ++ [_], hpath.snoc step, by simp [hlength]⟩

end

/-! ## Distances -/

section

variable (succ : α → List α) (sources : Set α)

/-- A source reaches `b` in `n` steps. -/
def Reaches (n : ℕ) (b : α) : Prop := ∃ s ∈ sources, Walk succ n s b

/-- The least number of steps in which a source reaches `b`. -/
structure IsDistance (n : ℕ) (b : α) : Prop where
  reaches : Reaches succ sources n b
  least : ∀ m, Reaches succ sources m b → n ≤ m

end

section

variable {succ : α → List α} {sources : Set α}

theorem Reaches.step {n : ℕ} {a b : α} (h : Reaches succ sources n a) (hb : b ∈ succ a) :
    Reaches succ sources (n + 1) b := by
  obtain ⟨s, hs, hwalk⟩ := h
  exact ⟨s, hs, .snoc hwalk hb⟩

theorem IsDistance.unique {m n : ℕ} {b : α} (hm : IsDistance succ sources m b)
    (hn : IsDistance succ sources n b) : m = n :=
  Nat.le_antisymm (hm.least n hn.reaches) (hn.least m hm.reaches)

theorem Reaches.distance {n : ℕ} {b : α} (h : Reaches succ sources n b) :
    ∃ d ≤ n, IsDistance succ sources d b := by
  classical
  have hex : ∃ d, Reaches succ sources d b := ⟨n, h⟩
  exact ⟨Nat.find hex, Nat.find_min' hex h, Nat.find_spec hex, fun _ hm => Nat.find_min' hex hm⟩

theorem isDistance_zero {b : α} : IsDistance succ sources 0 b ↔ b ∈ sources := by
  constructor
  · intro h
    obtain ⟨s, hs, hwalk⟩ := h.reaches
    exact walk_zero_iff.mp hwalk ▸ hs
  · intro h
    exact ⟨⟨b, h, .nil b⟩, fun _ _ => Nat.zero_le _⟩

theorem IsDistance.pred {d : ℕ} {b : α} (h : IsDistance succ sources (d + 1) b) :
    ∃ a, IsDistance succ sources d a ∧ b ∈ succ a := by
  obtain ⟨s, hs, hwalk⟩ := h.reaches
  cases hwalk with
  | snoc hwalk hstep =>
      refine ⟨_, ⟨⟨s, hs, hwalk⟩, fun m hm => ?_⟩, hstep⟩
      have hle := h.least (m + 1) (hm.step hstep)
      omega

theorem IsDistance.exists_le {d : ℕ} {b : α} (h : IsDistance succ sources d b) {i : ℕ}
    (hi : i ≤ d) : ∃ a, IsDistance succ sources i a := by
  induction d generalizing b with
  | zero => exact ⟨b, by rwa [Nat.le_zero.mp hi]⟩
  | succ d ih =>
      rcases Nat.lt_or_eq_of_le hi with hlt | rfl
      · obtain ⟨a, ha, -⟩ := h.pred
        exact ih ha (Nat.le_of_lt_succ hlt)
      · exact ⟨b, h⟩

end

/-! ## Labels -/

/-- What a search keeps. A pending label is one whose node is still to be expanded. -/
structure Labelled (succ : α → List α) (sources : Set α) (bound : ℕ) (label : α → Option ℕ)
    (pending : α → ℕ → Prop) : Prop where
  source : ∀ s ∈ sources, label s = some 0
  reached : ∀ {b : α} {d : ℕ}, label b = some d → ∃ n ≤ d, Reaches succ sources n b
  bounded : ∀ {b : α} {d : ℕ}, label b = some d → d ≤ bound
  closed : ∀ {a : α} {d : ℕ}, label a = some d → d < bound →
    pending a d ∨ ∀ b ∈ succ a, ∃ e ≤ d + 1, label b = some e

namespace Labelled

variable {succ : α → List α} {sources : Set α} {bound : ℕ} {label : α → Option ℕ}
  {pending : α → ℕ → Prop}

theorem label_of_reaches (h : Labelled succ sources bound label pending) {k : ℕ}
    (hpending : ∀ a d, pending a d → k ≤ d) (hk : k ≤ bound) {n : ℕ} {b : α}
    (hb : Reaches succ sources n b) (hn : n ≤ k) : ∃ d ≤ n, label b = some d := by
  obtain ⟨s, hs, hwalk⟩ := hb
  induction hwalk with
  | nil a => exact ⟨0, Nat.le_refl 0, h.source a hs⟩
  | snoc _ step ih =>
      obtain ⟨d, hd, hlabel⟩ := ih (Nat.le_of_succ_le hn) hs
      rcases h.closed hlabel (by omega) with hpend | hclosed
      · have := hpending _ _ hpend
        omega
      · obtain ⟨e, he, hnext⟩ := hclosed _ step
        exact ⟨e, by omega, hnext⟩

/-- **When nothing is pending the labels are the distances up to the bound.** -/
theorem label_iff (h : Labelled succ sources bound label fun _ _ => False) {b : α} {d : ℕ} :
    label b = some d ↔ IsDistance succ sources d b ∧ d ≤ bound := by
  constructor
  · intro hlabel
    have hbound := h.bounded hlabel
    obtain ⟨n, hn, hreaches⟩ := h.reached hlabel
    obtain ⟨m, hm, hdist⟩ := hreaches.distance
    obtain ⟨e, he, hlabel'⟩ := h.label_of_reaches (fun _ _ hp => hp.elim) (Nat.le_refl bound)
      hdist.reaches (by omega)
    have hde : d = e := Option.some.inj (hlabel.symm.trans hlabel')
    have hdm : d = m := by omega
    exact ⟨hdm ▸ hdist, hbound⟩
  · rintro ⟨hdist, hbound⟩
    obtain ⟨e, he, hlabel⟩ := h.label_of_reaches (fun _ _ hp => hp.elim) (Nat.le_refl bound)
      hdist.reaches hbound
    obtain ⟨n, hn, hreaches⟩ := h.reached hlabel
    have hle := hdist.least n hreaches
    have hde : d = e := by omega
    rw [hde]
    exact hlabel

section Steps

variable {label' : α → Option ℕ}

theorem le_of_lowered {b : α} {k : ℕ} (hold : ∀ old, label b = some old → k < old)
    (hself : label' b = some k) (hother : ∀ {n : α}, n ≠ b → label' n = label n) {n : α} {d : ℕ}
    (hn : label n = some d) : ∃ e ≤ d, label' n = some e := by
  by_cases hne : n = b
  · subst hne
    exact ⟨k, Nat.le_of_lt (hold d hn), hself⟩
  · exact ⟨d, Nat.le_refl d, (hother hne).trans hn⟩

/-- **One step over an edge**: the end of the edge gets a smaller label, one more than what the
    beginning is expanded with, and is pending with it. -/
theorem lower (h : Labelled succ sources bound label pending) {pending' : α → ℕ → Prop} {a b : α}
    {e d : ℕ} (ha : label a = some e) (he : e ≤ d) (hd : d < bound) (hb : b ∈ succ a)
    (hold : ∀ old, label b = some old → d + 1 < old) (hself : label' b = some (d + 1))
    (hother : ∀ {n : α}, n ≠ b → label' n = label n) (hnew : pending' b (d + 1))
    (hpending : ∀ {n : α} {k : ℕ}, pending n k → pending' n k) :
    Labelled succ sources bound label' pending' := by
  have hcases {n : α} {k : ℕ} (hn : label' n = some k) :
      n = b ∧ k = d + 1 ∨ n ≠ b ∧ label n = some k := by
    by_cases hne : n = b
    · subst hne
      exact .inl ⟨rfl, Option.some.inj (hn.symm.trans hself)⟩
    · exact .inr ⟨hne, (hother hne).symm.trans hn⟩
  constructor
  · intro s hs
    have hzero := h.source s hs
    have hne : s ≠ b := by
      rintro rfl
      exact absurd (hold 0 hzero) (Nat.not_lt_zero _)
    exact (hother hne).trans hzero
  · intro n k hn
    rcases hcases hn with ⟨rfl, rfl⟩ | ⟨-, hlabel⟩
    · obtain ⟨m, hm, hreaches⟩ := h.reached ha
      exact ⟨m + 1, by omega, hreaches.step hb⟩
    · exact h.reached hlabel
  · intro n k hn
    rcases hcases hn with ⟨rfl, rfl⟩ | ⟨-, hlabel⟩
    · exact hd
    · exact h.bounded hlabel
  · intro n k hn hk
    rcases hcases hn with ⟨rfl, rfl⟩ | ⟨-, hlabel⟩
    · exact .inl hnew
    · rcases h.closed hlabel hk with hpend | hclosed
      · exact .inl (hpending hpend)
      · refine .inr fun m hm => ?_
        obtain ⟨k', hle, hlabel'⟩ := hclosed m hm
        obtain ⟨k'', hle', hnow⟩ := le_of_lowered hold hself hother hlabel'
        exact ⟨k'', hle'.trans hle, hnow⟩

/-- **One more level**: what had no label and follows a node of the last level gets the next one. -/
theorem next (h : Labelled succ sources bound label fun _ _ => False)
    (hold : ∀ {n : α} {d : ℕ}, label n = some d → label' n = some d)
    (hnew : ∀ {n : α} {d : ℕ}, label' n = some d → label n = some d ∨
      d = bound + 1 ∧ ∃ a, label a = some bound ∧ n ∈ succ a)
    (hall : ∀ {a : α}, label a = some bound → ∀ b ∈ succ a, (label' b).isSome = true) :
    Labelled succ sources (bound + 1) label' fun _ _ => False := by
  have hbounded {n : α} {d : ℕ} (hn : label' n = some d) : d ≤ bound + 1 := by
    rcases hnew hn with hlabel | ⟨rfl, -⟩
    · exact Nat.le_succ_of_le (h.bounded hlabel)
    · exact Nat.le_refl _
  constructor
  · intro s hs
    exact hold (h.source s hs)
  · intro b d hb
    rcases hnew hb with hlabel | ⟨rfl, a, ha, hstep⟩
    · exact h.reached hlabel
    · obtain ⟨n, hn, hreaches⟩ := h.reached ha
      exact ⟨n + 1, Nat.succ_le_succ hn, hreaches.step hstep⟩
  · exact hbounded
  · intro a d ha hd
    refine .inr fun b hb => ?_
    have hlabel : label a = some d := by
      rcases hnew ha with hlabel | ⟨rfl, -⟩
      · exact hlabel
      · exact absurd hd (Nat.lt_irrefl _)
    rcases Nat.lt_or_ge d bound with hlt | hge
    · obtain ⟨e, he, hnext⟩ := (h.closed hlabel hlt).resolve_left id b hb
      exact ⟨e, he, hold hnext⟩
    · obtain rfl : d = bound := Nat.le_antisymm (h.bounded hlabel) hge
      obtain ⟨e, he⟩ := Option.isSome_iff_exists.mp (hall hlabel b hb)
      exact ⟨e, hbounded he, he⟩

end Steps

end Labelled

/-! ## How much a bounded search can do -/

/-- The number of walks of at most so many steps: what is left to do for a node that a search
    without a memory expands that deep. -/
def work (succ : α → List α) : ℕ → α → ℕ
  | 0, _ => 1
  | left + 1, a => 1 + ((succ a).map (work succ left)).sum

theorem work_pos (succ : α → List α) (left : ℕ) (a : α) : 0 < work succ left a := by
  cases left with
  | zero => exact Nat.one_pos
  | succ left => exact Nat.lt_of_lt_of_le Nat.one_pos (Nat.le_add_right 1 _)

theorem work_expand (succ : α → List α) {left : ℕ} (h : 0 < left) (a : α) :
    ((succ a).map (work succ (left - 1))).sum < work succ left a := by
  cases left with
  | zero => exact absurd h (Nat.lt_irrefl 0)
  | succ left =>
      rw [work, Nat.add_sub_cancel]
      omega

end Walks
