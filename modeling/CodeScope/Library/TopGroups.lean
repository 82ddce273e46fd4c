import Mathlib.Algebra.BigOperators.Group.List.Basic
import Mathlib.Data.List.Count
import Mathlib.Data.List.Dedup
import Mathlib.Order.Basic
import Mathlib.Algebra.Order.BigOperators.Group.List
import Mathlib.Tactic.Ring

/-! # Counted groups, the largest first

`GROUP BY … ORDER BY COUNT(*) DESC LIMIT n`: the distinct keys of a list of rows with the numbers of
their rows, as many of the largest groups as the limit lets pass. Which of two equal groups comes
first is left open. -/

namespace TopGroups

variable {κ : Type} [DecidableEq κ]

/-- The number of rows of a key. -/
def size (rows : List κ) (k : κ) : ℕ := rows.countP fun x => x = k

/-- The keys with their numbers of rows. -/
def groups (rows : List κ) : List (κ × ℕ) := rows.dedup.map fun k => (k, size rows k)

/-- A list of the largest groups. -/
def IsTop (limit : ℕ) (rows : List κ) (out : List (κ × ℕ)) : Prop :=
  ∃ ranked : List (κ × ℕ), ranked.Perm (groups rows) ∧ (ranked.Pairwise fun a b => b.2 ≤ a.2) ∧
    out = ranked.take limit

/-- The list that keeps the order of the groups among equal ones. -/
def top (limit : ℕ) (rows : List κ) : List (κ × ℕ) :=
  ((groups rows).mergeSort fun a b => decide (b.2 ≤ a.2)).take limit

theorem isTop_top (limit : ℕ) (rows : List κ) : IsTop limit rows (top limit rows) := by
  refine ⟨_, List.mergeSort_perm _ _, ?_, rfl⟩
  have htrans : ∀ a b c : κ × ℕ, decide (b.2 ≤ a.2) = true → decide (c.2 ≤ b.2) = true →
      decide (c.2 ≤ a.2) = true := by
    intro a b c hab hbc
    rw [decide_eq_true_eq] at hab hbc ⊢
    exact hbc.trans hab
  have htotal : ∀ a b : κ × ℕ, (decide (b.2 ≤ a.2) || decide (a.2 ≤ b.2)) = true := by
    intro a b
    simpa using le_total b.2 a.2
  exact (List.pairwise_mergeSort htrans htotal (groups rows)).imp of_decide_eq_true

theorem size_eq_zero {rows : List κ} {k : κ} (h : k ∉ rows) : size rows k = 0 :=
  List.countP_eq_zero.mpr fun _ hx heq => h (of_decide_eq_true heq ▸ hx)

theorem size_pos {rows : List κ} {k : κ} : 0 < size rows k ↔ k ∈ rows := by
  rw [size, List.countP_pos_iff]
  simp

variable {α : Type}

theorem size_flatMap (l : List α) (f : α → List κ) (k : κ) :
    size (l.flatMap f) k = (l.map fun x => size (f x) k).sum :=
  List.countP_flatMap

theorem mem_groups {rows : List κ} {p : κ × ℕ} :
    p ∈ groups rows ↔ p.1 ∈ rows ∧ p.2 = size rows p.1 := by
  rw [groups, List.mem_map]
  constructor
  · rintro ⟨k, hk, rfl⟩
    exact ⟨List.mem_dedup.mp hk, rfl⟩
  · intro ⟨hk, hn⟩
    exact ⟨p.1, List.mem_dedup.mpr hk, by rw [← hn]⟩

variable {limit : ℕ} {rows : List κ} {out : List (κ × ℕ)}

theorem IsTop.count_eq (h : IsTop limit rows out) {p : κ × ℕ} (hp : p ∈ out) :
    p.1 ∈ rows ∧ p.2 = size rows p.1 := by
  obtain ⟨ranked, hperm, -, rfl⟩ := h
  exact mem_groups.mp (hperm.mem_iff.mp (List.mem_of_mem_take hp))

theorem IsTop.pairwise (h : IsTop limit rows out) : out.Pairwise fun a b => b.2 ≤ a.2 := by
  obtain ⟨ranked, -, hsorted, rfl⟩ := h
  exact hsorted.sublist (List.take_sublist limit ranked)

theorem IsTop.le_of_unlisted (h : IsTop limit rows out) {k : κ} (hk : k ∉ out.map (·.1))
    {p : κ × ℕ} (hp : p ∈ out) : size rows k ≤ p.2 := by
  obtain ⟨ranked, hperm, hsorted, rfl⟩ := h
  by_cases hrows : k ∈ rows
  · have hmem : (k, size rows k) ∈ ranked := hperm.mem_iff.mpr (mem_groups.mpr ⟨hrows, rfl⟩)
    rw [← List.take_append_drop limit ranked, List.mem_append] at hmem
    rw [← List.take_append_drop limit ranked, List.pairwise_append] at hsorted
    rcases hmem with hfront | hback
    · exact absurd (List.mem_map.mpr ⟨_, hfront, rfl⟩) hk
    · exact hsorted.2.2 p hp _ hback
  · rw [size_eq_zero hrows]
    exact Nat.zero_le _

/-! ## Numbers of rows -/

theorem countP_eq_sum (p : α → Bool) (l : List α) :
    l.countP p = (l.map fun x => if p x = true then 1 else 0).sum := by
  induction l with
  | nil => rfl
  | cons x l ih => rw [List.countP_cons, ih, List.map_cons, List.sum_cons, Nat.add_comm]

theorem sum_map_eq_iff {l : List α} {f g : α → ℕ} (hle : ∀ x ∈ l, f x ≤ g x) :
    (l.map g).sum = (l.map f).sum ↔ ∀ x ∈ l, g x = f x := by
  induction l with
  | nil => simp
  | cons a l ih =>
      have hhead := hle a List.mem_cons_self
      have htail : ∀ x ∈ l, f x ≤ g x := fun x hx => hle x (List.mem_cons_of_mem a hx)
      have hsum : (l.map f).sum ≤ (l.map g).sum := List.sum_le_sum htail
      rw [List.map_cons, List.map_cons, List.sum_cons, List.sum_cons, List.forall_mem_cons, ← ih htail]
      omega

theorem size_map_const (l : List α) (k k' : κ) :
    size (l.map fun _ => k) k' = if k = k' then l.length else 0 := by
  rw [size, List.countP_map]
  by_cases hk : k = k'
  · rw [if_pos hk]
    exact List.countP_eq_length.mpr fun _ _ => decide_eq_true hk
  · rw [if_neg hk]
    exact List.countP_eq_zero.mpr fun _ _ heq => hk (of_decide_eq_true heq)

theorem size_flatMap_key (l : List α) (key : α → κ) (f : α → List κ) (k : κ) (n : ℕ)
    (hf : ∀ x ∈ l, size (f x) k = if key x = k then n else 0) :
    size (l.flatMap f) k = size (l.map key) k * n := by
  rw [size_flatMap]
  induction l with
  | nil => simp [size]
  | cons x l ih =>
      rw [List.map_cons, List.sum_cons, ih fun y hy => hf y (List.mem_cons_of_mem x hy),
        hf x List.mem_cons_self, List.map_cons, size, size, List.countP_cons]
      by_cases hx : key x = k
      · rw [if_pos hx, if_pos (by simpa using hx)]
        ring
      · rw [if_neg hx, if_neg (by simpa using hx)]
        ring

/-- The rows of a join of two tables, as often as one key pair is formed, when the join holds for
    every two rows with these keys. -/
theorem size_join {β : Type} (l : List α) (m : List β) (f : α → κ) (g : β → κ) (ok : α → β → Bool)
    {a b : κ} (hok : ∀ x ∈ l, ∀ y ∈ m, f x = a → g y = b → ok x y = true) :
    size (l.flatMap fun x => (m.filter (ok x)).map fun y => (f x, g y)) (a, b)
      = l.countP (fun x => f x = a) * m.countP (fun y => g y = b) := by
  rw [size_flatMap]
  induction l with
  | nil => simp
  | cons x l ih =>
      have htail := ih fun x' hx' => hok x' (List.mem_cons_of_mem x hx')
      rw [List.map_cons, List.sum_cons, htail, List.countP_cons]
      by_cases hx : f x = a
      · have hrow : size ((m.filter (ok x)).map fun y => (f x, g y)) (a, b)
            = m.countP fun y => g y = b := by
          rw [size, List.countP_map, List.countP_filter]
          refine List.countP_congr fun y hy => ?_
          simp only [Function.comp_apply, hx, Prod.mk.injEq, true_and, Bool.and_eq_true,
            decide_eq_true_eq]
          exact and_iff_left_of_imp fun hg => hok x List.mem_cons_self y hy hx hg
        rw [hrow, if_pos (by simpa using hx)]
        ring
      · have hrow : size ((m.filter (ok x)).map fun y => (f x, g y)) (a, b) = 0 := by
          refine size_eq_zero fun hmem => ?_
          obtain ⟨y, -, heq⟩ := List.mem_map.mp hmem
          exact hx (Prod.mk.inj heq).1
        rw [hrow, if_neg (by simpa using hx)]
        ring

end TopGroups
