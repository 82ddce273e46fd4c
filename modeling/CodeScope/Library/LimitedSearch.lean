import Mathlib.Data.List.Perm.Basic
import Mathlib.Data.List.Perm.Lattice

/-! # Searching a limited number of rows

A search goes through the first rows of an arrangement and stops at one it accepts. When the
arrangement is open, any acceptable row can be the one that is found, and the search can miss them
all exactly when as many other rows as the limit stand in their way. -/

namespace LimitedSearch

variable {α : Type}

/-- A way to arrange any list of rows. -/
def Arrangement (α : Type) : Type := { f : List α → List α // ∀ rows, (f rows).Perm rows }

/-- The first row that is accepted among the first `limit`. -/
def search (order : Arrangement α) (limit : ℕ) (accept : α → Bool) (rows : List α) : Option α :=
  ((order.1 rows).take limit).find? accept

/-- There is nothing to find, or the rows that are not accepted fill the limit. -/
def Missable (limit : ℕ) (accept : α → Bool) (rows : List α) : Prop :=
  (∀ a ∈ rows, accept a = false) ∨ limit ≤ (rows.filter fun a => ! accept a).length

/-- The rows as they are. -/
def Arrangement.stored : Arrangement α := ⟨id, fun rows => List.Perm.refl rows⟩

/-- One row before all others. -/
def Arrangement.front [DecidableEq α] (a : α) : Arrangement α where
  val rows := if a ∈ rows then a :: rows.erase a else rows
  property rows := by
    by_cases ha : a ∈ rows
    · simp only [if_pos ha]
      exact (List.perm_cons_erase ha).symm
    · simp only [if_neg ha]
      exact List.Perm.refl rows

/-- The rows that are accepted after all others. -/
def Arrangement.last (accept : α → Bool) : Arrangement α where
  val rows := (rows.filter fun a => ! accept a) ++ rows.filter accept
  property rows := by
    have hperm := List.filter_append_perm (fun a => ! accept a) rows
    simpa using hperm

variable {order : Arrangement α} {limit : ℕ} {accept : α → Bool} {rows : List α} {a : α}

theorem search_some (h : search order limit accept rows = some a) :
    a ∈ rows ∧ accept a = true := by
  have hmem : a ∈ order.1 rows := List.mem_of_mem_take (List.mem_of_find?_eq_some h)
  exact ⟨(order.2 rows).mem_iff.mp hmem, List.find?_some h⟩

/-- **A search that finds nothing has nothing to find, or its limit was used up.** -/
theorem missable_of_search_none (h : search order limit accept rows = none) :
    Missable limit accept rows := by
  rw [search, List.find?_eq_none] at h
  by_cases hall : ∀ a ∈ rows, accept a = false
  · exact Or.inl hall
  · right
    push Not at hall
    obtain ⟨a, ha, haccept⟩ := hall
    have htake : ∀ b ∈ (order.1 rows).take limit, (! accept b) = true := by
      intro b hb
      simpa using h b hb
    have hlong : limit ≤ (order.1 rows).length := by
      by_contra hshort
      have hmem : a ∈ (order.1 rows).take limit := by
        rw [List.take_of_length_le (by omega)]
        exact (order.2 rows).mem_iff.mpr ha
      exact h a hmem (by simpa using haccept)
    have hcount : ((order.1 rows).filter fun b => ! accept b).length =
        (rows.filter fun b => ! accept b).length := ((order.2 rows).filter _).length_eq
    have hsub : (((order.1 rows).take limit).filter fun b => ! accept b).Sublist
        ((order.1 rows).filter fun b => ! accept b) := (List.take_sublist _ _).filter _
    have hlength := hsub.length_le
    rw [List.filter_eq_self.mpr htake, List.length_take_of_le hlong, hcount] at hlength
    exact hlength

/-- **Any acceptable row can be the one that is found.** -/
theorem search_front [DecidableEq α] (hlimit : 0 < limit) (ha : a ∈ rows)
    (haccept : accept a = true) :
    search (Arrangement.front a) limit accept rows = some a := by
  obtain ⟨limit, rfl⟩ := Nat.exists_eq_succ_of_ne_zero (Nat.ne_of_gt hlimit)
  have hfront : (Arrangement.front a).1 rows = a :: rows.erase a := if_pos ha
  rw [search, hfront, List.take_succ_cons, List.find?_cons_of_pos haccept]

/-- **What can be missed is missed when the acceptable rows come last.** -/
theorem search_last (h : Missable limit accept rows) :
    search (Arrangement.last accept) limit accept rows = none := by
  have hlast : (Arrangement.last accept).1 rows =
      (rows.filter fun a => ! accept a) ++ rows.filter accept := rfl
  rw [search, List.find?_eq_none, hlast]
  intro b hb
  rcases h with hnone | hmany
  · have hmem := List.mem_of_mem_take hb
    rw [← hlast] at hmem
    have hrow : b ∈ rows := ((Arrangement.last accept).2 rows).mem_iff.mp hmem
    simp [hnone b hrow]
  · rw [List.take_append_of_le_length hmany] at hb
    have hmem := List.mem_of_mem_take hb
    simpa using (List.mem_filter.mp hmem).2

/-! ## What a limit cuts off -/

variable {κ : Type}

/-- The first rows have distinct keys exactly when no repeated key comes before the limit. -/
theorem nodup_take_iff {key : α → κ} :
    ((rows.take limit).map key).Nodup ↔
      ∀ before a after, rows = before ++ a :: after → (∃ b ∈ before, key b = key a) →
        limit ≤ before.length := by
  constructor
  · rintro hnodup before a after rfl ⟨b, hb, hkey⟩
    by_contra hshort
    have htake : (before ++ a :: after).take limit =
        before ++ a :: after.take (limit - before.length - 1) := by
      rw [List.take_append, List.take_of_length_le (by omega), List.take_cons (by omega)]
    rw [htake, List.map_append, List.map_cons] at hnodup
    have hnot := (List.nodup_append.mp hnodup).2.2 (key b) (List.mem_map_of_mem hb) (key a)
      List.mem_cons_self
    exact hnot hkey
  · intro h
    induction limit with
    | zero => simp
    | succ limit ih =>
        have hfirst := ih fun before a after hrows hrepeat =>
          Nat.le_trans (Nat.le_succ limit) (h before a after hrows hrepeat)
        by_cases hlen : limit < rows.length
        · rw [List.take_succ_eq_append_getElem hlen, List.map_append, List.nodup_append]
          refine ⟨hfirst, by simp, ?_⟩
          intro k hk k' hk' heq
          obtain ⟨b, hb, rfl⟩ := List.mem_map.mp hk
          rw [List.map_singleton, List.mem_singleton] at hk'
          have hsplit : rows = rows.take limit ++ rows[limit] :: rows.drop (limit + 1) := by
            rw [← List.drop_eq_getElem_cons hlen, List.take_append_drop]
          have hle := h _ _ _ hsplit ⟨b, hb, by rw [heq, hk']⟩
          rw [List.length_take_of_le (Nat.le_of_lt hlen)] at hle
          omega
        · rw [List.take_of_length_le (by omega)] at hfirst ⊢
          exact hfirst

theorem mem_of_full {l keys : List κ} (hnodup : l.Nodup) (hsub : ∀ k ∈ l, k ∈ keys)
    (hfull : keys.length ≤ l.length) {k : κ} (hk : k ∈ keys) : k ∈ l :=
  ((List.subperm_of_subset hnodup hsub).perm_of_length_le hfull).mem_iff.mpr hk

end LimitedSearch
