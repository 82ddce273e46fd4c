import Mathlib.Data.List.Basic

/-! # Reading lines with a limit

A line is a run of elements up to a separator, which belongs to it; the last one may lack its
separator. `readUntil` reads up to a separator or a limit, whichever comes first. Inside one line
that is cutting the line at the limit, whatever follows it. -/

namespace Lines

variable {α : Type} [DecidableEq α] (sep : α)

/-- What is read up to the separator, at most `n` elements, and what is left. -/
def readUntil : List α → ℕ → List α × List α
  | [], _ => ([], [])
  | b :: s, 0 => ([], b :: s)
  | b :: s, n + 1 =>
      if b = sep then ([b], s)
      else
        let (line, rest) := readUntil s n
        (b :: line, rest)

/-- The lines, each with its separator. -/
def lines : List α → List (List α)
  | [] => []
  | b :: s =>
      if b = sep then [b] :: lines s
      else
        match lines s with
        | [] => [[b]]
        | l :: ls => (b :: l) :: ls

/-- Part of one line: only its last element can be the separator. -/
def Piece (l : List α) : Prop := sep ∉ l.dropLast

/-- Nothing of the line comes after it. -/
def Ended (l : List α) : Prop := l = [] ∨ l.getLast? = some sep

/-- A line without its separator. -/
def payload (l : List α) : List α := if l.getLast? = some sep then l.dropLast else l

variable {sep} {l rest s : List α}

theorem readUntil_length (s : List α) (n : ℕ) : (readUntil sep s n).2.length ≤ s.length := by
  induction s generalizing n with
  | nil => exact Nat.le_refl _
  | cons b s ih =>
      cases n with
      | zero => exact Nat.le_refl _
      | succ n =>
          rw [readUntil]
          split
          · exact Nat.le_succ _
          · exact Nat.le_trans (ih n) (Nat.le_succ _)

theorem readUntil_length_lt {n : ℕ} (hs : s ≠ []) (hn : 0 < n) :
    (readUntil sep s n).2.length < s.length := by
  cases s with
  | nil => exact absurd rfl hs
  | cons b s =>
      cases n with
      | zero => exact absurd hn (Nat.lt_irrefl 0)
      | succ n =>
          rw [readUntil]
          split
          · exact Nat.lt_succ_self _
          · exact Nat.lt_succ_of_le (readUntil_length s n)

omit [DecidableEq α] in
theorem Piece.of_cons {b c : α} (h : Piece sep (b :: c :: l)) : b ≠ sep ∧ Piece sep (c :: l) := by
  rw [Piece, List.dropLast_cons_of_ne_nil (by simp), List.mem_cons, not_or] at h
  exact ⟨fun heq => h.1 heq.symm, h.2⟩

omit [DecidableEq α] in
theorem Piece.drop (h : Piece sep l) (n : ℕ) : Piece sep (l.drop n) := by
  have hcommute : (l.drop n).dropLast = l.dropLast.drop n := by
    rw [List.dropLast_eq_take, List.dropLast_eq_take, List.drop_take, List.length_drop]
    congr 1
    omega
  rw [Piece, hcommute]
  exact fun hmem => h (List.mem_of_mem_drop hmem)

omit [DecidableEq α] in
theorem Ended.drop (h : Ended sep l) (n : ℕ) : Ended sep (l.drop n) := by
  by_cases hn : l.length ≤ n
  · exact Or.inl (List.drop_eq_nil_of_le hn)
  · rcases h with rfl | hlast
    · exact Or.inl (by simp)
    · exact Or.inr (by rw [List.getLast?_drop, if_neg hn, hlast])

/-- **Inside a line a limited read cuts the line**, and leaves alone what follows it. -/
theorem readUntil_append (hpiece : Piece sep l) (hne : l ≠ []) (hend : Ended sep l ∨ rest = [])
    (n : ℕ) : readUntil sep (l ++ rest) n = (l.take n, l.drop n ++ rest) := by
  induction l generalizing n with
  | nil => exact absurd rfl hne
  | cons b l ih =>
      cases n with
      | zero => rfl
      | succ n =>
          rw [List.cons_append, readUntil]
          cases l with
          | nil =>
              split
              · cases n <;> rfl
              · rename_i hb
                rcases hend with (hnil | hlast) | rfl
                · exact absurd hnil (by simp)
                · exact absurd (Option.some.inj hlast) hb
                · cases n <;> rfl
          | cons c l =>
              obtain ⟨hb, hpiece⟩ := hpiece.of_cons
              have hend' : Ended sep (c :: l) ∨ rest = [] := by
                refine hend.imp_left ?_
                rintro (hnil | hlast)
                · exact absurd hnil (by simp)
                · exact Or.inr hlast
              rw [if_neg hb, ih hpiece (by simp) hend']
              rfl

theorem readUntil_piece (hpiece : Piece sep l) (n : ℕ) :
    readUntil sep l n = (l.take n, l.drop n) := by
  by_cases hne : l = []
  · rw [hne]
    cases n <;> rfl
  · have happend : readUntil sep (l ++ []) n = (l.take n, l.drop n ++ []) :=
      readUntil_append hpiece hne (Or.inr rfl) n
    rwa [List.append_nil, List.append_nil] at happend

/-- The first line of a text. -/
theorem exists_line (sep : α) (hs : s ≠ []) : ∃ l rest, s = l ++ rest ∧
    lines sep s = l :: lines sep rest ∧ l ≠ [] ∧ Piece sep l ∧ (Ended sep l ∨ rest = []) := by
  induction s with
  | nil => exact absurd rfl hs
  | cons b s ih =>
      rw [lines]
      by_cases hb : b = sep
      · refine ⟨[b], s, rfl, if_pos hb, by simp, List.not_mem_nil, Or.inl (Or.inr ?_)⟩
        rw [hb]
        rfl
      · rw [if_neg hb]
        by_cases hs : s = []
        · exact ⟨[b], [], by rw [hs]; rfl, by rw [hs]; rfl, by simp, List.not_mem_nil,
            Or.inr rfl⟩
        · obtain ⟨l, rest, hsplit, hlines, hne, hpiece, hend⟩ := ih hs
          refine ⟨b :: l, rest, by rw [hsplit]; rfl, by rw [hlines], by simp, ?_, ?_⟩
          · rw [Piece, List.dropLast_cons_of_ne_nil hne, List.mem_cons, not_or]
            exact ⟨fun heq => hb heq.symm, hpiece⟩
          · refine hend.imp_left ?_
            rintro (hnil | hlast)
            · exact absurd hnil hne
            · refine Or.inr ?_
              cases l with
              | nil => exact absurd rfl hne
              | cons c l => exact hlast


end Lines
