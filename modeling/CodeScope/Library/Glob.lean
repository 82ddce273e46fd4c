import Mathlib.Data.List.Infix

/-! # Glob patterns

A pattern is a list of tokens: a character that stands for itself, one arbitrary character, a run
without the separator, or any run. `Matches` is the language of a pattern, `parse` reads the usual
notation (`?`, `*`, `**`, where a `/` after `**` belongs to it). -/

namespace Glob

variable {α : Type}

inductive Token (α : Type) where
  | literal (c : α)
  | single
  | segment
  | everything
deriving DecidableEq, Repr

/-- The language of a pattern. -/
def Matches (sep : α) : List (Token α) → List α → Prop
  | [], s => s = []
  | .literal c :: ts, s => ∃ rest, s = c :: rest ∧ Matches sep ts rest
  | .single :: ts, s => ∃ c rest, s = c :: rest ∧ Matches sep ts rest
  | .segment :: ts, s => ∃ run rest, s = run ++ rest ∧ sep ∉ run ∧ Matches sep ts rest
  | .everything :: ts, s => ∃ run rest, s = run ++ rest ∧ Matches sep ts rest

/-- How many tokens of a pattern cross separators. -/
def crossings : List (Token α) → ℕ
  | [] => 0
  | .everything :: ts => crossings ts + 1
  | _ :: ts => crossings ts

/-- What is left of a text after a run without the separator. -/
def remainders [DecidableEq α] (sep : α) : List α → List (List α)
  | [] => [[]]
  | c :: s => (c :: s) :: if c = sep then [] else remainders sep s

theorem mem_remainders [DecidableEq α] {sep : α} {s t : List α} :
    t ∈ remainders sep s ↔ ∃ run, s = run ++ t ∧ sep ∉ run := by
  induction s with
  | nil =>
      rw [remainders, List.mem_singleton]
      constructor
      · rintro rfl
        exact ⟨[], by simp⟩
      · rintro ⟨run, hsplit, _⟩
        exact (List.append_eq_nil_iff.mp hsplit.symm).2
  | cons c rest ih =>
      rw [remainders, List.mem_cons]
      constructor
      · rintro (rfl | hrest)
        · exact ⟨[], by simp⟩
        · split at hrest
          · exact absurd hrest (by simp)
          · rename_i hc
            obtain ⟨run, hsplit, hnot⟩ := ih.mp hrest
            refine ⟨c :: run, by rw [hsplit]; rfl, ?_⟩
            simp [Ne.symm hc, hnot]
      · rintro ⟨run, hsplit, hnot⟩
        cases run with
        | nil => exact Or.inl hsplit.symm
        | cons d run =>
            obtain ⟨rfl, htail⟩ := List.cons.inj hsplit
            simp only [List.mem_cons, not_or] at hnot
            rw [if_neg (Ne.symm hnot.1)]
            exact Or.inr (ih.mpr ⟨run, htail, hnot.2⟩)

theorem matches_segment [DecidableEq α] {sep : α} {ts : List (Token α)} {s : List α} :
    Matches sep (.segment :: ts) s ↔ ∃ t ∈ remainders sep s, Matches sep ts t := by
  constructor
  · rintro ⟨run, rest, hsplit, hnot, hrest⟩
    exact ⟨rest, mem_remainders.mpr ⟨run, hsplit, hnot⟩, hrest⟩
  · rintro ⟨rest, hmem, hrest⟩
    obtain ⟨run, hsplit, hnot⟩ := mem_remainders.mp hmem
    exact ⟨run, rest, hsplit, hnot, hrest⟩

theorem matches_everything {sep : α} {ts : List (Token α)} {s : List α} :
    Matches sep (.everything :: ts) s ↔ ∃ t ∈ s.tails, Matches sep ts t := by
  constructor
  · rintro ⟨run, rest, hsplit, hrest⟩
    exact ⟨rest, by rw [List.mem_tails, hsplit]; exact List.suffix_append run rest, hrest⟩
  · rintro ⟨rest, hmem, hrest⟩
    obtain ⟨run, hsplit⟩ := List.mem_tails _ _ |>.mp hmem
    exact ⟨run, rest, hsplit.symm, hrest⟩

/-- Read a pattern. -/
def parse : List Char → List (Token Char)
  | [] => []
  | '*' :: '*' :: '/' :: p => .everything :: parse p
  | '*' :: '*' :: p => .everything :: parse p
  | '*' :: p => .segment :: parse p
  | '?' :: p => .single :: parse p
  | c :: p => .literal c :: parse p

variable {c : Char}

theorem parse_cons (p : List Char) (hc : c ≠ '*') :
    parse (c :: p) = (if c = '?' then .single else .literal c) :: parse p := by
  by_cases hq : c = '?'
  · subst hq
    rw [parse, if_pos rfl]
  · rw [if_neg hq, parse]
    · intro p' heq
      exact absurd heq hc
    · intro p' heq
      exact absurd heq hc
    · intro heq
      exact absurd heq hc
    · exact hq

theorem parse_star_cons (q : List Char) (hc : c ≠ '*') :
    parse ('*' :: c :: q) = .segment :: parse (c :: q) := by
  rw [parse]
  · intro p heq
    exact hc (List.cons.inj heq).1
  · intro p heq
    exact hc (List.cons.inj heq).1

theorem parse_star_star_cons (q : List Char) (hc : c ≠ '/') :
    parse ('*' :: '*' :: c :: q) = .everything :: parse (c :: q) := by
  rw [parse]
  intro p heq
  exact hc (List.cons.inj heq).1

theorem crossings_parse_cons (p : List Char) (hc : c ≠ '*') :
    crossings (parse (c :: p)) = crossings (parse p) := by
  rw [parse_cons p hc]
  split_ifs <;> rfl

theorem matches_parse_cons {d : Char} {p s : List Char} (hc : c ≠ '*') :
    Matches '/' (parse (c :: p)) (d :: s) ↔ (c = d ∨ c = '?') ∧ Matches '/' (parse p) s := by
  rw [parse_cons p hc]
  split_ifs with hq
  · constructor
    · rintro ⟨d', rest, heq, hrest⟩
      obtain ⟨_, rfl⟩ := List.cons.inj heq
      exact ⟨Or.inr hq, hrest⟩
    · rintro ⟨_, hrest⟩
      exact ⟨d, s, rfl, hrest⟩
  · constructor
    · rintro ⟨rest, heq, hrest⟩
      obtain ⟨rfl, rfl⟩ := List.cons.inj heq
      exact ⟨Or.inl rfl, hrest⟩
    · rintro ⟨heq | heq, hrest⟩
      · exact ⟨s, by rw [heq], hrest⟩
      · exact absurd heq hq

theorem not_matches_parse_cons_nil {p : List Char} (hc : c ≠ '*') :
    ¬ Matches '/' (parse (c :: p)) [] := by
  rw [parse_cons p hc]
  split_ifs with hq
  · rintro ⟨d, rest, heq, _⟩
    exact absurd heq (by simp)
  · rintro ⟨rest, heq, _⟩
    exact absurd heq (by simp)

theorem matches_self (s : List Char) : Matches '/' (parse s) s := by
  fun_induction parse s with
  | case1 => rfl
  | case2 p ih => exact ⟨['*', '*', '/'], p, rfl, ih⟩
  | case3 p _ ih => exact ⟨['*', '*'], p, rfl, ih⟩
  | case4 p _ _ ih => exact ⟨['*'], p, rfl, by decide, ih⟩
  | case5 p ih => exact ⟨'?', p, rfl, ih⟩
  | case6 c p _ _ _ _ ih => exact ⟨p, rfl, ih⟩

/-! ## Concatenation -/

theorem crossings_append (ts us : List (Token α)) :
    crossings (ts ++ us) = crossings ts + crossings us := by
  induction ts with
  | nil => simp [crossings]
  | cons t ts ih => cases t <;> simp [crossings, ih]; omega

/-- The language of two patterns in a row. -/
theorem matches_append {sep : α} {ts us : List (Token α)} {s : List α} :
    Matches sep (ts ++ us) s ↔ ∃ a b, s = a ++ b ∧ Matches sep ts a ∧ Matches sep us b := by
  induction ts generalizing s with
  | nil =>
      constructor
      · intro h
        exact ⟨[], s, rfl, rfl, h⟩
      · rintro ⟨a, b, rfl, rfl, hb⟩
        exact hb
  | cons t ts ih =>
      cases t with
      | literal c =>
          constructor
          · rintro ⟨rest, rfl, hrest⟩
            obtain ⟨a, b, rfl, ha, hb⟩ := ih.mp hrest
            exact ⟨c :: a, b, rfl, ⟨a, rfl, ha⟩, hb⟩
          · rintro ⟨a, b, rfl, ⟨rest, rfl, hrest⟩, hb⟩
            exact ⟨rest ++ b, rfl, ih.mpr ⟨rest, b, rfl, hrest, hb⟩⟩
      | single =>
          constructor
          · rintro ⟨c, rest, rfl, hrest⟩
            obtain ⟨a, b, rfl, ha, hb⟩ := ih.mp hrest
            exact ⟨c :: a, b, rfl, ⟨c, a, rfl, ha⟩, hb⟩
          · rintro ⟨a, b, rfl, ⟨c, rest, rfl, hrest⟩, hb⟩
            exact ⟨c, rest ++ b, rfl, ih.mpr ⟨rest, b, rfl, hrest, hb⟩⟩
      | segment =>
          constructor
          · rintro ⟨run, rest, rfl, hrun, hrest⟩
            obtain ⟨a, b, rfl, ha, hb⟩ := ih.mp hrest
            exact ⟨run ++ a, b, (List.append_assoc _ _ _).symm, ⟨run, a, rfl, hrun, ha⟩, hb⟩
          · rintro ⟨a, b, rfl, ⟨run, rest, rfl, hrun, hrest⟩, hb⟩
            exact ⟨run, rest ++ b, List.append_assoc _ _ _, hrun, ih.mpr ⟨rest, b, rfl, hrest, hb⟩⟩
      | everything =>
          constructor
          · rintro ⟨run, rest, rfl, hrest⟩
            obtain ⟨a, b, rfl, ha, hb⟩ := ih.mp hrest
            exact ⟨run ++ a, b, (List.append_assoc _ _ _).symm, ⟨run, a, rfl, ha⟩, hb⟩
          · rintro ⟨a, b, rfl, ⟨run, rest, rfl, hrest⟩, hb⟩
            exact ⟨run, rest ++ b, List.append_assoc _ _ _, ih.mpr ⟨rest, b, rfl, hrest, hb⟩⟩

/-- Behind a `/` the reader starts afresh. -/
theorem parse_append_sep (x y : List Char) :
    parse (x ++ '/' :: y) = parse (x ++ ['/']) ++ parse y := by
  fun_induction parse x with
  | case1 => rfl
  | case2 p ih =>
      have hall : ∀ q, parse ('*' :: '*' :: '/' :: q) = .everything :: parse q := fun q => by
        rw [parse]
      simp only [List.cons_append]
      rw [hall, hall, ih, List.cons_append]
  | case3 p hnext ih =>
      cases p with
      | nil => rfl
      | cons c p =>
          have hc : c ≠ '/' := fun heq => hnext p (by rw [heq])
          simp only [List.cons_append] at ih ⊢
          rw [parse_star_star_cons _ hc, parse_star_star_cons _ hc, ih, List.cons_append]
  | case4 p hslash hstar ih =>
      cases p with
      | nil => rfl
      | cons c p =>
          have hc : c ≠ '*' := fun heq => hstar p (by rw [heq])
          simp only [List.cons_append] at ih ⊢
          rw [parse_star_cons _ hc, parse_star_cons _ hc, ih, List.cons_append]
  | case5 p ih =>
      simp only [List.cons_append]
      rw [parse_cons _ (by decide), parse_cons _ (by decide), ih, List.cons_append]
  | case6 c p _ _ hstar hquestion ih =>
      have hc : c ≠ '*' := fun heq => hstar heq
      simp only [List.cons_append]
      rw [parse_cons _ hc, parse_cons _ hc, ih, List.cons_append]

/-- A name followed by `/` stands for texts with a `/` in them, unless the name ends in `**` and
    takes the `/` in. -/
theorem sep_mem_of_matches {x s : List Char} (hx : '/' ∉ x) (hend : ¬ ['*', '*'] <:+ x)
    (hs : Matches '/' (parse (x ++ ['/'])) s) : '/' ∈ s := by
  fun_induction parse x generalizing s with
  | case1 =>
      obtain ⟨rest, rfl, _⟩ := hs
      exact List.mem_cons_self
  | case2 p ih => exact absurd (by simp) hx
  | case3 p hnext ih =>
      cases p with
      | nil => exact absurd List.suffix_rfl hend
      | cons c p =>
          have hc : c ≠ '/' := fun heq => hnext p (by rw [heq])
          rw [List.cons_append, List.cons_append, List.cons_append, parse_star_star_cons _ hc] at hs
          obtain ⟨run, rest, rfl, hrest⟩ := hs
          have hmem := ih (fun h => hx (by simp [h]))
            (fun h => hend (h.trans (List.suffix_append ['*', '*'] (c :: p)))) hrest
          exact List.mem_append_right _ hmem
  | case4 p hslash hstar ih =>
      have hrest : ∃ run rest, s = run ++ rest ∧ Matches '/' (parse (p ++ ['/'])) rest := by
        cases p with
        | nil =>
            obtain ⟨run, rest, hsplit, _, hrest⟩ := hs
            exact ⟨run, rest, hsplit, hrest⟩
        | cons c p =>
            have hc : c ≠ '*' := fun heq => hstar p (by rw [heq])
            rw [List.cons_append, List.cons_append, parse_star_cons _ hc] at hs
            obtain ⟨run, rest, hsplit, _, hrest⟩ := hs
            exact ⟨run, rest, hsplit, hrest⟩
      obtain ⟨run, rest, rfl, hrest⟩ := hrest
      have hmem := ih (fun h => hx (List.mem_cons_of_mem _ h))
        (fun h => hend (h.trans (List.suffix_cons '*' p))) hrest
      exact List.mem_append_right _ hmem
  | case5 p ih =>
      rw [List.cons_append, parse_cons _ (by decide)] at hs
      obtain ⟨d, rest, rfl, hrest⟩ := hs
      have hmem := ih (fun h => hx (List.mem_cons_of_mem _ h))
        (fun h => hend (h.trans (List.suffix_cons '?' p))) hrest
      exact List.mem_cons_of_mem d hmem
  | case6 c p _ _ hstar hquestion ih =>
      have hc : c ≠ '*' := fun heq => hstar heq
      rw [List.cons_append, parse_cons _ hc, if_neg hquestion] at hs
      obtain ⟨rest, rfl, hrest⟩ := hs
      have hmem := ih (fun h => hx (List.mem_cons_of_mem _ h))
        (fun h => hend (h.trans (List.suffix_cons c p))) hrest
      exact List.mem_cons_of_mem c hmem

end Glob
