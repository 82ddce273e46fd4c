import CodeScope.Library.TextSearch

/-! # Regular expressions that backtrack

A pattern is tried at a place of the text and gives the ways in which it matches there, in the
order in which a backtracking matcher tries them: the first one is its match. Repetition is of
single characters. A search goes from left to right, an iteration goes on behind each match. -/

namespace Regex

open Text TextSearch

inductive Pattern where
  | empty
  | char (p : Char → Bool)
  /-- at least `least` characters, at most `most` of them, as many as possible first -/
  | many (p : Char → Bool) (least : ℕ) (most : Option ℕ)
  | seq (a b : Pattern)
  | alt (a b : Pattern)
  /-- with the part first, then without -/
  | opt (a : Pattern)
  | group (a : Pattern)
  /-- `\b` -/
  | boundary
  /-- `$` -/
  | stop

/-- What is behind the matcher, last character first, what is in front of it, and what the groups
    have captured. -/
structure Cursor where
  before : Str
  rest : Str
  groups : List Str

/-- Go on by `n` characters. -/
def Cursor.skip (n : ℕ) (s : Cursor) : Cursor :=
  { s with before := (s.rest.take n).reverse ++ s.before, rest := s.rest.drop n }

/-- A letter, a digit or `_`. -/
def isWordChar (c : Char) : Bool := c.isAlphanum || c = '_'

/-- How far a repetition reaches. -/
def reach (p : Char → Bool) (most : Option ℕ) (text : Str) : ℕ :=
  match most with
  | none => (text.takeWhile p).length
  | some m => min m (text.takeWhile p).length

/-- The ways in which a pattern matches, best first. -/
def run : Pattern → Cursor → List Cursor
  | .empty, s => [s]
  | .char p, s => if s.rest.head?.any p then [s.skip 1] else []
  | .many p least most, s =>
      (List.range' least (reach p most s.rest + 1 - least)).reverse.map s.skip
  | .seq a b, s => (run a s).flatMap (run b)
  | .alt a b, s => run a s ++ run b s
  | .opt a, s => run a s ++ [s]
  | .group a, s => (run a s).map fun t =>
      { t with groups := t.groups ++ [s.rest.take (s.rest.length - t.rest.length)] }
  | .boundary, s =>
      if s.before.head?.any isWordChar != s.rest.head?.any isWordChar then [s] else []
  | .stop, s => if s.rest = [] then [s] else []

/-- The characters of a word, up to the case of ASCII letters. -/
def lit (w : Str) : Pattern := w.foldr (fun c r => .seq (.char (sameLetter c)) r) .empty

structure Match where
  start : ℕ
  stop : ℕ
  groups : List Str
deriving DecidableEq

/-- The cursor at a place of the text. -/
def cursorAt (text : Str) (p : ℕ) : Cursor := ⟨(text.take p).reverse, text.drop p, []⟩

/-- The match at a place. -/
def matchAt (r : Pattern) (text : Str) (p : ℕ) : Option Match :=
  (run r (cursorAt text p)).head?.map fun t => ⟨p, text.length - t.rest.length, t.groups⟩

/-- `std::regex_search`, from a place on. -/
def searchFrom (r : Pattern) (text : Str) (p : ℕ) : Option Match :=
  (List.range' p (text.length + 1 - p)).findSome? (matchAt r text)

def search (r : Pattern) (text : Str) : Option Match := searchFrom r text 0

/-- The matches of an iteration; `fuel` bounds their number. -/
def matchesFrom (r : Pattern) (text : Str) : ℕ → ℕ → List Match
  | 0, _ => []
  | fuel + 1, p =>
      match searchFrom r text p with
      | none => []
      | some m => m :: matchesFrom r text fuel (max m.stop (m.start + 1))

/-- `std::sregex_iterator`: every match begins where the one before it ends, or later. -/
def allMatches (r : Pattern) (text : Str) : List Match := matchesFrom r text (text.length + 1) 0

/-! ## What a pattern matches -/

section Run

variable {p : Char → Bool} {s t : Cursor}

theorem mem_run_seq {a b : Pattern} :
    t ∈ run (.seq a b) s ↔ ∃ u ∈ run a s, t ∈ run b u := List.mem_flatMap

theorem mem_run_alt {a b : Pattern} :
    t ∈ run (.alt a b) s ↔ t ∈ run a s ∨ t ∈ run b s := List.mem_append

theorem exists_run_group {a : Pattern} {q : Cursor → Prop}
    (hq : ∀ (u : Cursor) (groups : List Str), q { u with groups := groups } ↔ q u) :
    (∃ t ∈ run (.group a) s, q t) ↔ ∃ t ∈ run a s, q t := by
  constructor
  · rintro ⟨t, ht, hqt⟩
    obtain ⟨u, hu, rfl⟩ := List.mem_map.mp ht
    exact ⟨u, hu, (hq u _).mp hqt⟩
  · rintro ⟨u, hu, hqu⟩
    exact ⟨_, List.mem_map_of_mem hu, (hq u _).mpr hqu⟩

/-- A word matches the texts that begin with it. -/
theorem mem_run_lit {w : Str} :
    t ∈ run (lit w) s ↔ startsWith sameLetter w s.rest = true ∧ t = s.skip w.length := by
  induction w generalizing s with
  | nil => simp [lit, run, startsWith, Cursor.skip]
  | cons c w ih =>
      have hlit : lit (c :: w) = .seq (.char (sameLetter c)) (lit w) := rfl
      rw [hlit, mem_run_seq]
      cases hrest : s.rest with
      | nil => simp [run, hrest, startsWith]
      | cons d rest =>
          have hskip : (s.skip 1).skip w.length = s.skip (c :: w).length := by
            simp [Cursor.skip, hrest]
          have hnext : (s.skip 1).rest = rest := by simp [Cursor.skip, hrest]
          by_cases hd : sameLetter c d = true
          · have hrun : run (.char (sameLetter c)) s = [s.skip 1] := by simp [run, hrest, hd]
            rw [hrun]
            simp only [List.mem_singleton, exists_eq_left]
            rw [ih, hnext, hskip, startsWith, hd, Bool.true_and]
          · have hrun : run (.char (sameLetter c)) s = [] := by simp [run, hrest, hd]
            rw [hrun, startsWith]
            simp [hd]

/-- Spaces up to the end: a repetition in front of the end matches when it can take all. -/
theorem exists_run_many_stop :
    (∃ t, t ∈ run (.seq (.many p 0 none) .stop) s) ↔ ∀ c ∈ s.rest, p c = true := by
  constructor
  · rintro ⟨t, ht⟩
    obtain ⟨u, hu, hstop⟩ := mem_run_seq.mp ht
    obtain ⟨n, hn, rfl⟩ := List.mem_map.mp hu
    have hend : (s.skip n).rest = [] := by
      by_contra hne
      simp [run, hne] at hstop
    have hlength : s.rest.length ≤ n := List.drop_eq_nil_iff.mp hend
    have hreach : n ≤ (s.rest.takeWhile p).length := by
      simp only [reach, List.mem_reverse, List.mem_range'_1] at hn
      omega
    have hall : s.rest.takeWhile p = s.rest :=
      (List.takeWhile_prefix p).eq_of_length_le (hlength.trans hreach)
    exact List.takeWhile_eq_self_iff.mp hall
  · intro hall
    have hreach : (s.rest.takeWhile p).length = s.rest.length := by
      rw [List.takeWhile_eq_self_iff.mpr hall]
    refine ⟨s.skip s.rest.length, mem_run_seq.mpr ⟨s.skip s.rest.length, ?_, ?_⟩⟩
    · refine List.mem_map_of_mem ?_
      rw [List.mem_reverse, List.mem_range'_1, reach, hreach]
      omega
    · simp [run, Cursor.skip]

end Run

/-- A word stands at the beginning of a text, up to the case of letters. -/
theorem startsWith_sameLetter {w text : Str} :
    startsWith sameLetter w text = true ↔
      ∃ word tail, text = word ++ tail ∧ word.length = w.length ∧ lower word = lower w := by
  induction w generalizing text with
  | nil => simp [startsWith, lower]
  | cons c w ih =>
      cases text with
      | nil => simp [startsWith]
      | cons d text =>
          rw [startsWith, Bool.and_eq_true, ih, sameLetter, decide_eq_true_eq]
          constructor
          · rintro ⟨hd, word, tail, rfl, hlength, hword⟩
            refine ⟨d :: word, tail, rfl, by rw [List.length_cons, hlength, List.length_cons], ?_⟩
            rw [lower, List.map_cons, ← hd]
            exact congrArg _ hword
          · rintro ⟨word, tail, htext, hlength, hword⟩
            cases word with
            | nil => exact absurd hlength (by simp)
            | cons e word =>
                rw [List.cons_append, List.cons.injEq] at htext
                obtain ⟨rfl, rfl⟩ := htext
                rw [lower, lower, List.map_cons, List.map_cons, List.cons.injEq] at hword
                exact ⟨hword.1.symm, word, tail, rfl, Nat.succ.inj hlength, hword.2⟩

/-! ## Searches -/

theorem isSome_matchAt {r : Pattern} {text : Str} {p : ℕ} :
    (matchAt r text p).isSome = true ↔ ∃ t, t ∈ run r (cursorAt text p) := by
  rw [matchAt, Option.isSome_map, List.isSome_head?]
  exact ⟨List.exists_mem_of_ne_nil _, fun ⟨_, ht⟩ => List.ne_nil_of_mem ht⟩

theorem start_of_matchAt {r : Pattern} {text : Str} {p : ℕ} {m : Match}
    (h : matchAt r text p = some m) : m.start = p := by
  obtain ⟨t, -, rfl⟩ := Option.map_eq_some_iff.mp h
  rfl

/-- **A search finds the first place where the pattern matches.** -/
theorem search_eq_some {r : Pattern} {text : Str} {m : Match} (h : search r text = some m) :
    m.start ≤ text.length ∧ matchAt r text m.start = some m ∧
      ∀ q < m.start, matchAt r text q = none := by
  rw [search, searchFrom, List.findSome?_eq_some_iff] at h
  obtain ⟨front, p, behind, hrange, hmatch, hnone⟩ := h
  obtain rfl : m.start = p := start_of_matchAt hmatch
  have hmem : ∀ q, q ∈ front ++ m.start :: behind ↔ q ≤ text.length := by
    intro q
    rw [← hrange, List.mem_range'_1]
    omega
  -- what is behind the place in the range is larger
  have hsorted : (front ++ m.start :: behind).Pairwise (· < ·) := by
    rw [← hrange]
    exact List.pairwise_lt_range'
  have hbehind := (List.pairwise_cons.mp (List.pairwise_append.mp hsorted).2.1).1
  have hstart : m.start ≤ text.length :=
    (hmem m.start).mp (List.mem_append_right _ List.mem_cons_self)
  refine ⟨hstart, hmatch, ?_⟩
  intro q hq
  rcases List.mem_append.mp ((hmem q).mpr (by omega)) with hfront | hrest
  · exact hnone q hfront
  · rcases List.mem_cons.mp hrest with rfl | hlater
    · omega
    · have hlt := hbehind q hlater
      omega

theorem search_eq_none {r : Pattern} {text : Str} :
    search r text = none ↔ ∀ p ≤ text.length, matchAt r text p = none := by
  rw [search, searchFrom, List.findSome?_eq_none_iff]
  simp only [List.mem_range'_1]
  constructor
  · intro h p hp
    exact h p (by omega)
  · intro h p hp
    exact h p (by omega)

theorem isSome_search {r : Pattern} {text : Str} :
    (search r text).isSome = true ↔
      ∃ p ≤ text.length, ∃ t, t ∈ run r (cursorAt text p) := by
  have hnone := @search_eq_none r text
  rw [← Option.ne_none_iff_isSome, Ne, hnone]
  push Not
  simp only [Option.ne_none_iff_isSome, isSome_matchAt]

end Regex
