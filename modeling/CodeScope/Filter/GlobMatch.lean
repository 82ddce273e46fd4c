import CodeScope.Library.Glob
import CodeScope.Library.Text

/-! # The glob matcher of the filter policy

`globImpl` walks the pattern and the text together. At a `*` or a `**` it calls itself for every
place the run can end; nested `**` are cut off at a fixed depth. A character of the model stands for
one byte of the source's strings. -/

namespace CodeScope.Filter

open Text (Str)

/-- Cap on the `**` recursion depth. -/
def kGlobDoubleStarMaxDepth : ℕ := 8

def globImpl : Str → Str → ℕ → Bool
  | [], s, _ => s.isEmpty
  -- `**`, with the `/` that may follow it: the rest is tried at every position, the end included
  | '*' :: '*' :: '/' :: p, s, depth =>
    if depth ≥ kGlobDoubleStarMaxDepth then false
    else s.tails.any fun t => globImpl p t (depth + 1)
  | '*' :: '*' :: p, s, depth =>
    if depth ≥ kGlobDoubleStarMaxDepth then false
    else s.tails.any fun t => globImpl p t (depth + 1)
  -- `*`: the rest is tried up to the next `/`
  | '*' :: p, s, depth => (Glob.remainders '/' s).any fun t => globImpl p t depth
  | _ :: _, [], _ => false
  | c :: p, d :: s, depth => if c ≠ d ∧ c ≠ '?' then false else globImpl p s depth

def globMatch (pattern s : Str) : Bool := globImpl pattern s 0

/-- One `**` of the budget, tried at every position. -/
theorem any_tails_iff {p s : Str} {depth : ℕ}
    (h : ∀ t, globImpl p t (depth + 1) = true ↔
      depth + 1 + Glob.crossings (Glob.parse p) ≤ kGlobDoubleStarMaxDepth ∧
        Glob.Matches '/' (Glob.parse p) t) :
    (s.tails.any fun t => globImpl p t (depth + 1)) = true ↔
      depth + Glob.crossings (.everything :: Glob.parse p) ≤ kGlobDoubleStarMaxDepth ∧
        Glob.Matches '/' (.everything :: Glob.parse p) s := by
  rw [List.any_eq_true, Glob.matches_everything, Glob.crossings]
  constructor
  · rintro ⟨t, hmem, ht⟩
    obtain ⟨hbudget, hmatch⟩ := (h t).mp ht
    exact ⟨by omega, t, hmem, hmatch⟩
  · rintro ⟨hbudget, t, hmem, hmatch⟩
    exact ⟨t, hmem, (h t).mpr ⟨by omega, hmatch⟩⟩

/-- A matcher that has spent `depth` of its budget accepts a text exactly when the budget covers the
    `**` of the pattern and the text is in the pattern's language. -/
theorem globImpl_iff {p s : Str} {depth : ℕ} (hdepth : depth ≤ kGlobDoubleStarMaxDepth) :
    globImpl p s depth = true ↔
      depth + Glob.crossings (Glob.parse p) ≤ kGlobDoubleStarMaxDepth ∧
        Glob.Matches '/' (Glob.parse p) s := by
  fun_induction globImpl p s depth with
  | case1 s depth => simp [Glob.parse, Glob.crossings, Glob.Matches, hdepth]
  | case2 p s depth hfull =>
      rw [Glob.parse, Glob.crossings]
      constructor
      · intro h
        exact absurd h (by simp)
      · rintro ⟨hbudget, _⟩
        omega
  | case3 p s depth hroom ih =>
      rw [Glob.parse]
      exact any_tails_iff fun t => ih t (by omega)
  | case4 p s depth hnext hfull =>
      rw [Glob.parse.eq_3 p hnext, Glob.crossings]
      constructor
      · intro h
        exact absurd h (by simp)
      · rintro ⟨hbudget, _⟩
        omega
  | case5 p s depth hnext hroom ih =>
      rw [Glob.parse.eq_3 p hnext]
      exact any_tails_iff fun t => ih t (by omega)
  | case6 p s depth hslash hstar ih =>
      rw [Glob.parse.eq_4 p hslash hstar, Glob.matches_segment, List.any_eq_true, Glob.crossings]
      · constructor
        · rintro ⟨t, hmem, ht⟩
          obtain ⟨hbudget, hmatch⟩ := (ih t hdepth).mp ht
          exact ⟨hbudget, t, hmem, hmatch⟩
        · rintro ⟨hbudget, t, hmem, hmatch⟩
          exact ⟨t, hmem, (ih t hdepth).mpr ⟨hbudget, hmatch⟩⟩
      · intro heq
        exact absurd heq (by simp)
  | case7 c p depth _ _ hc =>
      constructor
      · intro h
        exact absurd h (by simp)
      · rintro ⟨_, hmatch⟩
        exact absurd hmatch (Glob.not_matches_parse_cons_nil hc)
  | case8 c p d s depth _ _ hc hne =>
      rw [Glob.matches_parse_cons hc]
      constructor
      · intro h
        exact absurd h (by simp)
      · rintro ⟨_, heq, _⟩
        rcases heq with heq | heq
        · exact absurd heq hne.1
        · exact absurd heq hne.2
  | case9 c p d s depth _ _ hc hall ih =>
      rw [Glob.matches_parse_cons hc, Glob.crossings_parse_cons p hc, ih hdepth]
      have hhead : c = d ∨ c = '?' := by
        by_contra hnot
        rw [not_or] at hnot
        exact hall hnot
      exact ⟨fun h => ⟨h.1, hhead, h.2⟩, fun h => ⟨h.1, h.2.2⟩⟩

/-- **The matcher decides the glob language of patterns with at most eight `**`**, and accepts
    nothing for the others. -/
theorem globMatch_iff {pattern s : Str} :
    globMatch pattern s = true ↔
      Glob.crossings (Glob.parse pattern) ≤ kGlobDoubleStarMaxDepth ∧
        Glob.Matches '/' (Glob.parse pattern) s := by
  rw [globMatch, globImpl_iff (Nat.zero_le _), Nat.zero_add]

/-- **A pattern with at most eight `**` is matched as declared**: `*` is a run without `/`, `?` one
    character, `**` and `**/` any run, and every other character stands for itself. -/
theorem globMatch_declared {pattern : Str} (path : Str)
    (hstars : Glob.crossings (Glob.parse pattern) ≤ 8) :
    globMatch pattern path = true ↔ Glob.Matches '/' (Glob.parse pattern) path := by
  rw [globMatch_iff]
  exact and_iff_right hstars

theorem globMatch_declared_example :
    globMatch (Text.str "**/src/*.c??") (Text.str "a/b/src/main.cpp") = true ↔
      Glob.Matches '/' (Glob.parse (Text.str "**/src/*.c??")) (Text.str "a/b/src/main.cpp") :=
  globMatch_declared _ (by decide)

end CodeScope.Filter
