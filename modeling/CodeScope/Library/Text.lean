import Mathlib

/-! # Text by its separators

Texts are lists of characters. `splitLast` cuts a text at the last occurrence of a separator, which
is how directories, base names and extensions are read off a path; `segments` cuts it at every
occurrence. -/

namespace Text

abbrev Str := List Char

instance : LawfulBEq Str := inferInstance

/-- The text of a literal. -/
abbrev str (s : String) : Str := s.toList

theorem str_eq {s : String} {l : Str} (h : s = String.ofList l) : str s = l := by
  subst h
  exact String.toList_ofList

/-- A table with its literals taken apart, which takes long while something is evaluated. -/
abbrev Spelt {α : Type} (table : List α) := { l : List α // table = l }

/-- `tolower` of the C locale, throughout. -/
def lower (s : Str) : Str := s.map Char.toLower

/-- What precedes and what follows the last `sep`, when there is one. -/
def splitLast (sep : Char) : List Char → Option (List Char × List Char)
  | [] => none
  | c :: rest =>
    match splitLast sep rest with
    | some (before, after) => some (c :: before, after)
    | none => if c = sep then some ([], rest) else none

/-- The text up to the last `sep`; empty when there is none. -/
def beforeLast (sep : Char) (s : List Char) : List Char :=
  match splitLast sep s with
  | some (before, _) => before
  | none => []

/-- The text after the last `sep`; all of it when there is none. -/
def afterLast (sep : Char) (s : List Char) : List Char :=
  match splitLast sep s with
  | some (_, after) => after
  | none => s

/-- `sub` occurs somewhere in `s`. -/
def contains (sub s : List Char) : Bool :=
  s.tails.any fun t => sub.isPrefixOf t

/-- The pieces between the separators; a text without a separator is one piece. -/
def segments (sep : Char) : List Char → List (List Char)
  | [] => [[]]
  | c :: rest =>
    if c = sep then [] :: segments sep rest
    else
      match segments sep rest with
      | [] => [[c]]
      | seg :: segs => (c :: seg) :: segs

/-- Drop the characters at both ends that satisfy `p`. -/
def trim (p : Char → Bool) (s : List Char) : List Char :=
  ((s.dropWhile p).reverse.dropWhile p).reverse

variable {s : List Char} {sep : Char}

theorem trim_eq_self {p : Char → Bool} (hfront : s.head?.any p = false)
    (hback : s.getLast?.any p = false) : trim p s = s := by
  have hkeep : ∀ {l : List Char}, l.head?.any p = false → l.dropWhile p = l := by
    intro l hl
    cases l with
    | nil => rfl
    | cons c rest =>
        have hc : p c = false := hl
        rw [List.dropWhile_cons_of_neg (by simp [hc])]
  have hreverse : s.reverse.dropWhile p = s.reverse := by
    apply hkeep
    rw [List.head?_reverse]
    exact hback
  rw [trim, hkeep hfront, hreverse, List.reverse_reverse]

theorem splitLast_none : splitLast sep s = none ↔ sep ∉ s := by
  induction s with
  | nil => simp [splitLast]
  | cons c rest ih =>
      rw [splitLast]
      split
      · rename_i before after hrest
        have hmem : sep ∈ rest := by
          by_contra hnot
          rw [ih.mpr hnot] at hrest
          exact absurd hrest (by simp)
        simp [hmem]
      · rename_i hrest
        have hnot := ih.mp hrest
        by_cases hc : c = sep
        · simp [hc]
        · simp [hc, hnot, Ne.symm hc]

theorem splitLast_some {before after : List Char} :
    splitLast sep s = some (before, after) ↔ s = before ++ sep :: after ∧ sep ∉ after := by
  induction s generalizing before after with
  | nil => simp [splitLast]
  | cons c rest ih =>
      rw [splitLast]
      split
      · rename_i before' after' hrest
        have hspec : rest = before' ++ sep :: after' ∧ sep ∉ after' := ih.mp hrest
        constructor
        · intro heq
          simp only [Option.some.injEq, Prod.mk.injEq] at heq
          obtain ⟨rfl, rfl⟩ := heq
          obtain ⟨hshape, hnot⟩ := hspec
          exact ⟨by rw [hshape]; rfl, hnot⟩
        · intro ⟨hshape, hnot⟩
          cases before with
          | nil =>
              have htail : rest = after := by simpa using (List.cons.inj hshape).2
              rw [htail, splitLast_none.mpr hnot] at hrest
              exact absurd hrest (by simp)
          | cons d before'' =>
              obtain ⟨hhead, htail⟩ := List.cons.inj hshape
              have hsplit := ih.mpr ⟨htail, hnot⟩
              rw [hsplit] at hrest
              simp only [Option.some.injEq, Prod.mk.injEq] at hrest
              obtain ⟨rfl, rfl⟩ := hrest
              rw [hhead]
      · rename_i hrest
        have hnone := splitLast_none.mp hrest
        constructor
        · intro heq
          split at heq
          · rename_i hc
            simp only [Option.some.injEq, Prod.mk.injEq] at heq
            obtain ⟨rfl, rfl⟩ := heq
            exact ⟨by rw [hc]; rfl, hnone⟩
          · exact absurd heq (by simp)
        · intro ⟨hshape, _⟩
          cases before with
          | nil =>
              obtain ⟨hhead, htail⟩ := List.cons.inj hshape
              rw [if_pos hhead, htail]
          | cons d before' =>
              have htail := (List.cons.inj hshape).2
              exact absurd (by rw [htail]; simp) hnone

theorem splitLast_append_sep {a b before after : List Char}
    (h : splitLast sep b = some (before, after)) :
    splitLast sep (a ++ sep :: b) = some (a ++ sep :: before, after) := by
  obtain ⟨hshape, hnot⟩ := splitLast_some.mp h
  exact splitLast_some.mpr ⟨by rw [hshape, List.append_assoc, List.cons_append], hnot⟩

theorem afterLast_append_sep (sep : Char) (a b : List Char) :
    afterLast sep (a ++ sep :: b) = afterLast sep b := by
  rw [afterLast, afterLast]
  cases hb : splitLast sep b with
  | none => rw [splitLast_some.mpr ⟨rfl, splitLast_none.mp hb⟩]
  | some cut => rw [splitLast_append_sep hb]

/-- No piece contains the separator. -/
theorem not_mem_of_mem_segments {seg : List Char} (h : seg ∈ segments sep s) : sep ∉ seg := by
  induction s generalizing seg with
  | nil => simp_all [segments]
  | cons c rest ih =>
      rw [segments] at h
      split at h
      · rcases List.mem_cons.mp h with rfl | hrest
        · simp
        · exact ih hrest
      · rename_i hc
        split at h
        · rw [List.mem_singleton.mp h]
          simp [Ne.symm hc]
        · rename_i first others hsegs
          rcases List.mem_cons.mp h with rfl | hrest
          · have hfirst : sep ∉ first := ih (by rw [hsegs]; simp)
            simp [Ne.symm hc, hfirst]
          · exact ih (by rw [hsegs]; exact List.mem_cons_of_mem _ hrest)

theorem segments_ne_nil (sep : Char) (s : List Char) : segments sep s ≠ [] := by
  cases s with
  | nil => simp [segments]
  | cons c rest =>
      rw [segments]
      split
      · simp
      · split
        · simp
        · simp

theorem segments_append_sep (sep : Char) (a b : List Char) :
    segments sep (a ++ sep :: b) = segments sep a ++ segments sep b := by
  induction a with
  | nil => simp [segments]
  | cons c rest ih =>
      rw [List.cons_append, segments, segments, ih]
      split
      · rfl
      · cases hsegs : segments sep rest with
        | nil => exact absurd hsegs (segments_ne_nil sep rest)
        | cons first others => rfl

/-- The pieces with the separator between them are the text. -/
theorem intercalate_segments (sep : Char) (s : List Char) :
    [sep].intercalate (segments sep s) = s := by
  induction s with
  | nil => rfl
  | cons c rest ih =>
      rw [segments]
      cases hsegs : segments sep rest with
      | nil => exact absurd hsegs (segments_ne_nil sep rest)
      | cons first others =>
          rw [hsegs] at ih
          split
          · rename_i hc
            rw [hc, List.intercalate_cons_cons, ih]
            rfl
          · cases others with
            | nil => rw [← ih]; rfl
            | cons second more => rw [← ih]; rfl

/-- Pieces without the separator are read back from the text they are joined to. -/
theorem segments_intercalate {pieces : List (List Char)} (hne : pieces ≠ [])
    (h : ∀ piece ∈ pieces, sep ∉ piece) : segments sep ([sep].intercalate pieces) = pieces := by
  have hone : ∀ {s : List Char}, sep ∉ s → segments sep s = [s] := by
    intro s hs
    induction s with
    | nil => rfl
    | cons c rest ih =>
        rw [List.mem_cons, not_or] at hs
        rw [segments, if_neg (Ne.symm hs.1), ih hs.2]
  induction pieces with
  | nil => exact absurd rfl hne
  | cons first others ih =>
      have hfirst := h first List.mem_cons_self
      cases others with
      | nil => rw [List.intercalate_singleton, hone hfirst]
      | cons second more =>
          rw [List.intercalate_cons_cons, List.append_assoc, List.singleton_append,
            segments_append_sep, hone hfirst,
            ih (by simp) fun piece hp => h piece (List.mem_cons_of_mem _ hp)]
          rfl

@[simp] theorem contains_nil (s : List Char) : contains [] s = true := by
  cases s <;> simp [contains]

theorem contains_iff_infix {sub : List Char} : contains sub s = true ↔ sub <:+: s := by
  rw [contains, List.any_eq_true, List.infix_iff_prefix_suffix]
  simp only [List.mem_tails, List.isPrefixOf_iff_prefix]
  exact exists_congr fun t => and_comm

end Text
