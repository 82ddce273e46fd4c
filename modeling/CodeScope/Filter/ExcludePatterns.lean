import CodeScope.Filter.FilterPolicy

/-! # The exclude list between the scheduler and its workers

The scheduler escapes the patterns and joins them with commas; the worker's policy splits the value
at the commas that are not escaped, undoes the escapes and trims blanks. The list survives up to the
trimming, whatever the patterns contain. -/

namespace CodeScope.Filter

open Text (Str str)

/-! ## The scheduler's side -/

def escapeExcludePattern (pattern : Str) : Str :=
  pattern.flatMap fun ch => if ch = '\\' ∨ ch = ',' then ['\\', ch] else [ch]

def joinExcludePatterns (patterns : List Str) : Str :=
  [','].intercalate (patterns.map escapeExcludePattern)

/-! ## The worker's side -/

def isBlank (c : Char) : Bool := c = ' ' || c = '\t'

/-- `flush`: a pattern of blanks only is not trimmed, an empty one is dropped. -/
def flush (pat : Str) : List Str :=
  let pat := if pat.all isBlank then pat else Text.trim isBlank pat
  if pat = [] then [] else [pat]

/-- The loop over the value, with the pattern read so far. -/
def splitExcludes (pat : Str) : Str → List Str
  | [] => flush pat
  | '\\' :: ',' :: raw => splitExcludes (pat ++ [',']) raw
  | '\\' :: '\\' :: raw => splitExcludes (pat ++ ['\\']) raw
  | ',' :: raw => flush pat ++ splitExcludes [] raw
  | ch :: raw => splitExcludes (pat ++ [ch]) raw

/-- The patterns of the environment value; an unset or empty variable has none. -/
def excludeEnvPatterns (env : Option Str) : List Str :=
  match env with
  | none => []
  | some raw => if raw = [] then [] else splitExcludes [] raw

def FilterPolicy.loadExcludeEnv (policy : FilterPolicy) (env : Option Str) : FilterPolicy :=
  { policy with excludePatterns := policy.excludePatterns ++ excludeEnvPatterns env }

/-! ## What survives -/

theorem splitExcludes_cons {ch : Char} (pat raw : Str) (hslash : ch ≠ '\\') (hcomma : ch ≠ ',') :
    splitExcludes pat (ch :: raw) = splitExcludes (pat ++ [ch]) raw := by
  rw [splitExcludes]
  · intro raw' heq
    exact absurd heq hslash
  · intro raw' heq
    exact absurd heq hslash
  · intro heq
    exact absurd heq hcomma

/-- An escaped pattern is read back character by character. -/
theorem splitExcludes_escape (pat p raw : Str) :
    splitExcludes pat (escapeExcludePattern p ++ raw) = splitExcludes (pat ++ p) raw := by
  induction p generalizing pat with
  | nil => rw [escapeExcludePattern, List.flatMap_nil, List.nil_append, List.append_nil]
  | cons ch rest ih =>
      have hstep : splitExcludes pat (escapeExcludePattern (ch :: rest) ++ raw) =
          splitExcludes (pat ++ [ch]) (escapeExcludePattern rest ++ raw) := by
        rw [escapeExcludePattern, List.flatMap_cons, ← escapeExcludePattern, List.append_assoc]
        split_ifs with hch
        · rcases hch with rfl | rfl
          · rfl
          · rfl
        · rw [not_or] at hch
          exact splitExcludes_cons pat _ hch.1 hch.2
      rw [hstep, ih, List.append_assoc, List.singleton_append]

theorem joinExcludePatterns_cons (p : Str) {ps : List Str} (hps : ps ≠ []) :
    joinExcludePatterns (p :: ps) = escapeExcludePattern p ++ ',' :: joinExcludePatterns ps := by
  cases ps with
  | nil => exact absurd rfl hps
  | cons q qs => rfl

/-- **A joined list followed by more is read back as the list, trimmed, and what follows.** -/
theorem splitExcludes_join_append {ps : List Str} (hps : ps ≠ []) (raw : Str) :
    splitExcludes [] (joinExcludePatterns ps ++ ',' :: raw) =
      ps.flatMap flush ++ splitExcludes [] raw := by
  induction ps with
  | nil => exact absurd rfl hps
  | cons p rest ih =>
      by_cases hrest : rest = []
      · subst hrest
        have hjoin : joinExcludePatterns [p] = escapeExcludePattern p := by
          simp [joinExcludePatterns]
        rw [hjoin, splitExcludes_escape, List.nil_append, splitExcludes, List.flatMap_singleton]
      · rw [joinExcludePatterns_cons p hrest, List.append_assoc, splitExcludes_escape,
          List.nil_append, List.cons_append, splitExcludes, ih hrest, List.flatMap_cons,
          List.append_assoc]

theorem splitExcludes_join (ps : List Str) :
    splitExcludes [] (joinExcludePatterns ps) = ps.flatMap flush := by
  induction ps with
  | nil => rfl
  | cons p rest ih =>
      by_cases hrest : rest = []
      · subst hrest
        have hjoin : joinExcludePatterns [p] = escapeExcludePattern p ++ [] := by
          simp [joinExcludePatterns]
        rw [hjoin, splitExcludes_escape, List.nil_append, splitExcludes, List.flatMap_singleton]
      · rw [joinExcludePatterns_cons p hrest, splitExcludes_escape, List.nil_append,
          splitExcludes, ih, List.flatMap_cons]

/-- **Decoding what the scheduler joined gives the patterns back, trimmed.** -/
theorem excludeEnvPatterns_join (ps : List Str) :
    excludeEnvPatterns (some (joinExcludePatterns ps)) = ps.flatMap flush := by
  rw [excludeEnvPatterns]
  split_ifs with hempty
  · rw [← splitExcludes_join ps, hempty]
    rfl
  · exact splitExcludes_join ps

/-! ## The round trip -/

/-- A pattern that is not empty and has no blank at either end. -/
structure Trimmed (p : Str) : Prop where
  nonempty : p ≠ []
  front : p.head?.any isBlank = false
  back : p.getLast?.any isBlank = false

theorem Trimmed.flush_eq {p : Str} (h : Trimmed p) : flush p = [p] := by
  have hall : p.all isBlank = false := by
    cases p with
    | nil => exact absurd rfl h.nonempty
    | cons c rest =>
        have hfront : isBlank c = false := h.front
        rw [List.all_cons, hfront, Bool.false_and]
  have htrim : (if p.all isBlank then p else Text.trim isBlank p) = p := by
    rw [hall, if_neg (by simp), Text.trim_eq_self h.front h.back]
  rw [flush, htrim, if_neg h.nonempty]

theorem flatMap_flush_eq {ps : List Str} (h : ∀ p ∈ ps, Trimmed p) : ps.flatMap flush = ps := by
  induction ps with
  | nil => rfl
  | cons p rest ih =>
      have htail : ∀ q ∈ rest, Trimmed q := fun q hq => h q (List.mem_cons_of_mem p hq)
      rw [List.flatMap_cons, (h p List.mem_cons_self).flush_eq, ih htail, List.singleton_append]

theorem excludeEnvPatterns_join_join (a b : List Str) :
    excludeEnvPatterns (some (joinExcludePatterns a ++ ',' :: joinExcludePatterns b)) =
      a.flatMap flush ++ b.flatMap flush := by
  have hsplit : splitExcludes [] (joinExcludePatterns a ++ ',' :: joinExcludePatterns b) =
      a.flatMap flush ++ b.flatMap flush := by
    by_cases ha : a = []
    · subst ha
      have hfirst : splitExcludes [] (',' :: joinExcludePatterns b) =
          flush [] ++ splitExcludes [] (joinExcludePatterns b) := by rw [splitExcludes]
      rw [← splitExcludes_join b]
      exact hfirst
    · rw [splitExcludes_join_append ha, splitExcludes_join]
  rw [excludeEnvPatterns, if_neg (by simp), hsplit]

/-- **The exclude list survives the process boundary**: the worker reads back the list the scheduler
    joined, and two joined lists with a comma between them as the one followed by the other. An
    environment value holds no NUL, so every value that reaches the worker is a text of the model. -/
theorem exclude_list_round_trip {a b : List Str} (ha : ∀ p ∈ a, Trimmed p)
    (hb : ∀ p ∈ b, Trimmed p) :
    excludeEnvPatterns (some (joinExcludePatterns a)) = a ∧
      excludeEnvPatterns (some (joinExcludePatterns a ++ ',' :: joinExcludePatterns b)) =
        a ++ b := by
  constructor
  · rw [excludeEnvPatterns_join, flatMap_flush_eq ha]
  · rw [excludeEnvPatterns_join_join, flatMap_flush_eq ha, flatMap_flush_eq hb]

/-- A comma, escapes of escapes and a trailing backslash come back. -/
theorem exclude_list_round_trip_escapes :
    let a := [str "a,b/**", str "c\\,\\"]
    let b := [str "d e"]
    excludeEnvPatterns (some (joinExcludePatterns a)) = a ∧
      excludeEnvPatterns (some (joinExcludePatterns a ++ ',' :: joinExcludePatterns b)) =
        a ++ b := by
  apply exclude_list_round_trip
  · intro p hp
    rcases List.mem_cons.mp hp with rfl | hp
    · exact ⟨by decide, by decide, by decide⟩
    · rw [List.mem_singleton.mp hp]
      exact ⟨by decide, by decide, by decide⟩
  · intro p hp
    rw [List.mem_singleton.mp hp]
    exact ⟨by decide, by decide, by decide⟩

end CodeScope.Filter
