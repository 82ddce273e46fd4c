import CodeScope.Library.SqlText
import CodeScope.Library.LimitedSearch
import Mathlib.Data.List.Infix

/-! # The stored spelling of a file

Before a file is indexed, `knownSpellingFor` looks for the spelling under which the project has it
already: first among the spellings that can be enumerated, then among the stored ones that end in
the same relative path. Both queries stop at a limit and have no ORDER BY, so the order of rows is a
parameter; so is the file system. -/

namespace CodeScope.Index.Spelling

open Text SqlText LimitedSearch

/-! ## Paths and tables -/

def isAbsolute (p : Str) : Bool := p.head? = some '/'

/-- `weakly_canonical`, empty when it fails, and `current_path`. -/
structure FileSystem where
  canon : Str → Str
  cwd : Str

/-- A row of `entity`, one for each symbol of a file, or of `parse_failures`. -/
structure PathRow where
  project : ℕ
  filePath : Str
deriving DecidableEq

structure Tables where
  entity : List PathRow
  parseFailures : List PathRow

/-- The spellings a table holds for a project, with their repetitions. -/
def spellings (table : List PathRow) (project : ℕ) : List Str :=
  (table.filter fun r => r.project = project).map PathRow.filePath

inductive Lookup where
  | entityIn
  | failuresIn
  | entityLike
  | failuresLike
deriving DecidableEq, Repr

/-- The order in which the rows of each query are delivered. -/
abbrev RowOrder := Lookup → Arrangement Str

/-! ## The enumerated spellings -/

/-- The root, with the slash that separates it from what is under it. -/
def rootPrefix (root : Str) : Str := if root.getLast? = some '/' then root else root ++ ['/']

/-- The path relative to the root, when it is under one and not empty. -/
def relativeTo (root path : Str) : Option Str :=
  if root ≠ [] ∧ root ≠ ['/'] ∧ isAbsolute path = true ∧ (rootPrefix root).isPrefixOf path ∧
      path.drop (rootPrefix root).length ≠ [] then
    some (path.drop (rootPrefix root).length)
  else none

def spellingCandidates (root path : Str) : List Str :=
  match relativeTo root path with
  | none => [path]
  | some rel =>
      let base := afterLast '/' root
      [path, rel, str "./" ++ rel] ++ if base = [] then [] else [base ++ str "/" ++ rel]

/-- `lookupStoredSpelling`: the first row that is one of the candidates. -/
def lookupStoredSpelling (order : Arrangement Str) (rows candidates : List Str) : Str :=
  (search order 1 (fun _ => true) (rows.filter (· ∈ candidates))).getD []

/-! ## The spellings with the same tail -/

def kAliasCandidateLimit : ℕ := 16

def canonicalForComparison (fs : FileSystem) (path : Str) : Str :=
  if isAbsolute path then fs.canon path else []

/-- `filesystem::path(base) / path` -/
def joinPath (base path : Str) : Str :=
  if isAbsolute path then path
  else if base.getLast? = some '/' then base ++ path
  else base ++ str "/" ++ path

def canonicalRelativeTo (fs : FileSystem) (baseDir path : Str) : Str :=
  if baseDir = [] ∨ path = [] then [] else fs.canon (joinPath baseDir path)

/-- The acceptance test of a row, exact where the LIKE was not. -/
def accepts (fs : FileSystem) (rel canonicalIncoming canonicalRoot stored : Str) : Bool :=
  let suffix := '/' :: rel
  let head := stored.take (stored.length - suffix.length)
  decide (suffix.length < stored.length) && suffix.isSuffixOf stored &&
    if isAbsolute stored then decide (canonicalForComparison fs stored = canonicalIncoming)
    else decide (fs.cwd ≠ []) && decide (canonicalRoot ≠ []) && decide (head ≠ []) &&
      decide (canonicalRelativeTo fs fs.cwd head = canonicalRoot)

def escapeLikePattern (s : Str) : Str := escapeWith '\\' ['%', '_', '\\'] s

/-- The rows that the LIKE selects. -/
def tailRows (rel : Str) (rows : List Str) : List Str :=
  rows.filter fun s => like (some '\\') (str "%/" ++ escapeLikePattern rel) s

def lookupStoredSpellingByCanonical (fs : FileSystem) (order : Arrangement Str) (rows : List Str)
    (rel canonicalIncoming canonicalRoot : Str) : Str :=
  if rel = [] ∨ canonicalIncoming = [] then []
  else
    (search order kAliasCandidateLimit (accepts fs rel canonicalIncoming canonicalRoot)
      (tailRows rel rows)).getD []

/-- `knownSpellingFor`; empty for a new file. -/
def knownSpellingFor (fs : FileSystem) (order : RowOrder) (db : Tables) (project : ℕ)
    (root path : Str) : Str :=
  if path = [] then []
  else
    let candidates := spellingCandidates root path
    let inEntity := lookupStoredSpelling (order .entityIn) (spellings db.entity project) candidates
    let inFailures :=
      lookupStoredSpelling (order .failuresIn) (spellings db.parseFailures project) candidates
    if inEntity ≠ [] then inEntity
    else if inFailures ≠ [] then inFailures
    else
      match relativeTo root path with
      | none => []
      | some rel =>
          let canon := canonicalForComparison fs path
          let canonicalRoot := canonicalForComparison fs root
          if canon = [] then []
          else
            let byEntity := lookupStoredSpellingByCanonical fs (order .entityLike)
              (spellings db.entity project) rel canon canonicalRoot
            if byEntity ≠ [] then byEntity
            else
              lookupStoredSpellingByCanonical fs (order .failuresLike)
                (spellings db.parseFailures project) rel canon canonicalRoot

/-! ## What spellings denote -/

/-- Which file an absolute path denotes, which absolute path a stored spelling was written for, and
    a canonicalisation that is idempotent and identifies the absolute paths of one file. -/
structure Denotation (F : Type) extends FileSystem where
  file : Str → F
  place : Str → Str
  canon_absolute : ∀ p, isAbsolute p → isAbsolute (canon p)
  idempotent : ∀ p, isAbsolute p → canon (canon p) = canon p
  identifies : ∀ p q, isAbsolute p → isAbsolute q → (canon p = canon q ↔ file p = file q)
  place_absolute : ∀ s, isAbsolute s → place s = s

variable {F : Type} (D : Denotation F)

/-- A stored spelling and an absolute path are the same file. -/
def Denotation.Denotes (s path : Str) : Prop := D.file (D.place s) = D.file path

/-- The name of the root directory. -/
def rootName (root : Str) : Str :=
  afterLast '/' (if root.getLast? = some '/' then root.dropLast else root)

/-- The shapes of stored spellings that are to be found: the path itself, the root-relative one with
    its `./` and `<root name>/` forms, an absolute one with the same canonical form, and a relative
    one whose head leads from the current directory to the root. -/
def Covered (fs : FileSystem) (root path s : Str) : Prop :=
  s = path ∨
    (∃ rel, root ≠ [] ∧ path = rootPrefix root ++ rel ∧ rel ≠ [] ∧
      (s = rel ∨ s = str "./" ++ rel ∨ (rootName root ≠ [] ∧ s = rootName root ++ str "/" ++ rel) ∨
        (isAbsolute s = false ∧ ∃ head, head ≠ [] ∧ s = head ++ '/' :: rel ∧
          canonicalRelativeTo fs fs.cwd head = fs.canon root))) ∨
    (isAbsolute s = true ∧ fs.canon s = fs.canon path)

/-! ## The lookups -/

theorem isAbsolute_ne_nil {p : Str} (h : isAbsolute p = true) : p ≠ [] := by
  rintro rfl
  exact absurd h (by decide)

theorem relativeTo_some {root path rel : Str} (h : relativeTo root path = some rel) :
    rel ≠ [] ∧ isAbsolute path = true := by
  rw [relativeTo] at h
  split at h
  · rename_i hunder
    obtain rfl := Option.some.inj h
    exact ⟨hunder.2.2.2.2, hunder.2.2.1⟩
  · exact absurd h (by simp)

/-- No candidate is the empty text, which stands for "not found". -/
theorem candidate_ne_nil {root path s : Str} (hpath : path ≠ [])
    (hs : s ∈ spellingCandidates root path) : s ≠ [] := by
  rw [spellingCandidates] at hs
  cases hrel : relativeTo root path with
  | none =>
      rw [hrel] at hs
      exact List.mem_singleton.mp hs ▸ hpath
  | some rel =>
      rw [hrel] at hs
      have hne := (relativeTo_some hrel).1
      simp only [List.mem_append, List.mem_cons, List.not_mem_nil, or_false] at hs
      rcases hs with (rfl | rfl | rfl) | hs
      · exact hpath
      · exact hne
      · exact List.cons_ne_nil _ _
      · split at hs
        · exact absurd hs List.not_mem_nil
        · rename_i hbase
          rw [List.mem_singleton.mp hs]
          intro hnil
          exact hbase (List.append_eq_nil_iff.mp (List.append_eq_nil_iff.mp hnil).1).1

section Lookups

variable {order : Arrangement Str} {rows candidates : List Str}

theorem lookupStoredSpelling_mem (h : lookupStoredSpelling order rows candidates ≠ []) :
    lookupStoredSpelling order rows candidates ∈ rows ∧
      lookupStoredSpelling order rows candidates ∈ candidates := by
  revert h
  rw [lookupStoredSpelling]
  cases hsearch : search order 1 (fun _ => true) (rows.filter (· ∈ candidates)) with
  | none => exact fun h => absurd rfl h
  | some s =>
      intro _
      obtain ⟨hrow, hcandidate⟩ := List.mem_filter.mp (search_some hsearch).1
      exact ⟨hrow, of_decide_eq_true hcandidate⟩

/-- The first pass finds nothing only where no candidate is stored. -/
theorem lookupStoredSpelling_eq_nil (hne : ∀ s ∈ candidates, s ≠ [])
    (h : lookupStoredSpelling order rows candidates = []) : ∀ s ∈ rows, s ∉ candidates := by
  intro s hs hcandidate
  have hstored : s ∈ rows.filter (· ∈ candidates) :=
    List.mem_filter.mpr ⟨hs, decide_eq_true hcandidate⟩
  rw [lookupStoredSpelling] at h
  cases hsearch : search order 1 (fun _ => true) (rows.filter (· ∈ candidates)) with
  | none =>
      rcases missable_of_search_none hsearch with hnone | hmany
      · exact absurd (hnone s hstored) (by simp)
      · simp at hmany
  | some t =>
      rw [hsearch] at h
      obtain ⟨-, hcandidate⟩ := List.mem_filter.mp (search_some hsearch).1
      exact hne t (of_decide_eq_true hcandidate) h

theorem lookupStoredSpelling_none (h : ∀ s ∈ rows, s ∉ candidates) :
    lookupStoredSpelling order rows candidates = [] := by
  by_contra hfound
  obtain ⟨hrow, hcandidate⟩ := lookupStoredSpelling_mem hfound
  exact h _ hrow hcandidate

theorem lookupStoredSpelling_front {s : Str} (hs : s ∈ rows) (hcandidate : s ∈ candidates) :
    lookupStoredSpelling (Arrangement.front s) rows candidates = s := by
  have hstored : s ∈ rows.filter (· ∈ candidates) :=
    List.mem_filter.mpr ⟨hs, decide_eq_true hcandidate⟩
  rw [lookupStoredSpelling, search_front Nat.one_pos hstored rfl]
  rfl

end Lookups

/-! ## The second pass -/

section SecondPass

variable (fs : FileSystem) (root path : Str)

/-- The acceptance test of the second pass for a path; nothing passes it when there is no pass. -/
def accepted (s : Str) : Bool :=
  match relativeTo root path with
  | none => false
  | some rel =>
      accepts fs rel (canonicalForComparison fs path) (canonicalForComparison fs root) s

/-- The rows the second pass looks through. -/
def sharingTail (rows : List Str) : List Str :=
  match relativeTo root path with
  | none => []
  | some rel => tailRows rel rows

/-- The second pass over one table. -/
def aliasSpelling (order : Arrangement Str) (rows : List Str) : Str :=
  (search order kAliasCandidateLimit (accepted fs root path) (sharingTail root path rows)).getD []

variable {fs root path} {order : Arrangement Str} {rows : List Str} {s : Str}

theorem accepted_tail (h : accepted fs root path s = true) :
    ∃ rel, relativeTo root path = some rel ∧ ('/' :: rel) <:+ s ∧ s ≠ [] := by
  rw [accepted] at h
  cases hrel : relativeTo root path with
  | none =>
      rw [hrel] at h
      exact absurd h (by simp)
  | some rel =>
      rw [hrel] at h
      simp only [accepts, Bool.and_eq_true, List.isSuffixOf_iff_suffix] at h
      refine ⟨rel, rfl, h.1.2, ?_⟩
      rintro rfl
      exact absurd h.1.1 (by simp)

theorem accepted_sharesTail (h : accepted fs root path s = true) (hs : s ∈ rows) :
    s ∈ sharingTail root path rows := by
  obtain ⟨rel, hrel, hsuffix, -⟩ := accepted_tail h
  have hpattern : str "%/" ++ escapeLikePattern rel =
      '%' :: escapeWith '\\' ['%', '_', '\\'] ('/' :: rel) := rfl
  rw [sharingTail, hrel]
  refine List.mem_filter.mpr ⟨hs, ?_⟩
  rw [hpattern, like_any_escapeWith]
  exact ⟨'/' :: rel, hsuffix, rfl⟩

theorem sharingTail_subset (hs : s ∈ sharingTail root path rows) : s ∈ rows := by
  rw [sharingTail] at hs
  cases hrel : relativeTo root path with
  | none =>
      rw [hrel] at hs
      exact absurd hs List.not_mem_nil
  | some rel =>
      rw [hrel] at hs
      exact (List.mem_filter.mp hs).1

theorem aliasSpelling_mem (h : aliasSpelling fs root path order rows ≠ []) :
    aliasSpelling fs root path order rows ∈ rows ∧
      accepted fs root path (aliasSpelling fs root path order rows) = true := by
  revert h
  rw [aliasSpelling]
  cases hsearch : search order kAliasCandidateLimit (accepted fs root path)
      (sharingTail root path rows) with
  | none => exact fun h => absurd rfl h
  | some t =>
      intro _
      obtain ⟨hmem, haccepted⟩ := search_some hsearch
      exact ⟨sharingTail_subset hmem, haccepted⟩

theorem missable_of_aliasSpelling (h : aliasSpelling fs root path order rows = []) :
    Missable kAliasCandidateLimit (accepted fs root path) (sharingTail root path rows) := by
  rw [aliasSpelling] at h
  cases hsearch : search order kAliasCandidateLimit (accepted fs root path)
      (sharingTail root path rows) with
  | none => exact missable_of_search_none hsearch
  | some t =>
      rw [hsearch] at h
      obtain ⟨rel, -, -, hne⟩ := accepted_tail (search_some hsearch).2
      exact absurd h hne

theorem aliasSpelling_front (hs : s ∈ rows) (h : accepted fs root path s = true) :
    aliasSpelling fs root path (Arrangement.front s) rows = s := by
  rw [aliasSpelling, search_front (by decide) (accepted_sharesTail h hs) h]
  rfl

theorem aliasSpelling_last
    (h : Missable kAliasCandidateLimit (accepted fs root path) (sharingTail root path rows)) :
    aliasSpelling fs root path (Arrangement.last (accepted fs root path)) rows = [] := by
  rw [aliasSpelling, search_last h]
  rfl

theorem lookupStoredSpellingByCanonical_eq {rel : Str} (hrel : relativeTo root path = some rel)
    (hcanon : canonicalForComparison fs path ≠ []) :
    lookupStoredSpellingByCanonical fs order rows rel (canonicalForComparison fs path)
      (canonicalForComparison fs root) = aliasSpelling fs root path order rows := by
  have haccepts : accepted fs root path =
      accepts fs rel (canonicalForComparison fs path) (canonicalForComparison fs root) := by
    funext s
    rw [accepted, hrel]
  have hne := (relativeTo_some hrel).1
  rw [lookupStoredSpellingByCanonical, if_neg (by simp [hne, hcanon]), aliasSpelling, haccepts,
    sharingTail, hrel]

end SecondPass

/-- **The four lookups, in their order.** -/
theorem knownSpellingFor_eq (D : Denotation F) (order : RowOrder) (db : Tables) (project : ℕ)
    (root : Str) {path : Str} (hpath : isAbsolute path = true) :
    knownSpellingFor D.toFileSystem order db project root path =
      [lookupStoredSpelling (order .entityIn) (spellings db.entity project)
          (spellingCandidates root path),
        lookupStoredSpelling (order .failuresIn) (spellings db.parseFailures project)
          (spellingCandidates root path),
        aliasSpelling D.toFileSystem root path (order .entityLike) (spellings db.entity project),
        aliasSpelling D.toFileSystem root path (order .failuresLike)
          (spellings db.parseFailures project)].foldr
        (fun found rest => if found ≠ [] then found else rest) [] := by
  have hcanon : canonicalForComparison D.toFileSystem path ≠ [] := by
    rw [canonicalForComparison, if_pos hpath]
    exact isAbsolute_ne_nil (D.canon_absolute path hpath)
  have hlast : ∀ s : Str, (if s ≠ [] then s else []) = s := by
    intro s
    by_cases hs : s = []
    · simp [hs]
    · rw [if_pos hs]
  rw [knownSpellingFor, if_neg (isAbsolute_ne_nil hpath)]
  simp only [List.foldr_cons, List.foldr_nil, hlast]
  cases hrel : relativeTo root path with
  | none =>
      have hnone : ∀ (o : Arrangement Str) (rows : List Str),
          aliasSpelling D.toFileSystem root path o rows = [] := by
        intro o rows
        by_contra hfound
        obtain ⟨rel, hsome, -⟩ := accepted_tail (aliasSpelling_mem hfound).2
        rw [hrel] at hsome
        exact absurd hsome (by simp)
      simp only [hnone, ne_eq, not_true_eq_false, if_false]
  | some rel =>
      simp only [if_neg hcanon, lookupStoredSpellingByCanonical_eq hrel hcanon]

/-! ## When a file keeps its spelling -/

section Correctness

variable {F : Type} (D : Denotation F) (db : Tables) (project : ℕ) (root path : Str)

/-- The spelling is stored in one of the two tables. -/
def Stored (s : Str) : Prop :=
  s ∈ spellings db.entity project ∨ s ∈ spellings db.parseFailures project

/-- One run of `knownSpellingFor` is right: what it returns is stored and denotes the path, and it
    returns something whenever a stored spelling of a covered shape denotes the path. -/
def Correct (order : RowOrder) : Prop :=
  let known := knownSpellingFor D.toFileSystem order db project root path
  (known ≠ [] → Stored db project known ∧ D.Denotes known path) ∧
    ((∃ s, Stored db project s ∧ Covered D.toFileSystem root path s ∧ D.Denotes s path) →
      known ≠ [])

/-- A candidate is among the rows. -/
def HasCandidate (rows : List Str) : Prop := ∃ s ∈ rows, s ∈ spellingCandidates root path

/-- The second pass over a table can come to nothing: no row is acceptable, or 16 rows with the same
    tail are not. -/
def PassedOver (rows : List Str) : Prop :=
  Missable kAliasCandidateLimit (accepted D.toFileSystem root path) (sharingTail root path rows)

/-- The contents of the tables for which every order of rows leads to the right answer. -/
def Resolvable : Prop :=
  let inEntity := spellings db.entity project
  let inFailures := spellings db.parseFailures project
  (HasCandidate root path inEntity →
    ∀ s ∈ inEntity, s ∈ spellingCandidates root path → D.Denotes s path) ∧
  (¬ HasCandidate root path inEntity → HasCandidate root path inFailures →
    ∀ s ∈ inFailures, s ∈ spellingCandidates root path → D.Denotes s path) ∧
  (¬ HasCandidate root path inEntity → ¬ HasCandidate root path inFailures →
    (∀ s ∈ inEntity, accepted D.toFileSystem root path s = true → D.Denotes s path) ∧
    (PassedOver D root path inEntity →
      ∀ s ∈ inFailures, accepted D.toFileSystem root path s = true → D.Denotes s path) ∧
    (PassedOver D root path inEntity → PassedOver D root path inFailures →
      ∀ s, Stored db project s → Covered D.toFileSystem root path s → ¬ D.Denotes s path))

/-- An order for each of the four queries. -/
def orders (entityIn failuresIn entityLike failuresLike : Arrangement Str) : RowOrder
  | .entityIn => entityIn
  | .failuresIn => failuresIn
  | .entityLike => entityLike
  | .failuresLike => failuresLike

variable {D db project root path}

theorem lookup_of_no_candidate {rows : List Str} (o : Arrangement Str)
    (hnone : ¬ HasCandidate root path rows) :
    lookupStoredSpelling o rows (spellingCandidates root path) = [] :=
  lookupStoredSpelling_none fun s hs hcandidate => hnone ⟨s, hs, hcandidate⟩

theorem accepted_ne_nil {fs : FileSystem} {s : Str} (hs : accepted fs root path s = true) :
    s ≠ [] := by
  obtain ⟨rel, -, -, hne⟩ := accepted_tail hs
  exact hne

/-- Every part of `Resolvable` is forced by an order that puts the row in question in front, and the
    rows that are passed over last. -/
theorem resolvable_of_correct (hpath : isAbsolute path = true)
    (h : ∀ order, Correct D db project root path order) : Resolvable D db project root path := by
  have hcandidates : ∀ s ∈ spellingCandidates root path, s ≠ [] := fun s hs =>
    candidate_ne_nil (isAbsolute_ne_nil hpath) hs
  simp only [Correct, knownSpellingFor_eq D _ db project root hpath, List.foldr_cons,
    List.foldr_nil] at h
  refine ⟨?_, ?_, ?_⟩
  · intro _ s hs hcandidate
    have hrun := h (orders (Arrangement.front s) Arrangement.stored Arrangement.stored
      Arrangement.stored)
    simp only [orders, lookupStoredSpelling_front hs hcandidate] at hrun
    rw [if_pos (hcandidates s hcandidate)] at hrun
    exact (hrun.1 (hcandidates s hcandidate)).2
  · intro hnone _ s hs hcandidate
    have hrun := h (orders Arrangement.stored (Arrangement.front s) Arrangement.stored
      Arrangement.stored)
    simp only [orders, lookup_of_no_candidate _ hnone,
      lookupStoredSpelling_front hs hcandidate, ne_eq, not_true_eq_false, if_false] at hrun
    rw [if_pos (hcandidates s hcandidate)] at hrun
    exact (hrun.1 (hcandidates s hcandidate)).2
  · intro hnone hnone'
    refine ⟨?_, ?_, ?_⟩
    · intro s hs hs'
      have hrun := h (orders Arrangement.stored Arrangement.stored (Arrangement.front s)
        Arrangement.stored)
      simp only [orders, lookup_of_no_candidate _ hnone, lookup_of_no_candidate _ hnone',
        aliasSpelling_front hs hs', ne_eq, not_true_eq_false, if_false] at hrun
      rw [if_pos (accepted_ne_nil hs')] at hrun
      exact (hrun.1 (accepted_ne_nil hs')).2
    · intro hmissed s hs hs'
      have hrun := h (orders Arrangement.stored Arrangement.stored
        (Arrangement.last (accepted D.toFileSystem root path)) (Arrangement.front s))
      simp only [orders, lookup_of_no_candidate _ hnone, lookup_of_no_candidate _ hnone',
        aliasSpelling_last hmissed, aliasSpelling_front hs hs', ne_eq, not_true_eq_false,
        if_false] at hrun
      rw [if_pos (accepted_ne_nil hs')] at hrun
      exact (hrun.1 (accepted_ne_nil hs')).2
    · intro hmissed hmissed' s hstored hcovered hdenotes
      have hrun := h (orders Arrangement.stored Arrangement.stored
        (Arrangement.last (accepted D.toFileSystem root path))
        (Arrangement.last (accepted D.toFileSystem root path)))
      simp only [orders, lookup_of_no_candidate _ hnone, lookup_of_no_candidate _ hnone',
        aliasSpelling_last hmissed, aliasSpelling_last hmissed', ne_eq, not_true_eq_false,
        if_false] at hrun
      exact hrun.2 ⟨s, hstored, hcovered, hdenotes⟩

/-- The queries come in turn, and the first that finds something decides. -/
theorem correct_of_resolvable (hpath : isAbsolute path = true)
    (h : Resolvable D db project root path) (order : RowOrder) :
    Correct D db project root path order := by
  have hcandidates : ∀ s ∈ spellingCandidates root path, s ≠ [] := fun s hs =>
    candidate_ne_nil (isAbsolute_ne_nil hpath) hs
  obtain ⟨hentity, hfailures, hsecond⟩ := h
  simp only [Correct, knownSpellingFor_eq D _ db project root hpath, List.foldr_cons,
    List.foldr_nil]
  by_cases ha : lookupStoredSpelling (order .entityIn) (spellings db.entity project)
      (spellingCandidates root path) = []
  · have hnone : ¬ HasCandidate root path (spellings db.entity project) := by
      rintro ⟨s, hs, hcandidate⟩
      exact lookupStoredSpelling_eq_nil hcandidates ha s hs hcandidate
    rw [if_neg (not_not_intro ha)]
    by_cases hb : lookupStoredSpelling (order .failuresIn)
        (spellings db.parseFailures project) (spellingCandidates root path) = []
    · have hnone' : ¬ HasCandidate root path (spellings db.parseFailures project) := by
        rintro ⟨s, hs, hcandidate⟩
        exact lookupStoredSpelling_eq_nil hcandidates hb s hs hcandidate
      obtain ⟨hacc, hacc', hmiss⟩ := hsecond hnone hnone'
      rw [if_neg (not_not_intro hb)]
      by_cases hc : aliasSpelling D.toFileSystem root path (order .entityLike)
          (spellings db.entity project) = []
      · have hmissed := missable_of_aliasSpelling hc
        rw [if_neg (not_not_intro hc)]
        by_cases hd : aliasSpelling D.toFileSystem root path (order .failuresLike)
            (spellings db.parseFailures project) = []
        · rw [if_neg (not_not_intro hd)]
          refine ⟨fun hne => absurd rfl hne, ?_⟩
          rintro ⟨s, hstored, hcovered, hdenotes⟩
          exact absurd hdenotes
            (hmiss hmissed (missable_of_aliasSpelling hd) s hstored hcovered)
        · rw [if_pos hd]
          obtain ⟨hrow, htest⟩ := aliasSpelling_mem hd
          exact ⟨fun _ => ⟨Or.inr hrow, hacc' hmissed _ hrow htest⟩, fun _ => hd⟩
      · rw [if_pos hc]
        obtain ⟨hrow, htest⟩ := aliasSpelling_mem hc
        exact ⟨fun _ => ⟨Or.inl hrow, hacc _ hrow htest⟩, fun _ => hc⟩
    · rw [if_pos hb]
      obtain ⟨hrow, hcandidate⟩ := lookupStoredSpelling_mem hb
      exact ⟨fun _ => ⟨Or.inr hrow, hfailures hnone ⟨_, hrow, hcandidate⟩ _ hrow hcandidate⟩,
        fun _ => hb⟩
  · rw [if_pos ha]
    obtain ⟨hrow, hcandidate⟩ := lookupStoredSpelling_mem ha
    exact ⟨fun _ => ⟨Or.inl hrow, hentity ⟨_, hrow, hcandidate⟩ _ hrow hcandidate⟩, fun _ => ha⟩

/-- **Whatever order the rows come in, a stored spelling of the file is found and no other, exactly
    when the contents are resolvable.** -/
theorem known_spelling_iff (hpath : isAbsolute path = true) :
    (∀ order, Correct D db project root path order) ↔ Resolvable D db project root path :=
  ⟨resolvable_of_correct hpath, correct_of_resolvable hpath⟩

end Correctness

/-! ## Two files with one spelling, one file with two -/

/-- `/alias` is a link to `/w`; relative spellings were written for paths under `/w/proj`. -/
def linkedCanon (p : Str) : Str := if p = str "/alias/proj/a.c" then str "/w/proj/a.c" else p

def linked : Denotation Str where
  canon := linkedCanon
  cwd := str "/w"
  file := linkedCanon
  place s := if isAbsolute s then s else str "/w/proj/" ++ s
  canon_absolute p hp := by
    rw [linkedCanon]
    split
    · decide
    · exact hp
  idempotent p _ := by
    by_cases hp : p = str "/alias/proj/a.c"
    · rw [hp]
      decide
    · have hsame : linkedCanon p = p := if_neg hp
      rw [hsame, hsame]
  identifies _ _ _ _ := Iff.rfl
  place_absolute _ hs := if_pos hs

/-- `proj/a.c` is stored for a file of the nested directory `/w/proj/proj`. -/
def nestedTables : Tables := ⟨[⟨1, str "proj/a.c"⟩], []⟩

/-- Sixteen symbols of `/w/proj/sub/a.c`, and one of `/w/proj/a.c` under its other name. -/
def crowdedTables : Tables :=
  ⟨List.replicate 16 ⟨1, str "/w/proj/sub/a.c"⟩ ++ [⟨1, str "/alias/proj/a.c"⟩], []⟩

theorem known_spelling_iff_crowded :
    (∀ order, Correct linked crowdedTables 1 (str "/w/proj") (str "/w/proj/a.c") order) ↔
      Resolvable linked crowdedTables 1 (str "/w/proj") (str "/w/proj/a.c") :=
  known_spelling_iff (by decide)

/-- A spelling of another file is returned, and a stored spelling of the file is not found. -/
theorem stored_spelling_missed :
    ¬ Correct linked nestedTables 1 (str "/w/proj") (str "/w/proj/a.c")
        (fun _ => Arrangement.stored) ∧
    ¬ Correct linked crowdedTables 1 (str "/w/proj") (str "/w/proj/a.c")
        (fun _ => Arrangement.stored) := by
  constructor
  · intro h
    have hknown : knownSpellingFor linked.toFileSystem (fun _ => Arrangement.stored) nestedTables 1
        (str "/w/proj") (str "/w/proj/a.c") = str "proj/a.c" := by decide +kernel
    have hdenotes := (h.1 (by rw [hknown]; decide)).2
    rw [hknown] at hdenotes
    have hother : linkedCanon (linked.place (str "proj/a.c")) ≠ linkedCanon (str "/w/proj/a.c") := by
      decide +kernel
    exact hother hdenotes
  · intro h
    have hknown : knownSpellingFor linked.toFileSystem (fun _ => Arrangement.stored) crowdedTables
        1 (str "/w/proj") (str "/w/proj/a.c") = [] := by decide +kernel
    have hstored : Stored crowdedTables 1 (str "/alias/proj/a.c") :=
      Or.inl (by decide +kernel)
    have hcovered : Covered linked.toFileSystem (str "/w/proj") (str "/w/proj/a.c")
        (str "/alias/proj/a.c") := Or.inr (Or.inr ⟨by decide, by decide⟩)
    have hsame : linkedCanon (linked.place (str "/alias/proj/a.c")) =
        linkedCanon (str "/w/proj/a.c") := by decide +kernel
    exact h.2 ⟨_, hstored, hcovered, hsame⟩ hknown

end CodeScope.Index.Spelling
