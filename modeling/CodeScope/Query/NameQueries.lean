import CodeScope.Library.SqlText
import CodeScope.Query.QueryRun

/-! # Queries by name and file

`findDefinition`, `getCallers` and `getCallees` select entities by a name and a filter on their
file. The filter is a pattern in two spellings, as it was given and resolved. The statement of
`findDefinition` has a place for each of them; that of the other two has one place, so the second
binding fails and the resolved spelling is not looked for. The patterns are not escaped. -/

namespace CodeScope.Query

open Text (Str str lower contains)
open SqlText (like like_any_plain_any like_any_of_contains)

/-! ## The patterns of a filter -/

section Patterns

variable (resolvePath : Str → Str)

/-- `util::lookupPath`: only an absolute path is resolved. -/
def lookupPath (path : Str) : Str :=
  if path.head? = some '/' then resolvePath path else path

/-- `util::lookupPatterns` -/
def lookupPatterns (path : Str) : Str × Str :=
  (str "%" ++ path ++ str "%", str "%" ++ lookupPath resolvePath path ++ str "%")

end Patterns

/-! ## The queries -/

/-- `project_id=? AND (name=? OR qualified_name=?)` -/
def isNamed (project : ℕ) (name : Str) (e : Entity) : Bool :=
  e.projectId = project && (e.name = name || e.qualifiedName = name)

section Queries

variable (E : EntityTable) (R : List Relation) (resolvePath : Str → Str) (project : ℕ)
variable (name filter : Str)

/-- The entities that the statement of `findDefinition` selects. -/
def selectDefinitions : List Entity :=
  E.rows.filter fun e => isNamed project name e && (filter.isEmpty ||
    like none (lookupPatterns resolvePath filter).1 e.filePath ||
    like none (lookupPatterns resolvePath filter).2 e.filePath)

def findDefinition : List Entity := (selectDefinitions E resolvePath project name filter).take 20

/-- `resolveIds` of `getCallers` and `getCallees`: one place for a pattern. -/
def resolveIds : List Entity :=
  E.rows.filter fun e => isNamed project name e && (filter.isEmpty ||
    like none (lookupPatterns resolvePath filter).1 e.filePath)

/-- The entities at the other ends of the CALLS relations that have one of `ids` at their own end:
    grouped by the entity and in the order of the ids. -/
def relatedEntities (own other : Relation → ℕ) (ids : List ℕ) : List Entity :=
  (E.rows.filter fun e => R.any fun r =>
    r.projectId = project && r.type = 1 && own r ∈ ids && other r = e.id).mergeSort
      fun e e' => decide (e.id ≤ e'.id)

/-- The answer of `getCallers` and `getCallees`: rows, or the candidates for an ambiguous name. -/
inductive CallAnswer where
  | listed (rows : List Entity)
  | ambiguous (candidates : List Entity)

/-- The rows of an answer. -/
def CallAnswer.rows : CallAnswer → List Entity
  | listed rows => rows
  | ambiguous _ => []

/-- `getCallers` and `getCallees`, which differ in the ends of the relation. -/
def getRelated (own other : Relation → ℕ) : CallAnswer :=
  if name.isEmpty then .listed []
  else
    let ids := resolveIds E resolvePath project name filter
    if ids.isEmpty then .listed []
    else if 1 < ids.length && filter.isEmpty then .ambiguous ids
    else .listed ((relatedEntities E R project own other (ids.map (·.id))).take 1000)

def getCallers : CallAnswer :=
  getRelated E R resolvePath project name filter Relation.targetId Relation.sourceId

def getCallees : CallAnswer :=
  getRelated E R resolvePath project name filter Relation.sourceId Relation.targetId

/-- The entities whose calls `getCallers` and `getCallees` read. -/
def selectForCalls : List Entity :=
  if name.isEmpty then [] else resolveIds E resolvePath project name filter

end Queries

/-! ## What a filter asks for -/

section Filter

variable (resolvePath : Str → Str) (project : ℕ) (name filter : Str)

/-- The path contains the filter, or its resolved form when it is absolute, as it is written up to
    the case of ASCII letters. -/
def InFile (path : Str) : Prop :=
  contains (lower filter) (lower path) = true ∨
    filter.head? = some '/' ∧ contains (lower (resolvePath filter)) (lower path) = true

instance (path : Str) : Decidable (InFile resolvePath filter path) :=
  inferInstanceAs (Decidable (_ ∨ _))

theorem inFile_iff (path : Str) :
    InFile resolvePath filter path ↔ contains (lower filter) (lower path) = true ∨
      contains (lower (lookupPath resolvePath filter)) (lower path) = true := by
  unfold InFile lookupPath
  by_cases habs : filter.head? = some '/'
  · rw [if_pos habs]
    exact or_congr_right (and_iff_right habs)
  · rw [if_neg habs, or_self]
    exact or_iff_left fun h => habs h.1

/-- The entity has the name and lies in a file that the filter asks for. -/
def AskedFor (e : Entity) : Prop :=
  isNamed project name e = true ∧ InFile resolvePath filter e.filePath

/-- The three queries select what is asked for. -/
structure ReadAlike (E : EntityTable) : Prop where
  definition : ∀ e ∈ E.rows, e ∈ selectDefinitions E resolvePath project name filter ↔
    AskedFor resolvePath project name filter e
  calls : ∀ e ∈ E.rows, e ∈ selectForCalls E resolvePath project name filter ↔
    AskedFor resolvePath project name filter e

/-- Read as patterns the two spellings match the files of the entities of that name no further than
    literally, a file in the resolved spelling matches the filter as it was given, and under the
    empty name there is nothing to find. -/
structure SpellingsMeet (E : EntityTable) : Prop where
  literal : ∀ e ∈ E.rows, isNamed project name e = true →
    like none (lookupPatterns resolvePath filter).1 e.filePath = true ∨
      like none (lookupPatterns resolvePath filter).2 e.filePath = true →
    InFile resolvePath filter e.filePath
  given : ∀ e ∈ E.rows, isNamed project name e = true →
    contains (lower (lookupPath resolvePath filter)) (lower e.filePath) = true →
    like none (lookupPatterns resolvePath filter).1 e.filePath = true
  named : name = [] → ∀ e ∈ E.rows, isNamed project name e = true →
    ¬ InFile resolvePath filter e.filePath

variable {resolvePath} {project} {name} {filter}

theorem like_of_inFile {path : Str} (h : InFile resolvePath filter path) :
    like none (lookupPatterns resolvePath filter).1 path = true ∨
      like none (lookupPatterns resolvePath filter).2 path = true :=
  ((inFile_iff resolvePath filter path).mp h).imp like_any_of_contains like_any_of_contains

theorem SpellingsMeet.of_plain {E : EntityTable} (hany : '%' ∉ filter) (hone : '_' ∉ filter)
    (hsame : lookupPath resolvePath filter = filter) (hname : name ≠ []) :
    SpellingsMeet resolvePath project name filter E where
  literal e _ _ hlike := by
    have hpatterns : (lookupPatterns resolvePath filter).2 = (lookupPatterns resolvePath filter).1 := by
      rw [lookupPatterns, hsame]
    rw [hpatterns, or_self] at hlike
    exact Or.inl ((like_any_plain_any hany hone e.filePath).mp hlike)
  given e _ _ hcontains := by
    rw [hsame] at hcontains
    exact like_any_of_contains hcontains
  named h := absurd h hname

/-! ## Selecting -/

variable {E : EntityTable}

theorem mem_selectDefinitions (hfilter : filter ≠ []) {e : Entity} :
    e ∈ selectDefinitions E resolvePath project name filter ↔
      e ∈ E.rows ∧ isNamed project name e = true ∧
        (like none (lookupPatterns resolvePath filter).1 e.filePath = true ∨
          like none (lookupPatterns resolvePath filter).2 e.filePath = true) := by
  have hempty : filter.isEmpty = false := by rw [List.isEmpty_eq_false_iff]; exact hfilter
  simp only [selectDefinitions, List.mem_filter, hempty, Bool.false_or, Bool.and_eq_true,
    Bool.or_eq_true]

theorem mem_selectForCalls (hfilter : filter ≠ []) {e : Entity} :
    e ∈ selectForCalls E resolvePath project name filter ↔
      name ≠ [] ∧ e ∈ E.rows ∧ isNamed project name e = true ∧
        like none (lookupPatterns resolvePath filter).1 e.filePath = true := by
  have hempty : filter.isEmpty = false := by rw [List.isEmpty_eq_false_iff]; exact hfilter
  unfold selectForCalls
  by_cases hname : name = []
  · rw [hname]
    simp
  · rw [if_neg (by simpa using hname)]
    simp only [resolveIds, List.mem_filter, hempty, Bool.false_or, Bool.and_eq_true]
    exact (and_iff_right hname).symm

/-- **The queries select what is asked for exactly if the spellings meet.** -/
theorem readAlike_iff (hfilter : filter ≠ []) :
    ReadAlike resolvePath project name filter E ↔
      SpellingsMeet resolvePath project name filter E := by
  constructor
  · intro h
    refine ⟨fun e he hnamed hlike => ?_, fun e he hnamed hcontains => ?_,
      fun hname e he hnamed hin => ?_⟩
    · exact ((h.definition e he).mp ((mem_selectDefinitions hfilter).mpr ⟨he, hnamed, hlike⟩)).2
    · have hasked := (h.calls e he).mpr
        ⟨hnamed, (inFile_iff resolvePath filter e.filePath).mpr (Or.inr hcontains)⟩
      exact ((mem_selectForCalls hfilter).mp hasked).2.2.2
    · have hasked := (h.calls e he).mpr ⟨hnamed, hin⟩
      exact ((mem_selectForCalls hfilter).mp hasked).1 hname
  · intro h
    refine ⟨fun e he => ?_, fun e he => ?_⟩
    · rw [mem_selectDefinitions hfilter]
      constructor
      · intro ⟨_, hnamed, hlike⟩
        exact ⟨hnamed, h.literal e he hnamed hlike⟩
      · intro ⟨hnamed, hin⟩
        exact ⟨he, hnamed, like_of_inFile hin⟩
    · rw [mem_selectForCalls hfilter]
      constructor
      · intro ⟨_, _, hnamed, hlike⟩
        exact ⟨hnamed, h.literal e he hnamed (Or.inl hlike)⟩
      · intro ⟨hnamed, hin⟩
        refine ⟨fun hname => h.named hname e he hnamed hin, he, hnamed, ?_⟩
        -- The given spelling is the only one that the statement looks for.
        rcases (inFile_iff resolvePath filter e.filePath).mp hin with hgiven | hresolved
        · exact like_any_of_contains hgiven
        · exact h.given e he hnamed hresolved

end Filter

/-! ## Callers and callees -/

section Converse

variable {E : EntityTable} {R : List Relation} {resolvePath : Str → Str} {project : ℕ}

theorem mem_relatedEntities {own other : Relation → ℕ} {ids : List ℕ} {e : Entity} :
    e ∈ relatedEntities E R project own other ids ↔
      e ∈ E.rows ∧ ∃ r ∈ R, r.projectId = project ∧ r.type = 1 ∧ own r ∈ ids ∧ other r = e.id := by
  simp only [relatedEntities, List.mem_mergeSort, List.mem_filter, List.any_eq_true,
    Bool.and_eq_true, decide_eq_true_eq, and_assoc]

/-- Exactly one entity is asked for. -/
def AskedForOnly (resolvePath : Str → Str) (project : ℕ) (name filter : Str) (E : EntityTable)
    (a : Entity) : Prop :=
  a ∈ E.rows ∧ ∀ e ∈ E.rows, AskedFor resolvePath project name filter e ↔ e = a

/-- With one entity selected the rows are those of the entities at the other ends of its calls, as
    far as the limit goes. -/
theorem mem_getRelated {own other : Relation → ℕ} {name filter : Str} {a b : Entity}
    (hfilter : filter ≠ []) (hread : ReadAlike resolvePath project name filter E)
    (hone : AskedForOnly resolvePath project name filter E a)
    (hlimit : (relatedEntities E R project own other [a.id]).length ≤ 1000) :
    b ∈ (getRelated E R resolvePath project name filter own other).rows ↔
      b ∈ E.rows ∧
        ∃ r ∈ R, r.projectId = project ∧ r.type = 1 ∧ own r = a.id ∧ other r = b.id := by
  have hselected : ∀ e, e ∈ selectForCalls E resolvePath project name filter ↔ e = a := by
    intro e
    constructor
    · intro he
      have hrow := ((mem_selectForCalls hfilter).mp he).2.1
      exact (hone.2 e hrow).mp ((hread.calls e hrow).mp he)
    · rintro rfl
      exact (hread.calls e hone.1).mpr ((hone.2 e hone.1).mpr rfl)
  have ha := (hselected a).mpr rfl
  have hname : ¬ name.isEmpty = true := by
    simpa using ((mem_selectForCalls hfilter).mp ha).1
  rw [selectForCalls, if_neg hname] at ha hselected
  have hids : ¬ (resolveIds E resolvePath project name filter).isEmpty = true := by
    simpa using List.ne_nil_of_mem ha
  have hempty : filter.isEmpty = false := by rw [List.isEmpty_eq_false_iff]; exact hfilter
  -- All that counts of the selected entities is which ids there are.
  have hrelated : relatedEntities E R project own other
      ((resolveIds E resolvePath project name filter).map (·.id)) =
        relatedEntities E R project own other [a.id] := by
    have hmem : ∀ i, i ∈ (resolveIds E resolvePath project name filter).map (·.id) ↔
        i ∈ [a.id] := by
      intro i
      rw [List.mem_map, List.mem_singleton]
      constructor
      · intro ⟨e, he, heq⟩
        rw [← heq, (hselected e).mp he]
      · rintro rfl
        exact ⟨a, ha, rfl⟩
    simp only [relatedEntities, hmem]
  rw [getRelated, if_neg hname]
  simp only [hids, hempty, Bool.and_false, Bool.false_eq_true, if_false]
  show b ∈ List.take 1000 _ ↔ _
  rw [hrelated, List.take_of_length_le hlimit, mem_relatedEntities]
  simp only [List.mem_singleton]

/-- What the three queries say of two names with their files: each pair selects what is asked for,
    and when one entity each is asked for, below the limits of the rows, the second is a callee of
    the first exactly if the first is a caller of the second. -/
structure QueriesAgree (E : EntityTable) (R : List Relation) (resolvePath : Str → Str)
    (project : ℕ) (n f m g : Str) : Prop where
  first : ReadAlike resolvePath project n f E
  second : ReadAlike resolvePath project m g E
  converse : ∀ a b, AskedForOnly resolvePath project n f E a →
    AskedForOnly resolvePath project m g E b →
    (relatedEntities E R project Relation.sourceId Relation.targetId [a.id]).length ≤ 1000 →
    (relatedEntities E R project Relation.targetId Relation.sourceId [b.id]).length ≤ 1000 →
    (b ∈ (getCallees E R resolvePath project n f).rows ↔
      a ∈ (getCallers E R resolvePath project m g).rows)

/-- **The queries agree exactly if the spellings of both filters meet.** -/
theorem queries_agree_iff (E : EntityTable) (R : List Relation) (resolvePath : Str → Str)
    (project : ℕ) (n f m g : Str) (hf : f ≠ []) (hg : g ≠ []) :
    QueriesAgree E R resolvePath project n f m g ↔
      SpellingsMeet resolvePath project n f E ∧ SpellingsMeet resolvePath project m g E := by
  constructor
  · intro h
    exact ⟨(readAlike_iff hf).mp h.first, (readAlike_iff hg).mp h.second⟩
  · intro ⟨hfirst, hsecond⟩
    have hn := (readAlike_iff hf).mpr hfirst
    have hm := (readAlike_iff hg).mpr hsecond
    refine ⟨hn, hm, fun a b ha hb hcallees hcallers => ?_⟩
    rw [getCallees, getCallers, mem_getRelated hf hn ha hcallees, mem_getRelated hg hm hb hcallers]
    constructor
    · intro ⟨_, r, hr, hproject, htype, hsource, htarget⟩
      exact ⟨ha.1, r, hr, hproject, htype, htarget, hsource⟩
    · intro ⟨_, r, hr, hproject, htype, htarget, hsource⟩
      exact ⟨hb.1, r, hr, hproject, htype, hsource, htarget⟩

/-! ## A file behind a link -/

def functionNamed (id : ℕ) (name path : String) : Entity where
  id := id
  projectId := 1
  kind := 0
  name := str name
  qualifiedName := []
  filePath := str path
  language := str "go"

def linkedTable : EntityTable where
  rows := [functionNamed 1 "main" "/real/main.go", functionNamed 2 "serve" "/real/serve.go"]
  ids_nodup := by decide

/-- `/link` is a link to `/real`. -/
def followLink (path : Str) : Str :=
  if str "/link" <+: path then str "/real" ++ path.drop 5 else path

/-- `findDefinition` finds the function behind the link, `getCallees` does not. -/
theorem linked_file_not_read :
    ¬ ∀ (E : EntityTable) (R : List Relation) (resolvePath : Str → Str) (project : ℕ)
      (n f m g : Str), f ≠ [] → g ≠ [] → QueriesAgree E R resolvePath project n f m g := by
  intro hall
  have h := (hall linkedTable [⟨1, 1, 1, 2, 1⟩] followLink 1 (str "main") (str "/link/main.go")
    (str "serve") (str "serve.go") (by decide) (by decide)).first
  have hasked := (h.calls (functionNamed 1 "main" "/real/main.go") List.mem_cons_self).mpr
    ⟨by decide, by decide⟩
  exact absurd ((mem_selectForCalls (by decide)).mp hasked).2.2.2 (by decide)

theorem plain_files_agree :
    QueriesAgree linkedTable [⟨1, 1, 1, 2, 1⟩] followLink 1 (str "main") (str "main.go")
      (str "serve") (str "/real/serve.go") :=
  (queries_agree_iff _ _ _ _ _ _ _ _ (by decide) (by decide)).mpr
    ⟨.of_plain (by decide) (by decide) (by decide) (by decide),
      .of_plain (by decide) (by decide) (by decide) (by decide)⟩

end Converse

end CodeScope.Query
