import CodeScope.Library.Fts5
import CodeScope.Library.Ranking
import CodeScope.Library.SqlText

/-! # Substring search with and without the trigram index

`searchGraphFallback` answers a query of at least three bytes from the index `name_trgm` when it has
rows, and from a scan with `LIKE` otherwise. The index holds names and qualified names and counts
characters; the scan looks at names, with the wildcards of the query blanked. -/

namespace CodeScope.Store

open Text Fts5

/-! ## The tables -/

structure NamedEntity where
  id : Int
  project : ℕ
  name : Str
  qualifiedName : Str
  filePath : Str
  kind : Int

/-- A row of `name_trgm`. -/
structure TrgmRow where
  name : Str
  qualifiedName : Str
  project : ℕ
  nodeId : Int
  nodeType : Int

/-- The row that `buildFTSFromGraph` inserts for an entity. -/
def trgmRow (e : NamedEntity) : TrgmRow where
  name := e.name
  qualifiedName := e.qualifiedName
  project := e.project
  nodeId := e.id
  nodeType := e.kind

/-- A database whose index is up to date. -/
structure SearchTables where
  entity : List NamedEntity
  nameTrgm : List TrgmRow
  ids_distinct : (entity.map NamedEntity.id).Nodup
  trgm_current : ∀ r, r ∈ nameTrgm ↔ ∃ e ∈ entity, e.name ≠ [] ∧ r = trgmRow e

/-- An order by the length of the names; rows of the same length come as the database likes. -/
structure LengthOrder where
  sort : List NamedEntity → List NamedEntity
  perm : ∀ l, (sort l).Perm l
  sorted : ∀ l, (sort l).Pairwise fun a b => a.name.length ≤ b.name.length

/-! ## The search -/

def byteLength (s : Str) : ℕ := (s.map Char.utf8Size).sum

def kMinTrigramQueryLen : ℕ := 3

def kShortQueryScanLimit : ℕ := 50

def isShort (query : Str) : Bool := byteLength query < kMinTrigramQueryLen

/-- `limit <= 0 || limit > 100` asks for the default. -/
def usedLimit (limit : Int) : ℕ := if limit ≤ 0 ∨ 100 < limit then 20 else limit.toNat

section

variable (fold : Char → Char)

/-- The tokens of the trigram tokenizer, which folds the case of every character. -/
def trgmTokens : Tokenizer := fun s => trigrams (s.map fold)

def TrgmRow.columns (r : TrgmRow) : Row :=
  [trgmTokens fold r.name, trgmTokens fold r.qualifiedName]

/-- `name_trgm MATCH ?` -/
def matchesTrgm (query : Str) (r : TrgmRow) : Bool :=
  match Fts5.read (quote query) with
  | none => false
  | some e => accepts (trgmTokens fold) (r.columns fold) e

/-- The rows of the indexed path, before its `ORDER BY` and `LIMIT`. -/
def indexedRows (db : SearchTables) (project : ℕ) (query : Str) : List NamedEntity :=
  (db.nameTrgm.filter fun r => matchesTrgm fold query r && r.project = project).flatMap fun r =>
    db.entity.filter fun e => e.id = r.nodeId

def indexedPath (order : LengthOrder) (db : SearchTables) (project : ℕ) (query : Str)
    (limit : ℕ) : List NamedEntity :=
  (order.sort (indexedRows fold db project query)).take limit

end

/-- The query with `%` and `_` replaced by spaces. -/
def likeQuery (query : Str) : Str := query.map fun c => if c = '%' ∨ c = '_' then ' ' else c

def likePattern (query : Str) : Str := str "%" ++ likeQuery query ++ str "%"

/-- The longest pattern that `LIKE` takes, in bytes; the statement fails on a longer one. -/
def kMaxLikePattern : ℕ := 50000

/-- The rows of the `LIKE` path, before its `ORDER BY` and `LIMIT`. -/
def likeRows (db : SearchTables) (project : ℕ) (query : Str) : List NamedEntity :=
  if kMaxLikePattern < byteLength (likePattern query) then []
  else db.entity.filter fun e =>
    e.project = project && SqlText.like none (likePattern query) e.name

def likePath (order : LengthOrder) (db : SearchTables) (project : ℕ) (query : Str)
    (limit : ℕ) : List NamedEntity :=
  (order.sort (likeRows db project query)).take
    (if isShort query then kShortQueryScanLimit else limit)

def isTrigramAvailable (db : SearchTables) : Bool := !db.nameTrgm.isEmpty

def searchGraphFallback (fold : Char → Char) (order : LengthOrder) (db : SearchTables)
    (project : ℕ) (query : Str) (limit : Int) : List NamedEntity :=
  if query = [] then []
  else if !isShort query && isTrigramAvailable db then
    indexedPath fold order db project query (usedLimit limit)
  else likePath order db project query (usedLimit limit)

/-! ## What each path accepts -/

/-- The query stands in the text, up to case. -/
def OccursIn (fold : Char → Char) (query text : Str) : Prop := query.map fold <:+: text.map fold

instance (fold : Char → Char) (query text : Str) : Decidable (OccursIn fold query text) :=
  inferInstanceAs (Decidable (query.map fold <:+: text.map fold))

theorem read_quote (query : Str) : Fts5.read (quote query) = some [[[[query]]]] := by
  have hlex : lex (quote query) = some [.phrase query] := by
    rw [lex, ← List.append_nil (quote query), lexFrom_quote]
    rfl
  rw [Fts5.read, hlex]
  exact @parse_chains [.phrase query] [[query]] rfl (by simp)

section

variable {fold : Char → Char} {db : SearchTables} {project : ℕ} {query : Str}

theorem matchesTrgm_iff {r : TrgmRow} :
    matchesTrgm fold query r = true ↔
      3 ≤ query.length ∧ (OccursIn fold query r.name ∨ OccursIn fold query r.qualifiedName) := by
  rw [matchesTrgm, read_quote]
  have haccepts : accepts (trgmTokens fold) (r.columns fold) [[[[query]]]] =
      acceptsChain (trgmTokens fold) (r.columns fold) [query] :=
    (accepts_chains (trgmTokens fold) (r.columns fold) [[query]]).trans (by simp)
  show accepts (trgmTokens fold) (r.columns fold) [[[[query]]]] = true ↔ _
  rw [haccepts]
  by_cases hlen : 3 ≤ query.length
  · have hfold : 3 ≤ (query.map fold).length := by rwa [List.length_map]
    have hne : trgmTokens fold query ≠ [] := trigrams_ne_nil hfold
    have hstretch : ∀ text, trgmTokens fold query <:+: trgmTokens fold text ↔
        OccursIn fold query text := fun text => trigrams_infix_iff hfold _
    rw [and_iff_right hlen]
    simp [acceptsChain, hne, matchesPhrase, TrgmRow.columns, hstretch]
  · have hnil : trgmTokens fold query = [] := trigrams_eq_nil (by
      rw [List.length_map]
      omega)
    exact iff_of_false (by simp [acceptsChain, hnil]) fun h => hlen h.1

theorem eq_of_id {e e' : NamedEntity} (he : e ∈ db.entity) (he' : e' ∈ db.entity)
    (h : e.id = e'.id) : e = e' :=
  List.inj_on_of_nodup_map db.ids_distinct he he' h

theorem mem_indexedRows {e : NamedEntity} :
    e ∈ indexedRows fold db project query ↔
      e ∈ db.entity ∧ e.project = project ∧ e.name ≠ [] ∧ 3 ≤ query.length ∧
        (OccursIn fold query e.name ∨ OccursIn fold query e.qualifiedName) := by
  simp only [indexedRows, List.mem_flatMap, List.mem_filter, Bool.and_eq_true, decide_eq_true_eq,
    matchesTrgm_iff, db.trgm_current]
  constructor
  · rintro ⟨r, ⟨⟨e', he', hname, rfl⟩, ⟨hlen, hoccurs⟩, hproject⟩, he, hid⟩
    rw [eq_of_id he he' hid]
    exact ⟨he', hproject, hname, hlen, hoccurs⟩
  · rintro ⟨he, hproject, hname, hlen, hoccurs⟩
    exact ⟨trgmRow e, ⟨⟨e, he, hname, rfl⟩, ⟨hlen, hoccurs⟩, hproject⟩, he, rfl⟩

theorem likeQuery_plain (query : Str) : '%' ∉ likeQuery query ∧ '_' ∉ likeQuery query := by
  have hmem : ∀ c ∈ likeQuery query, c ≠ '%' ∧ c ≠ '_' := by
    intro c hc
    obtain ⟨d, _, rfl⟩ := List.mem_map.mp hc
    by_cases hd : d = '%' ∨ d = '_'
    · rw [if_pos hd]
      decide
    · rw [if_neg hd]
      exact not_or.mp hd
  exact ⟨fun h => (hmem _ h).1 rfl, fun h => (hmem _ h).2 rfl⟩

/-- The scan finds the name. -/
def LikeFinds (query name : Str) : Prop :=
  byteLength (likePattern query) ≤ kMaxLikePattern ∧ OccursIn Char.toLower (likeQuery query) name

theorem mem_likeRows {e : NamedEntity} :
    e ∈ likeRows db project query ↔
      e ∈ db.entity ∧ e.project = project ∧ LikeFinds query e.name := by
  rw [likeRows, LikeFinds]
  by_cases hlong : kMaxLikePattern < byteLength (likePattern query)
  · rw [if_pos hlong]
    exact iff_of_false List.not_mem_nil fun h => absurd h.2.2.1 (Nat.not_le_of_lt hlong)
  · obtain ⟨hany, hone⟩ := likeQuery_plain query
    rw [if_neg hlong, List.mem_filter, Bool.and_eq_true, decide_eq_true_eq, likePattern,
      SqlText.like_any_plain_any hany hone, contains_iff_infix, ← likePattern,
      and_iff_right (Nat.le_of_not_lt hlong)]
    rfl

end

/-! ## What is returned -/

/-- The first of some rows, shortest names first. -/
structure ShortestFirst (rows out : List NamedEntity) : Prop where
  sorted : out.Pairwise fun a b => a.name.length ≤ b.name.length
  best : ∃ others, (out ++ others).Perm rows ∧
    ∀ a ∈ out, ∀ b ∈ others, a.name.length ≤ b.name.length

theorem shortestFirst_take (order : LengthOrder) (rows : List NamedEntity) (n : ℕ) :
    ShortestFirst rows ((order.sort rows).take n) := by
  have hsorted := order.sorted rows
  refine ⟨hsorted.sublist (List.take_sublist n _), (order.sort rows).drop n, ?_, ?_⟩
  · rw [List.take_append_drop]
    exact order.perm rows
  · rw [← List.take_append_drop n (order.sort rows), List.pairwise_append] at hsorted
    exact hsorted.2.2

/-- Each path accepts the entities of the project whose name has the query in it, and returns at
    most `limit` of them, shortest names first. -/
structure PathsAgree (fold : Char → Char) (db : SearchTables) (project : ℕ) (query : Str)
    (limit : Int) : Prop where
  indexed : ∀ e, e ∈ indexedRows fold db project query ↔
    e ∈ db.entity ∧ e.project = project ∧ OccursIn fold query e.name
  scanned : ∀ e, e ∈ likeRows db project query ↔
    e ∈ db.entity ∧ e.project = project ∧ OccursIn fold query e.name
  indexed_out : ∀ order, ShortestFirst (indexedRows fold db project query)
      (indexedPath fold order db project query (usedLimit limit)) ∧
    ((indexedPath fold order db project query (usedLimit limit)).length : Int) ≤ limit
  scanned_out : ∀ order, ShortestFirst (likeRows db project query)
      (likePath order db project query (usedLimit limit)) ∧
    ((likePath order db project query (usedLimit limit)).length : Int) ≤ limit

/-- Where the two paths meet. -/
structure PathsMeet (fold : Char → Char) (db : SearchTables) (project : ℕ) (query : Str)
    (limit : Int) : Prop where
  /-- no qualified name has the query in it where the name has not -/
  qualified : 3 ≤ query.length → ∀ e ∈ db.entity, e.project = project → e.name ≠ [] →
    OccursIn fold query e.qualifiedName → OccursIn fold query e.name
  /-- a query of fewer than three characters is in no name -/
  characters : query.length < 3 → ∀ e ∈ db.entity, e.project = project →
    ¬ OccursIn fold query e.name
  /-- blanks for wildcards, ASCII case and the longest pattern make no difference -/
  scan : ∀ e ∈ db.entity, e.project = project →
    (LikeFinds query e.name ↔ OccursIn fold query e.name)
  limit_ok : 0 < limit ∨ limit = 0 ∧ ∀ e ∈ db.entity, e.project = project →
    ¬ OccursIn fold query e.name

section

variable {fold : Char → Char} {db : SearchTables} {project : ℕ} {query : Str} {limit : Int}

theorem ne_nil_of_occursIn {text : Str} (hquery : query ≠ []) (h : OccursIn fold query text) :
    text ≠ [] := by
  rintro rfl
  exact hquery (List.map_eq_nil_iff.mp (List.infix_nil.mp h))

theorem ne_nil_of_byteLength (h : 3 ≤ byteLength query) : query ≠ [] := by
  rintro rfl
  exact absurd h (by decide)

theorem indexed_iff (hquery : query ≠ []) :
    (∀ e, e ∈ indexedRows fold db project query ↔
      e ∈ db.entity ∧ e.project = project ∧ OccursIn fold query e.name) ↔
    (3 ≤ query.length → ∀ e ∈ db.entity, e.project = project → e.name ≠ [] →
      OccursIn fold query e.qualifiedName → OccursIn fold query e.name) ∧
    (query.length < 3 → ∀ e ∈ db.entity, e.project = project → ¬ OccursIn fold query e.name) := by
  simp only [mem_indexedRows]
  constructor
  · intro h
    refine ⟨fun hlen e he hproject hname hqualified => ?_, fun hlen e he hproject hoccurs => ?_⟩
    · exact ((h e).mp ⟨he, hproject, hname, hlen, Or.inr hqualified⟩).2.2
    · have hlong := ((h e).mpr ⟨he, hproject, hoccurs⟩).2.2.2.1
      omega
  · intro ⟨hqualified, hshort⟩ e
    constructor
    · intro ⟨he, hproject, hname, hlen, hoccurs⟩
      exact ⟨he, hproject, hoccurs.elim id (hqualified hlen e he hproject hname)⟩
    · intro ⟨he, hproject, hoccurs⟩
      have hlen : 3 ≤ query.length :=
        Nat.le_of_not_lt fun hlt => hshort hlt e he hproject hoccurs
      exact ⟨he, hproject, ne_nil_of_occursIn hquery hoccurs, hlen, Or.inl hoccurs⟩

theorem scanned_iff :
    (∀ e, e ∈ likeRows db project query ↔
      e ∈ db.entity ∧ e.project = project ∧ OccursIn fold query e.name) ↔
    ∀ e ∈ db.entity, e.project = project → (LikeFinds query e.name ↔ OccursIn fold query e.name) := by
  simp only [mem_likeRows]
  constructor
  · intro h e he hproject
    have hiff := h e
    simpa [he, hproject] using hiff
  · intro h e
    refine and_congr_right fun he => and_congr_right fun hproject => h e he hproject

theorem usedLimit_le (h : 0 < limit) : (usedLimit limit : Int) ≤ limit := by
  rw [usedLimit]
  split
  · rename_i hdefault
    show (20 : Int) ≤ limit
    omega
  · omega

theorem usedLimit_pos : 0 < usedLimit limit := by
  rw [usedLimit]
  split
  · decide
  · omega

/-- The rows that are returned are at most `limit` when it is positive, or none and none. -/
theorem take_length_le_iff (order : LengthOrder) (rows : List NamedEntity) :
    (((order.sort rows).take (usedLimit limit)).length : Int) ≤ limit ↔
      0 < limit ∨ limit = 0 ∧ rows = [] := by
  have hlen : (order.sort rows).length = rows.length := (order.perm rows).length_eq
  rw [List.length_take, hlen]
  have hpos : 0 < usedLimit limit := usedLimit_pos
  constructor
  · intro h
    by_cases hlim : 0 < limit
    · exact Or.inl hlim
    · refine Or.inr ⟨by omega, List.length_eq_zero_iff.mp (by omega)⟩
  · rintro (hlim | ⟨rfl, rfl⟩)
    · have hle := usedLimit_le hlim
      omega
    · simp

/-- Rows of the same length in the order of the table. -/
def tableLengthOrder : LengthOrder where
  sort := Ranking.sorted fun e => e.name.length
  perm := Ranking.sorted_perm _
  sorted := Ranking.sorted_pairwise _

theorem isShort_of_byteLength (h : 3 ≤ byteLength query) : isShort query = false :=
  decide_eq_false (Nat.not_lt.mpr h)

/-- **The two paths agree exactly where no qualified name, no short query, no wildcard and no case
    beyond ASCII tells them apart, and a limit is given.** -/
theorem paths_agree_iff (h : 3 ≤ byteLength query) :
    PathsAgree fold db project query limit ↔ PathsMeet fold db project query limit := by
  have hquery := ne_nil_of_byteLength h
  constructor
  · intro hagree
    obtain ⟨hqualified, hcharacters⟩ := (indexed_iff hquery).mp hagree.indexed
    refine ⟨hqualified, hcharacters, scanned_iff.mp hagree.scanned, ?_⟩
    have hlimit := (hagree.indexed_out tableLengthOrder).2
    rw [indexedPath, take_length_le_iff] at hlimit
    refine hlimit.imp_right fun ⟨hzero, hnone⟩ => ⟨hzero, fun e he hproject hoccurs => ?_⟩
    have hmem := (hagree.indexed e).mpr ⟨he, hproject, hoccurs⟩
    rw [hnone] at hmem
    exact absurd hmem List.not_mem_nil
  · intro hmeet
    have hindexed : ∀ e, e ∈ indexedRows fold db project query ↔
        e ∈ db.entity ∧ e.project = project ∧ OccursIn fold query e.name :=
      (indexed_iff hquery).mpr ⟨hmeet.qualified, hmeet.characters⟩
    have hscanned := scanned_iff.mpr hmeet.scan
    have hnone : ∀ rows : List NamedEntity,
        (∀ e, e ∈ rows ↔ e ∈ db.entity ∧ e.project = project ∧ OccursIn fold query e.name) →
        0 < limit ∨ limit = 0 ∧ rows = [] := by
      intro rows hrows
      refine hmeet.limit_ok.imp_right fun ⟨hzero, hno⟩ => ⟨hzero, ?_⟩
      refine List.eq_nil_iff_forall_not_mem.mpr fun e he => ?_
      obtain ⟨hin, hproject, hoccurs⟩ := (hrows e).mp he
      exact hno e hin hproject hoccurs
    refine ⟨hindexed, hscanned, fun order => ⟨shortestFirst_take _ _ _, ?_⟩, fun order => ?_⟩
    · exact (take_length_le_iff order _).mpr (hnone _ hindexed)
    · rw [likePath, isShort_of_byteLength h]
      exact ⟨shortestFirst_take _ _ _, (take_length_le_iff order _).mpr (hnone _ hscanned)⟩

end

/-! ## An identifier with an underscore -/

/-- A project with the single entity `name`, indexed. -/
def oneEntity (name qualifiedName : Str) (h : name ≠ []) : SearchTables where
  entity := [⟨1, 1, name, qualifiedName, str "a.c", 4⟩]
  nameTrgm := [trgmRow ⟨1, 1, name, qualifiedName, str "a.c", 4⟩]
  ids_distinct := List.nodup_singleton _
  trgm_current r := by simp [h]

theorem paths_agree_iff_loggerFactory :
    PathsAgree Char.toLower (oneEntity (str "LoggerFactory") (str "LoggerFactory") (by decide)) 1
      (str "gerFa") 20 := by
  refine (paths_agree_iff (by decide)).mpr ⟨?_, ?_, ?_, Or.inl (by decide)⟩
  · intro _ e he _ _ hoccurs
    rw [List.mem_singleton.mp he] at hoccurs ⊢
    exact hoccurs
  · intro hlen
    exact absurd hlen (by decide)
  · intro e he _
    rw [List.mem_singleton.mp he]
    exact iff_of_true ⟨by decide, by decide⟩ (by decide)

/-- The index finds `get_user`, the scan looks for `get user`. -/
theorem underscore_tells_paths_apart :
    (indexedRows Char.toLower (oneEntity (str "get_user") (str "get_user") (by decide)) 1
        (str "get_user")).length = 1 ∧
      likeRows (oneEntity (str "get_user") (str "get_user") (by decide)) 1 (str "get_user") = [] ∧
      ¬ PathsAgree Char.toLower (oneEntity (str "get_user") (str "get_user") (by decide)) 1
        (str "get_user") 20 := by
  have hscan : likeRows (oneEntity (str "get_user") (str "get_user") (by decide)) 1
      (str "get_user") = [] := by decide
  refine ⟨by decide, hscan, fun h => ?_⟩
  have hmem := (h.scanned _).mpr ⟨List.mem_singleton_self _, rfl, by decide⟩
  rw [hscan] at hmem
  exact absurd hmem List.not_mem_nil

end CodeScope.Store
