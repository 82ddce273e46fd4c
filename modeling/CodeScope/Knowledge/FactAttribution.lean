import CodeScope.Knowledge.EnhanceOutcome
import CodeScope.Knowledge.FactClassifiers
import CodeScope.Library.NestedRanges

/-! # The function that a fact is about

A fact about a record should be about the smallest function around the record's row, and a function
that is called from another language should get a fact for that only when no record in it shows a
foreign call. Both fail: the query for the function takes a last row of 0 for an unknown one, though
rows are counted from 0, and the facts of the first query about foreign functions are not written
when the second one looks for them. -/

namespace CodeScope.Enhance

open Text Store NestedRanges

/-! ## Where the facts come from -/

/-- A row that a fact is derived from. -/
inductive Origin where
  | record (row : RecordRow)
  | importLine (imp : ImportLine)
  | entity (e : EntityRow)

section Origins

variable {β : Type} (cl : Classifiers β) (project : ℕ)

/-- The facts of a query, each with the row that it is derived from. -/
def derived (db : Db β) : Query → List (Origin × Fact β)
  | .phase .framework => (db.graph.imports.filter (·.project = project)).filterMap fun imp =>
      (factOf project .framework (firstFunction db.graph.entities imp)
        (cl.framework imp)).map fun f => (.importLine imp, f)
  | .phase p => (recordsOf project db.records).filterMap fun row =>
      (factOf project p (enclosingFunction db.graph.entities row)
        (cl.record p db.records row)).map fun f => (.record row, f)
  | .crossLanguage => (crossLanguage project db).filterMap fun e =>
      (factOf project .ffi (some e.id) (cl.crossLanguage e)).map fun f => (.entity e, f)

/-- The facts of all queries. -/
def allDerived (graph : Graph) (records : List RecordRow) : List (Origin × Fact β) :=
  (phases.flatMap queriesOf).flatMap (derived cl project ⟨graph, records, [], [], []⟩)

end Origins

/-! ## The property -/

/-- The functions and methods of a file. -/
def fileFunctions (t : EntityTable) (project : ℕ) (filePath : Str) : List EntityRow :=
  t.rows.filter fun e => e.project = project ∧ e.filePath = filePath ∧ isFunction e

/-- The functions of every file of the project are nested or disjoint. -/
def NestedFunctions (t : EntityTable) (project : ℕ) : Prop :=
  ∀ filePath, Nested EntityRow.startRow EntityRow.endRow (fileFunctions t project filePath)

/-- The smallest function around a record. -/
def InnermostFunction (t : EntityTable) (row : RecordRow) (e : EntityRow) : Prop :=
  Innermost EntityRow.startRow EntityRow.endRow (fileFunctions t row.project row.filePath)
    row.record.startRow e

/-- The record lies in a function. -/
def InFunction (t : EntityTable) (row : RecordRow) : Prop :=
  ∃ e ∈ fileFunctions t row.project row.filePath,
    Around EntityRow.startRow EntityRow.endRow e row.record.startRow

section Property

variable {β : Type} (cl : Classifiers β) (project : ℕ)

/-- The facts of an extraction in which no statement fails, and of another one after it. -/
structure FactsBelong (db : Db β) : Prop where
  stored : (extractAll cl project noFaults db).facts.filter (·.project = project) =
    (allDerived cl project db.graph db.records).map Prod.snd
  innermost : ∀ row f, (.record row, f) ∈ allDerived cl project db.graph db.records →
    ∃ e, InnermostFunction db.graph.entities row e ∧ f.functionId = e.id
  outside : ∀ row, ¬ InFunction db.graph.entities row →
    ∀ f, (.record row, f) ∉ allDerived cl project db.graph db.records
  once : ∀ e f row g, (.entity e, f) ∈ allDerived cl project db.graph db.records →
    (.record row, g) ∈ allDerived cl project db.graph db.records → g.category = .ffi →
      f.functionId ≠ g.functionId
  again : (extractAll cl project noFaults (extractAll cl project noFaults db)).facts =
    (extractAll cl project noFaults db).facts

/-- A record that a phase has a fact about. -/
def Classified (records : List RecordRow) (row : RecordRow) : Prop :=
  ∃ p, p ≠ .framework ∧ (cl.record p records row).isSome

/-- The function is called from another language. -/
structure CalledAcross (graph : Graph) (e : EntityRow) : Prop where
  mem : e ∈ graph.entities.rows
  owned : e.project = project
  function : isFunction e = true
  language : e.language ∈ [str "rust", str "c", str "cpp", str "zig"]
  call : ∃ r ∈ graph.calls, r.project = project ∧ r.target = e.id ∧
    ∃ src ∈ graph.entities.rows, src.id = r.source ∧ src.language ≠ e.language

/-- No function ends in row 0 in a file where a classified record lies outside all functions, and
    no function that is called from another language is the smallest one around a record that shows
    a foreign call. (Ids that are not positive get no facts.) -/
structure LayoutFits (db : Db β) : Prop where
  ends_known : ∀ row ∈ recordsOf project db.records, Classified cl db.records row →
    ¬ InFunction db.graph.entities row →
      ∀ e ∈ fileFunctions db.graph.entities row.project row.filePath, 0 < e.id → e.endRow ≠ 0
  one_surface : ∀ e, CalledAcross project db.graph e → 0 < e.id → (cl.crossLanguage e).isSome →
    ∀ row ∈ recordsOf project db.records, (cl.record .ffi db.records row).isSome →
      ¬ InnermostFunction db.graph.entities row e

end Property

/-! ## The query for the function -/

section Enclosing

variable {t : EntityTable} {row : RecordRow}

theorem mem_fileFunctions {project : ℕ} {filePath : Str} {e : EntityRow} :
    e ∈ fileFunctions t project filePath ↔ e ∈ t.rows ∧ e.project = project ∧
      e.filePath = filePath ∧ isFunction e = true := by
  simp [fileFunctions]

/-- The function that the query finds begins last. -/
theorem enclosingFunction_spec {id : Int} (h : enclosingFunction t row = some id) :
    ∃ e ∈ fileFunctions t row.project row.filePath, e.id = id ∧
      Candidate EntityRow.startRow EntityRow.endRow e row.record.startRow ∧
      ∀ b ∈ fileFunctions t row.project row.filePath,
        Candidate EntityRow.startRow EntityRow.endRow b row.record.startRow →
          b.startRow ≤ e.startRow := by
  obtain ⟨e, he, hid⟩ := Option.map_eq_some_iff.mp h
  have hmem := List.mem_filter.mp (List.argmax_mem he)
  obtain ⟨hproject, hfile, hfunction, hstart, hend⟩ := of_decide_eq_true hmem.2
  refine ⟨e, mem_fileFunctions.mpr ⟨hmem.1, hproject, hfile, hfunction⟩, hid, ⟨hstart, hend⟩, ?_⟩
  intro b hb hbr
  obtain ⟨hrow, hproject', hfile', hfunction'⟩ := mem_fileFunctions.mp hb
  apply List.le_of_mem_argmax _ he
  rw [List.mem_filter]
  exact ⟨hrow, decide_eq_true ⟨hproject', hfile', hfunction', hbr.1, hbr.2⟩⟩

theorem enclosingFunction_ne_none {e : EntityRow}
    (he : e ∈ fileFunctions t row.project row.filePath)
    (her : Candidate EntityRow.startRow EntityRow.endRow e row.record.startRow) :
    enclosingFunction t row ≠ none := by
  rw [enclosingFunction, Ne, Option.map_eq_none_iff, List.argmax_eq_none, List.filter_eq_nil_iff]
  intro hnone
  obtain ⟨hrow, hproject, hfile, hfunction⟩ := mem_fileFunctions.mp he
  exact hnone e hrow (decide_eq_true ⟨hproject, hfile, hfunction, her.1, her.2⟩)

/-- **Inside a function the smallest one is found.** -/
theorem enclosingFunction_inside (h : NestedFunctions t row.project) (hin : InFunction t row) :
    ∃ e, InnermostFunction t row e ∧ enclosingFunction t row = some e.id := by
  obtain ⟨a, ha, har⟩ := hin
  obtain ⟨id, hid⟩ := Option.ne_none_iff_exists'.mp (enclosingFunction_ne_none ha har.candidate)
  obtain ⟨e, he, rfl, her, hlatest⟩ := enclosingFunction_spec hid
  exact ⟨e, innermost_of_candidate (h row.filePath) he her hlatest ⟨a, ha, har⟩, hid⟩

/-- **Outside all functions one that ends in row 0 is found.** -/
theorem enclosingFunction_outside (hout : ¬ InFunction t row) {id : Int}
    (h : enclosingFunction t row = some id) :
    ∃ e ∈ fileFunctions t row.project row.filePath, e.id = id ∧ e.endRow = 0 := by
  obtain ⟨e, he, hid, her, -⟩ := enclosingFunction_spec h
  exact ⟨e, he, hid, her.last_eq_zero fun haround => hout ⟨e, he, haround⟩⟩

end Enclosing

/-! ## What is derived -/

section Derived

variable {β : Type} {cl : Classifiers β} {project : ℕ} {db : Db β} {graph : Graph}
  {records : List RecordRow}

theorem map_derived (q : Query) : (derived cl project db q).map Prod.snd = found cl project db q := by
  have hid : ∀ (o : Option (Fact β)) (origin : Origin),
      (o.map fun f => (origin, f)).map Prod.snd = o := by
    intro o origin
    cases o <;> rfl
  cases q with
  | crossLanguage => simp only [derived, found, List.map_filterMap, hid]
  | phase p => cases p <;> simp only [derived, found, List.map_filterMap, hid]

theorem map_allDerived :
    (allDerived cl project graph records).map Prod.snd = allFacts cl project graph records := by
  rw [allDerived, allFacts, List.map_flatMap, List.flatMap_assoc]
  simp only [map_derived]
  rfl

variable {f : Fact β}

theorem mem_tagged {α : Type} {l : List α} {tag : α → Origin} {fact : α → Option (Fact β)}
    {origin : Origin} :
    (origin, f) ∈ l.filterMap (fun x => (fact x).map fun f => (tag x, f)) ↔
      ∃ x ∈ l, tag x = origin ∧ fact x = some f := by
  rw [List.mem_filterMap]
  refine exists_congr fun x => and_congr_right fun _ => ?_
  rw [Option.map_eq_some_iff]
  constructor
  · rintro ⟨g, hg, heq⟩
    rw [Prod.mk.injEq] at heq
    exact ⟨heq.1, heq.2 ▸ hg⟩
  · rintro ⟨rfl, hf⟩
    exact ⟨f, hf, rfl⟩

theorem derived_phase {p : Phase} (hp : p ≠ .framework) : derived cl project db (.phase p) =
    (recordsOf project db.records).filterMap fun row =>
      (factOf project p (enclosingFunction db.graph.entities row)
        (cl.record p db.records row)).map fun f => (.record row, f) := by
  cases p with
  | framework => exact absurd rfl hp
  | _ => rfl

/-- The facts of all queries, by what they are derived from. -/
theorem mem_allDerived {origin : Origin} :
    (origin, f) ∈ allDerived cl project graph records ↔
      (∃ imp ∈ graph.imports.filter (·.project = project), .importLine imp = origin ∧
        factOf project .framework (firstFunction graph.entities imp) (cl.framework imp) = some f) ∨
      (∃ p, p ≠ .framework ∧ ∃ row ∈ recordsOf project records, .record row = origin ∧
        factOf project p (enclosingFunction graph.entities row) (cl.record p records row) =
          some f) ∨
      ∃ e ∈ crossLanguage project (⟨graph, records, [], [], []⟩ : Db β), .entity e = origin ∧
        factOf project .ffi (some e.id) (cl.crossLanguage e) = some f := by
  rw [allDerived, List.mem_flatMap]
  constructor
  · rintro ⟨q, -, hq⟩
    cases q with
    | crossLanguage => exact Or.inr (Or.inr (mem_tagged.mp hq))
    | phase p =>
        by_cases hp : p = .framework
        · subst hp
          exact Or.inl (mem_tagged.mp hq)
        · rw [derived_phase hp] at hq
          exact Or.inr (Or.inl ⟨p, hp, mem_tagged.mp hq⟩)
  · rintro (himport | ⟨p, hp, hrecord⟩ | hentity)
    · exact ⟨.phase .framework, by decide, mem_tagged.mpr himport⟩
    · refine ⟨.phase p, by cases p <;> decide, ?_⟩
      rw [derived_phase hp]
      exact mem_tagged.mpr hrecord
    · exact ⟨.crossLanguage, by decide, mem_tagged.mpr hentity⟩

/-- **The facts about records**: one for a phase that makes something of the record and a function
    that the query finds. -/
theorem mem_record {row : RecordRow} :
    (.record row, f) ∈ allDerived cl project graph records ↔
      row ∈ recordsOf project records ∧ ∃ p, p ≠ .framework ∧
        factOf project p (enclosingFunction graph.entities row) (cl.record p records row) =
          some f := by
  rw [mem_allDerived]
  constructor
  · rintro (⟨imp, -, horigin, -⟩ | ⟨p, hp, row', hrow, horigin, hf⟩ | ⟨e, -, horigin, -⟩)
    · exact absurd horigin (by simp)
    · rw [Origin.record.injEq] at horigin
      subst horigin
      exact ⟨hrow, p, hp, hf⟩
    · exact absurd horigin (by simp)
  · rintro ⟨hrow, p, hp, hf⟩
    exact Or.inr (Or.inl ⟨p, hp, row, hrow, rfl, hf⟩)

/-- **The facts about calls from another language.** The facts of the run exclude none of them. -/
theorem mem_entity {e : EntityRow} :
    (.entity e, f) ∈ allDerived cl project graph records ↔
      CalledAcross project graph e ∧
        factOf project .ffi (some e.id) (cl.crossLanguage e) = some f := by
  have hcalled : e ∈ crossLanguage project (⟨graph, records, [], [], []⟩ : Db β) ↔
      CalledAcross project graph e := by
    rw [crossLanguage, List.mem_filter, decide_eq_true_iff]
    constructor
    · rintro ⟨hrow, hproject, hfunction, hlanguage, hcall, -⟩
      exact ⟨hrow, hproject, hfunction, hlanguage, hcall⟩
    · -- The query sees no fact of its own phase, so that its last condition always holds.
      intro h
      exact ⟨h.mem, h.owned, h.function, h.language, h.call, fun f hf => absurd hf List.not_mem_nil⟩
  rw [mem_allDerived, ← hcalled]
  constructor
  · rintro (⟨imp, -, horigin, -⟩ | ⟨p, -, row, -, horigin, -⟩ | ⟨e', he, horigin, hf⟩)
    · exact absurd horigin (by simp)
    · exact absurd horigin (by simp)
    · rw [Origin.entity.injEq] at horigin
      subst horigin
      exact ⟨he, hf⟩
  · rintro ⟨he, hf⟩
    exact Or.inr (Or.inr ⟨e, he, rfl, hf⟩)

theorem factOf_some (project : ℕ) (category : Phase) {id : Int} {body : Option β} (hid : 0 < id)
    (hbody : body.isSome) : ∃ f, factOf project category (some id) body = some f ∧
      f.functionId = id ∧ f.category = category := by
  obtain ⟨b, rfl⟩ := Option.isSome_iff_exists.mp hbody
  refine ⟨⟨project, id, category, b⟩, ?_, rfl, rfl⟩
  rw [factOf, Option.bind_some, if_pos hid]
  rfl

theorem of_factOf {category : Phase} {id : Option Int} {body : Option β}
    (h : factOf project category id body = some f) : 0 < f.functionId ∧ body.isSome := by
  obtain ⟨i, rfl, hi⟩ := Option.bind_eq_some_iff.mp h
  split at hi
  · rename_i hpos
    obtain ⟨b, rfl, rfl⟩ := Option.map_eq_some_iff.mp hi
    exact ⟨hpos, rfl⟩
  · exact absurd hi (by simp)

end Derived

/-! ## Two runs -/

section Runs

variable {β : Type} (cl : Classifiers β) (project : ℕ) (db : Db β)

theorem phaseWorks_noFaults (db : Db β) (p : Phase) : PhaseWorks cl project noFaults db p :=
  Or.inr ⟨rfl, fun _ _ => Or.inr ⟨rfl, fun _ hk => absurd hk (by simp [noFaults])⟩, rfl,
    fun _ _ => rfl⟩

/-- **A run without failures stores what is derived.** -/
theorem stored_extractAll :
    (extractAll cl project noFaults db).facts.filter (·.project = project) =
      (allDerived cl project db.graph db.records).map Prod.snd := by
  rw [facts_extractAll cl noFaults rfl fun p => phaseWorks_noFaults cl project _ p, map_allDerived]

/-- **A second run leaves the facts of the first one.** -/
theorem extractAll_again :
    (extractAll cl project noFaults (extractAll cl project noFaults db)).facts =
      (extractAll cl project noFaults db).facts := by
  have hrun : ∀ db : Db β, (extractAll cl project noFaults db).facts =
      db.facts.filter (·.project ≠ project) ++
        phases.flatMap (written cl project noFaults (bare db)) :=
    fun db => (extracted_extractAll cl noFaults rfl).1
  have hframe : Frame db (extractAll cl project noFaults db) := frame_extractAll cl noFaults
  have hnew : (phases.flatMap (written cl project noFaults (bare db))).filter
      (·.project ≠ project) = [] := by
    rw [List.filter_eq_nil_iff]
    intro f hf
    obtain ⟨p, -, hp⟩ := List.mem_flatMap.mp hf
    simp [(mem_wanted ((written_sublist p).subset hp)).1]
  rw [hrun (extractAll cl project noFaults db), hframe.bare_eq, hrun db, List.filter_append, hnew,
    List.append_nil, List.filter_filter]
  simp

end Runs

/-! ## The exact condition -/

section Exact

variable {β : Type} {cl : Classifiers β} {project : ℕ} {db : Db β}

theorem recordsOf_project {records : List RecordRow} {row : RecordRow}
    (h : row ∈ recordsOf project records) : row.project = project :=
  of_decide_eq_true (List.mem_filter.mp h).2

theorem functionId_inside (h : NestedFunctions db.graph.entities project) {row : RecordRow}
    {f : Fact β} (hf : (.record row, f) ∈ allDerived cl project db.graph db.records)
    (hin : InFunction db.graph.entities row) :
    ∃ e, InnermostFunction db.graph.entities row e ∧ f.functionId = e.id := by
  obtain ⟨hrow, p, -, hfact⟩ := mem_record.mp hf
  rw [← recordsOf_project hrow] at h
  obtain ⟨e, he, hid⟩ := enclosingFunction_inside h hin
  refine ⟨e, he, ?_⟩
  have hfound := (factOf_eq_some hfact).2.2
  rw [hid] at hfound
  exact (Option.some.inj hfound).symm

/-- **No record outside all functions gets a fact** exactly when its file has no function that ends
    in row 0. -/
theorem outside_iff (h : NestedFunctions db.graph.entities project) :
    (∀ row, ¬ InFunction db.graph.entities row →
      ∀ f, (.record row, f) ∉ allDerived cl project db.graph db.records) ↔
    ∀ row ∈ recordsOf project db.records, Classified cl db.records row →
      ¬ InFunction db.graph.entities row →
        ∀ e ∈ fileFunctions db.graph.entities row.project row.filePath, 0 < e.id →
          e.endRow ≠ 0 := by
  constructor
  · rintro hnone row hrow ⟨p, hp, hbody⟩ hout e he hpos hzero
    rw [← recordsOf_project hrow] at h
    have hcandidate := (h row.filePath).candidate_of_zero (r := row.record.startRow) he hzero
    obtain ⟨id, hid⟩ := Option.ne_none_iff_exists'.mp (enclosingFunction_ne_none he hcandidate)
    -- Both end in row 0 and so begin there: the function that is found is this one.
    obtain ⟨e', he', rfl, hzero'⟩ := enclosingFunction_outside hout hid
    have hordered := (h row.filePath).ordered e he
    have hordered' := (h row.filePath).ordered e' he'
    have heq : e' = e := (h row.filePath).distinct e' he' e he (by omega)
    subst heq
    obtain ⟨f, hf, -⟩ := factOf_some project p hpos hbody
    exact hnone row hout f (mem_record.mpr ⟨hrow, p, hp, hid ▸ hf⟩)
  · intro hends row hout f hf
    obtain ⟨hrow, p, hp, hfact⟩ := mem_record.mp hf
    obtain ⟨hpos, hbody⟩ := of_factOf hfact
    obtain ⟨e, he, hid, hzero⟩ := enclosingFunction_outside hout (factOf_eq_some hfact).2.2
    exact hends row hrow ⟨p, hp, hbody⟩ hout e he (hid ▸ hpos) hzero

/-- **A function gets one fact about its surface** exactly when none that is called from another
    language is the smallest one around a foreign call. -/
theorem once_iff (h : NestedFunctions db.graph.entities project)
    (hinside : ∀ row f, (.record row, f) ∈ allDerived cl project db.graph db.records →
      ∃ e, InnermostFunction db.graph.entities row e ∧ f.functionId = e.id) :
    (∀ e f row g, (.entity e, f) ∈ allDerived cl project db.graph db.records →
      (.record row, g) ∈ allDerived cl project db.graph db.records → g.category = .ffi →
        f.functionId ≠ g.functionId) ↔
    ∀ e, CalledAcross project db.graph e → 0 < e.id → (cl.crossLanguage e).isSome →
      ∀ row ∈ recordsOf project db.records, (cl.record .ffi db.records row).isSome →
        ¬ InnermostFunction db.graph.entities row e := by
  constructor
  · intro honce e hcalled hpos hcross row hrow hbody hinnermost
    have hnested := h
    rw [← recordsOf_project hrow] at hnested
    obtain ⟨e', he', hid⟩ := enclosingFunction_inside hnested ⟨e, hinnermost.mem, hinnermost.around⟩
    have heq : e' = e := innermost_unique (hnested row.filePath) he' hinnermost
    subst heq
    obtain ⟨f, hf, hfid, -⟩ := factOf_some project .ffi hpos hcross
    obtain ⟨g, hg, hgid, hcategory⟩ := factOf_some project .ffi hpos hbody
    have hne := honce e' f row g (mem_entity.mpr ⟨hcalled, hf⟩)
      (mem_record.mpr ⟨hrow, .ffi, by decide, hid ▸ hg⟩) hcategory
    exact hne (hfid.trans hgid.symm)
  · intro hsurface e f row g hf hg hcategory heq
    obtain ⟨hcalled, hfact⟩ := mem_entity.mp hf
    obtain ⟨hrow, p, -, hgfact⟩ := mem_record.mp hg
    have hp : p = .ffi := (factOf_eq_some hgfact).2.1.symm.trans hcategory
    subst hp
    have hfid : e.id = f.functionId := Option.some.inj (factOf_eq_some hfact).2.2
    obtain ⟨e', he', hgid⟩ := hinside row g hg
    have hmem := mem_fileFunctions.mp he'.mem
    -- Ids are unique, so that both facts are about one function.
    have hsame : e = e' := List.inj_on_of_nodup_map db.graph.entities.ids hcalled.mem hmem.1
      (hfid.trans (heq.trans hgid))
    subst hsame
    exact hsurface e hcalled (hfid ▸ (of_factOf hfact).1) (of_factOf hfact).2 row hrow
      (of_factOf hgfact).2 he'

/-- Facts about functions that are nested or disjoint, for any classification. -/
theorem factsBelong_iff (h : NestedFunctions db.graph.entities project) :
    FactsBelong cl project db ↔ LayoutFits cl project db := by
  constructor
  · intro hbelong
    exact ⟨(outside_iff h).mp hbelong.outside, (once_iff h hbelong.innermost).mp hbelong.once⟩
  · intro hfits
    have houtside := (outside_iff h).mpr hfits.ends_known
    have hinside : ∀ row f, (.record row, f) ∈ allDerived cl project db.graph db.records →
        ∃ e, InnermostFunction db.graph.entities row e ∧ f.functionId = e.id := by
      intro row f hf
      by_cases hin : InFunction db.graph.entities row
      · exact functionId_inside h hf hin
      · exact absurd hf (houtside row hin f)
    exact {
      stored := stored_extractAll cl project db
      innermost := hinside
      outside := houtside
      once := (once_iff h hinside).mpr hfits.one_surface
      again := extractAll_again cl project db }

end Exact

/-- A C++ function that calls C and is called from Rust. -/
def bindings : EntityRow :=
  ⟨60, 1, 0, str "CBindings", str "CBindings", str "/src/bindings.cpp", str "cpp", 10, 0, 20, 1, [],
    1, 0⟩

def rustCaller : EntityRow :=
  ⟨70, 1, 0, str "call_cpp", str "call_cpp", str "/src/lib.rs", str "rust", 3, 0, 5, 1, [], 1, 0⟩

def registerCall : RecordRow :=
  ⟨1, str "/src/bindings.cpp", { functionRecord (str "register_callback") 15 with
    kind := .callExpr
    qualifiedName := str "extern \"C\" register_callback"
    language := str "cpp" }⟩

def bindingsDb : Db FactBody :=
  ⟨⟨⟨[bindings, rustCaller], by decide⟩, [], [⟨1, 70, 60⟩]⟩, [registerCall], [], [], []⟩

theorem nestedFunctions_bindingsDb : NestedFunctions bindingsDb.graph.entities 1 := by
  intro filePath
  have hmem : ∀ {e : EntityRow}, e ∈ fileFunctions bindingsDb.graph.entities 1 filePath →
      (e = bindings ∧ filePath = str "/src/bindings.cpp") ∨
        (e = rustCaller ∧ filePath = str "/src/lib.rs") := by
    intro e he
    obtain ⟨hrow, -, hfile, -⟩ := mem_fileFunctions.mp he
    rcases List.mem_pair.mp hrow with rfl | rfl
    · exact Or.inl ⟨rfl, hfile.symm⟩
    · exact Or.inr ⟨rfl, hfile.symm⟩
  have hsame : ∀ a ∈ fileFunctions bindingsDb.graph.entities 1 filePath,
      ∀ b ∈ fileFunctions bindingsDb.graph.entities 1 filePath, a = b := by
    intro a ha b hb
    rcases hmem ha with ⟨rfl, hfile⟩ | ⟨rfl, hfile⟩
    · rcases hmem hb with ⟨rfl, -⟩ | ⟨-, hfile'⟩
      · rfl
      · exact absurd (hfile.symm.trans hfile') (by decide)
    · rcases hmem hb with ⟨-, hfile'⟩ | ⟨rfl, -⟩
      · exact absurd (hfile.symm.trans hfile') (by decide)
      · rfl
  refine ⟨fun a ha => ?_, fun a ha b hb _ => hsame a ha b hb, fun a ha b hb => ?_⟩
  · rcases hmem ha with ⟨rfl, -⟩ | ⟨rfl, -⟩
    · decide
    · decide
  · rw [hsame a ha b hb]
    omega

end CodeScope.Enhance
