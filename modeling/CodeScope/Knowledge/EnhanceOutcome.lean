import CodeScope.Knowledge.EnhanceProject
import Mathlib.Data.List.Perm.Basic

/-! # What an enhancement that answers `ok:true` leaves

Every step of the run should have taken effect, and the semantic facts should be those of the tables
as they are at the end. The facts are extracted before the graph is rebuilt. -/

namespace CodeScope.Enhance

open Text Connection Store

variable {β : Type} (cl : Classifiers β) (project : ℕ) (faults : Faults)

/-! ## The extraction -/

/-- The facts that the extraction finds in a graph and in records. -/
def allFacts (graph : Graph) (records : List RecordRow) : List (Fact β) :=
  phases.flatMap (wanted cl project ⟨graph, records, [], [], []⟩)

/-- A query loses no fact. -/
def Delivers (db : Db β) (q : Query) : Prop :=
  found cl project db q = [] ∨
    faults.query q = false ∧ ∀ k, faults.scan q = some k → (found cl project db q).length ≤ k

/-- A phase loses no fact. -/
def PhaseWorks (db : Db β) (p : Phase) : Prop :=
  wanted cl project db p = [] ∨
    (faults.query (.phase p) = false ∧ (∀ q ∈ queriesOf p, Delivers cl project faults db q) ∧
      faults.prepareInsert p = false ∧
      ∀ k < (wanted cl project db p).length, faults.insert p k = false)

section Phase

variable {cl project faults} {db : Db β}

theorem scanned_sublist (q : Query) :
    (scanned cl project faults db q).Sublist (found cl project db q) := by
  rw [scanned]
  split
  · exact List.Sublist.refl _
  · exact List.take_sublist _ _

theorem delivered_sublist (queries : List Query) :
    ((queries.filter fun q => !faults.query q).flatMap (scanned cl project faults db)).Sublist
      (queries.flatMap (found cl project db)) := by
  induction queries with
  | nil => exact List.Sublist.refl _
  | cons q rest ih =>
      rw [List.filter_cons, List.flatMap_cons]
      split
      · rw [List.flatMap_cons]
        exact (scanned_sublist q).append ih
      · exact ih.trans (List.sublist_append_right _ _)

theorem collected_sublist (p : Phase) :
    (collected cl project faults db p).Sublist (wanted cl project db p) := by
  rw [collected]
  split
  · exact List.nil_sublist _
  · exact delivered_sublist (queriesOf p)

theorem insertSemanticFacts_sublist (p : Phase) (facts : List (Fact β)) :
    (insertSemanticFacts faults p facts).Sublist facts := by
  rw [insertSemanticFacts]
  split
  · exact List.nil_sublist _
  · have hall : (facts.zipIdx.map Prod.fst).Sublist facts := by
      rw [List.zipIdx_map_fst]
    exact (List.filter_sublist.map Prod.fst).trans hall

theorem written_sublist (p : Phase) :
    (written cl project faults db p).Sublist (wanted cl project db p) :=
  (insertSemanticFacts_sublist p _).trans (collected_sublist p)

/-- The INSERTs lose no row exactly when none of them fails. -/
theorem insertSemanticFacts_complete_iff (p : Phase) (facts : List (Fact β)) :
    (insertSemanticFacts faults p facts).length = facts.length ↔
      facts = [] ∨ faults.prepareInsert p = false ∧ ∀ k < facts.length, faults.insert p k = false := by
  rw [insertSemanticFacts]
  split
  · rename_i hprepare
    rw [List.length_nil, eq_comm, List.length_eq_zero_iff, hprepare]
    simp
  · rename_i hprepare
    rw [List.length_map, ← List.length_zipIdx (l := facts) (i := 0),
      List.length_filter_eq_length_iff]
    constructor
    · intro hall
      refine Or.inr ⟨by simpa using hprepare, fun k hk => ?_⟩
      rw [List.length_zipIdx] at hk
      have hmem : (facts[k], k) ∈ facts.zipIdx := by
        rw [List.mk_mem_zipIdx_iff_getElem?]
        exact List.getElem?_eq_getElem hk
      simpa using hall _ hmem
    · rintro (rfl | ⟨_, hworks⟩)
      · simp
      · rintro ⟨fact, k⟩ hmem
        have hk := List.snd_lt_of_mem_zipIdx hmem
        rw [List.length_zipIdx] at hworks
        simpa using hworks k (by simpa using hk)

/-- A query that is not passed over delivers everything. -/
theorem delivers_iff (q : Query) (hworks : faults.query q = false) :
    (scanned cl project faults db q).length = (found cl project db q).length ↔
      Delivers cl project faults db q := by
  rw [scanned, Delivers]
  cases hscan : faults.scan q with
  | none =>
      refine iff_of_true rfl (Or.inr ⟨hworks, fun k hk => absurd hk (by simp)⟩)
  | some k =>
      dsimp only
      rw [List.length_take, min_eq_right_iff]
      constructor
      · exact fun h => Or.inr ⟨hworks, fun j hj => by rwa [← Option.some.inj hj]⟩
      · rintro (hnone | ⟨_, hlong⟩)
        · rw [hnone]
          exact Nat.zero_le _
        · exact hlong k rfl

theorem delivered_complete_iff (queries : List Query) :
    ((queries.filter fun q => !faults.query q).flatMap (scanned cl project faults db)).length =
        (queries.flatMap (found cl project db)).length ↔
      ∀ q ∈ queries, Delivers cl project faults db q := by
  induction queries with
  | nil => simp
  | cons q rest ih =>
      have hrest : ((rest.filter fun q => !faults.query q).flatMap
          (scanned cl project faults db)).length ≤ (rest.flatMap (found cl project db)).length :=
        (delivered_sublist rest).length_le
      have hq : (scanned cl project faults db q).length ≤ (found cl project db q).length :=
        (scanned_sublist q).length_le
      rw [List.forall_mem_cons, ← ih, List.filter_cons, List.flatMap_cons, List.length_append]
      cases hquery : faults.query q with
      | false =>
          rw [Bool.not_false, if_pos rfl, List.flatMap_cons, List.length_append,
            ← delivers_iff q hquery]
          omega
      | true =>
          rw [Bool.not_true, if_neg Bool.false_ne_true, Delivers, hquery, ← List.length_eq_zero_iff]
          simp only [Bool.true_eq_false, false_and, or_false]
          omega

/-- **A phase writes all of its facts exactly when it works.** -/
theorem written_complete_iff (p : Phase) :
    (written cl project faults db p).length = (wanted cl project db p).length ↔
      PhaseWorks cl project faults db p := by
  have hcollected : (collected cl project faults db p).length ≤ (wanted cl project db p).length :=
    (collected_sublist p).length_le
  have hwritten : (written cl project faults db p).length ≤
      (collected cl project faults db p).length :=
    (insertSemanticFacts_sublist p _).length_le
  have hsplit : (written cl project faults db p).length = (wanted cl project db p).length ↔
      (collected cl project faults db p).length = (wanted cl project db p).length ∧
        (written cl project faults db p).length = (collected cl project faults db p).length := by
    omega
  rw [hsplit, written, insertSemanticFacts_complete_iff, PhaseWorks, ← List.length_eq_zero_iff,
    ← List.length_eq_zero_iff, collected]
  cases hquery : faults.query (.phase p) with
  | true =>
      simp only [if_true, List.length_nil, true_or, and_true, Bool.true_eq_false, false_and,
        or_false]
      exact eq_comm
  | false =>
      simp only [Bool.false_eq_true, if_false, true_and]
      rw [← delivered_complete_iff (queriesOf p), wanted]
      constructor
      · rintro ⟨hall, hnone | hinsert⟩
        · exact Or.inl (hall.symm.trans hnone)
        · exact Or.inr ⟨hall, hinsert.1, by rw [← hall]; exact hinsert.2⟩
      · rintro (hnone | ⟨hall, hprepare, hinsert⟩)
        · have hempty : (((queriesOf p).filter fun q => !faults.query q).flatMap
              (scanned cl project faults db)).length ≤
                ((queriesOf p).flatMap (found cl project db)).length :=
            (delivered_sublist (queriesOf p)).length_le
          have hzero := Nat.le_zero.mp (hempty.trans hnone.le)
          exact ⟨hzero.trans hnone.symm, Or.inl hzero⟩
        · exact ⟨hall, Or.inr ⟨hprepare, by rw [hall]; exact hinsert⟩⟩

theorem written_eq (p : Phase) (h : PhaseWorks cl project faults db p) :
    written cl project faults db p = wanted cl project db p :=
  (written_sublist p).eq_of_length ((written_complete_iff p).mpr h)

end Phase

/-! ## All phases -/

/-- What the extraction reads of a database without facts. -/
def bare (db : Db β) : Db β := ⟨db.graph, db.records, [], [], []⟩

/-- No fact of the last phase is there. -/
def Unclaimed (db : Db β) : Prop :=
  ∀ f ∈ db.facts, f.project = project → f.category ≠ .ffi

section Extract

variable {cl project faults} {db : Db β}

theorem factOf_eq_some {category : Phase} {functionId : Option Int} {body : Option β} {f : Fact β}
    (h : factOf project category functionId body = some f) :
    f.project = project ∧ f.category = category ∧ functionId = some f.functionId := by
  obtain ⟨id, rfl, hid⟩ := Option.bind_eq_some_iff.mp h
  split at hid
  · obtain ⟨b, _, rfl⟩ := Option.map_eq_some_iff.mp hid
    exact ⟨rfl, rfl, rfl⟩
  · exact absurd hid (by simp)

/-- The phase of a query. -/
def Query.category : Query → Phase
  | .phase p => p
  | .crossLanguage => .ffi

theorem mem_found {q : Query} {f : Fact β} (h : f ∈ found cl project db q) :
    f.project = project ∧ f.category = q.category := by
  cases q with
  | crossLanguage =>
      obtain ⟨e, _, he⟩ := List.mem_filterMap.mp h
      exact ⟨(factOf_eq_some he).1, (factOf_eq_some he).2.1⟩
  | phase p =>
      cases p with
      | framework =>
          obtain ⟨imp, _, himp⟩ := List.mem_filterMap.mp h
          exact ⟨(factOf_eq_some himp).1, (factOf_eq_some himp).2.1⟩
      | _ =>
          obtain ⟨row, _, hrow⟩ := List.mem_filterMap.mp h
          exact ⟨(factOf_eq_some hrow).1, (factOf_eq_some hrow).2.1⟩

theorem mem_wanted {p : Phase} {f : Fact β} (h : f ∈ wanted cl project db p) :
    f.project = project ∧ f.category = p := by
  obtain ⟨q, hq, hf⟩ := List.mem_flatMap.mp h
  have hcategory : q.category = p := by
    cases p with
    | ffi =>
        rcases List.mem_pair.mp hq with rfl | rfl
        · rfl
        · rfl
    | _ =>
        rw [List.mem_singleton.mp hq]
        rfl
  exact ⟨(mem_found hf).1, (mem_found hf).2.trans hcategory⟩

theorem found_bare (h : Unclaimed project db) : found cl project db = found cl project (bare db) := by
  have hcross : crossLanguage project db = crossLanguage project (bare db) := by
    refine List.filter_congr fun e _ => ?_
    have hfacts : (∀ f ∈ db.facts, f.project = project → f.category = .ffi →
        f.functionId ≠ e.id) ↔ ∀ f ∈ (bare db).facts, f.project = project → f.category = .ffi →
          f.functionId ≠ e.id :=
      iff_of_true (fun f hf hproject hffi => absurd hffi (h f hf hproject))
        fun f hf => absurd hf List.not_mem_nil
    simp only [hfacts]
    rfl
  funext q
  cases q with
  | crossLanguage => rw [found, found, hcross]
  | phase p => cases p <;> rfl

theorem written_bare (h : Unclaimed project db) :
    written cl project faults db = written cl project faults (bare db) := by
  have hscanned : scanned cl project faults db = scanned cl project faults (bare db) := by
    funext q
    rw [scanned, scanned, found_bare h]
  funext p
  rw [written, written, collected, collected, hscanned]

theorem wanted_bare (h : Unclaimed project db) : wanted cl project db = wanted cl project (bare db) := by
  funext p
  rw [wanted, wanted, found_bare h]

/-- What the extraction leaves alone. -/
structure Frame (db db' : Db β) : Prop where
  graph : db'.graph = db.graph
  records : db'.records = db.records
  normalReady : db'.normalReady = db.normalReady

theorem Frame.trans {db' db'' : Db β} (h : Frame db db') (h' : Frame db' db'') : Frame db db'' :=
  ⟨h'.graph.trans h.graph, h'.records.trans h.records, h'.normalReady.trans h.normalReady⟩

theorem Frame.bare_eq {db' : Db β} (h : Frame db db') : bare db' = bare db := by
  rw [bare, bare, h.graph, h.records]

theorem frame_extractPhase (p : Phase) : Frame db (extractPhase cl project faults db p) := by
  rw [extractPhase]
  split
  · exact ⟨rfl, rfl, rfl⟩
  · exact ⟨rfl, rfl, rfl⟩

theorem done_extractPhase (p : Phase) (s : Step) :
    s ∈ (extractPhase cl project faults db p).done ↔
      (s = .phase p ∧ PhaseWorks cl project faults db p) ∨ s ∈ db.done := by
  rw [extractPhase, ← written_complete_iff]
  split
  · rename_i hall
    rw [Db.mark, List.mem_cons, and_iff_left hall]
  · rename_i hnot
    exact (or_iff_right fun h => hnot h.2).symm

theorem phaseWorks_bare (h : Unclaimed project db) (p : Phase) :
    PhaseWorks cl project faults db p ↔ PhaseWorks cl project faults (bare db) p := by
  rw [← written_complete_iff, ← written_complete_iff, written_bare h, wanted_bare h]

/-- Phases that have run one after the other. -/
structure Extracted (cl : Classifiers β) (project : ℕ) (faults : Faults) (l : List Phase)
    (db db' : Db β) : Prop extends Frame db db' where
  facts : db'.facts = db.facts ++ l.flatMap (written cl project faults (bare db))
  done : ∀ s, s ∈ db'.done ↔
    (∃ p ∈ l, s = .phase p ∧ PhaseWorks cl project faults (bare db) p) ∨ s ∈ db.done

variable (cl faults)

theorem extracted_phase (h : Unclaimed project db) (p : Phase) :
    Extracted cl project faults [p] db (extractPhase cl project faults db p) where
  toFrame := frame_extractPhase p
  facts := by
    rw [List.flatMap_singleton, ← written_bare h, extractPhase]
    split
    · rfl
    · rfl
  done s := by
    rw [done_extractPhase, phaseWorks_bare h]
    simp

theorem unclaimed_extractPhase (h : Unclaimed project db) {p : Phase} (hp : p ≠ .ffi) :
    Unclaimed project (extractPhase cl project faults db p) := by
  have hfacts := (extracted_phase cl faults h p).facts
  intro f hf hproject
  rw [hfacts, List.flatMap_singleton] at hf
  rcases List.mem_append.mp hf with hold | hnew
  · exact h f hold hproject
  · rw [(mem_wanted ((written_sublist p).subset hnew)).2]
    exact hp

theorem extracted_fold {l : List Phase} (hlast : ∀ p ∈ l.dropLast, p ≠ .ffi)
    (h : Unclaimed project db) :
    Extracted cl project faults l db (l.foldl (extractPhase cl project faults) db) := by
  induction l generalizing db with
  | nil => exact ⟨⟨rfl, rfl, rfl⟩, by simp, by simp⟩
  | cons p rest ih =>
      have hfirst := extracted_phase cl faults h p
      cases rest with
      | nil => exact hfirst
      | cons q more =>
          rw [List.dropLast_cons_cons, List.forall_mem_cons] at hlast
          have hrest := ih hlast.2 (unclaimed_extractPhase cl faults h hlast.1)
          have hbare := hfirst.toFrame.bare_eq
          refine ⟨hfirst.toFrame.trans hrest.toFrame, ?_, fun s => ?_⟩
          · rw [List.foldl_cons, hrest.facts, hfirst.facts, hbare, List.append_assoc,
              List.flatMap_singleton, ← List.flatMap_cons]
          · rw [List.foldl_cons, hrest.done, hfirst.done, hbare]
            have hcons := List.exists_mem_cons_iff
              (fun r => s = .phase r ∧ PhaseWorks cl project faults (bare db) r) p (q :: more)
            rw [hcons, or_comm (a := _ ∧ _), or_assoc]
            simp only [List.mem_singleton, exists_eq_left]

theorem frame_fold (l : List Phase) : Frame db (l.foldl (extractPhase cl project faults) db) := by
  induction l generalizing db with
  | nil => exact ⟨rfl, rfl, rfl⟩
  | cons p rest ih => exact (frame_extractPhase p).trans ih

theorem done_fold {s : Step} (hs : ∀ p, s ≠ .phase p) (l : List Phase) :
    s ∈ (l.foldl (extractPhase cl project faults) db).done ↔ s ∈ db.done := by
  induction l generalizing db with
  | nil => exact Iff.rfl
  | cons p rest ih => rw [List.foldl_cons, ih, done_extractPhase, or_iff_right fun h => hs p h.1]

theorem frame_extractAll : Frame db (extractAll cl project faults db) := by
  refine Frame.trans ?_ (frame_fold cl faults phases)
  rw [clearSemanticFacts]
  split
  · exact ⟨rfl, rfl, rfl⟩
  · exact ⟨rfl, rfl, rfl⟩

theorem done_extractAll {s : Step} (hs : ∀ p, s ≠ .phase p) :
    s ∈ (extractAll cl project faults db).done ↔
      (s = .clear ∧ faults.step .clear = false) ∨ s ∈ db.done := by
  rw [extractAll, done_fold cl faults hs, clearSemanticFacts]
  split
  · rename_i hclear
    rw [hclear]
    simp
  · rename_i hclear
    rw [Db.mark, List.mem_cons, and_iff_left (by simpa using hclear)]

/-- An extraction that starts by clearing the facts of the project. -/
theorem extracted_extractAll (hclear : faults.step .clear = false) :
    (extractAll cl project faults db).facts = db.facts.filter (·.project ≠ project) ++
        phases.flatMap (written cl project faults (bare db)) ∧
      ∀ p, .phase p ∈ (extractAll cl project faults db).done ↔
        PhaseWorks cl project faults (bare db) p ∨ .phase p ∈ db.done := by
  have hcleared : clearSemanticFacts project faults db =
      { db with facts := db.facts.filter (·.project ≠ project) }.mark .clear := by
    rw [clearSemanticFacts, hclear, if_neg Bool.false_ne_true]
  have hunclaimed : Unclaimed project (clearSemanticFacts project faults db) := by
    rw [hcleared]
    intro f hf hproject
    exact absurd hproject (of_decide_eq_true (List.mem_filter.mp hf).2)
  have hall := extracted_fold cl faults (l := phases) (by decide) hunclaimed
  have hbare : bare (clearSemanticFacts project faults db) = bare db := by
    rw [hcleared]
    rfl
  have hmem : ∀ p, p ∈ phases := fun p => by cases p <;> decide
  refine ⟨?_, fun p => ?_⟩
  · rw [extractAll, hall.facts, hbare, hcleared]
    rfl
  · rw [extractAll, hall.done, hbare, hcleared, Db.mark, List.mem_cons]
    simp [hmem]

/-- **The facts after an extraction that works** are those of the tables it reads. -/
theorem facts_extractAll (hclear : faults.step .clear = false)
    (hworks : ∀ p, PhaseWorks cl project faults (bare db) p) :
    (extractAll cl project faults db).facts.filter (·.project = project) =
      allFacts cl project db.graph db.records := by
  have hwritten : written cl project faults (bare db) = wanted cl project (bare db) :=
    funext fun p => written_eq p (hworks p)
  have hold : (db.facts.filter (·.project ≠ project)).filter (·.project = project) = [] := by
    rw [List.filter_filter, List.filter_eq_nil_iff]
    simp
  have hnew : (phases.flatMap (wanted cl project (bare db))).filter (·.project = project) =
      phases.flatMap (wanted cl project (bare db)) := by
    refine List.filter_eq_self.mpr fun f hf => ?_
    obtain ⟨p, _, hp⟩ := List.mem_flatMap.mp hf
    exact decide_eq_true (mem_wanted hp).1
  rw [(extracted_extractAll cl faults hclear).1, hwritten, List.filter_append, hold, hnew]
  rfl

/-- The facts of a graph are about its functions. -/
theorem allFacts_function {graph : Graph} {records : List RecordRow} {f : Fact β}
    (h : f ∈ allFacts cl project graph records) :
    ∃ e ∈ graph.entities.rows, e.id = f.functionId ∧ e.project = project ∧ isFunction e = true := by
  obtain ⟨p, _, hp⟩ := List.mem_flatMap.mp h
  obtain ⟨q, _, hq⟩ := List.mem_flatMap.mp hp
  have hrecord : ∀ row ∈ recordsOf project records, ∀ {category body},
      factOf project category (enclosingFunction graph.entities row) body = some f →
        ∃ e ∈ graph.entities.rows, e.id = f.functionId ∧ e.project = project ∧
          isFunction e = true := by
    intro row hrow category body hfact
    obtain ⟨e, he, hid⟩ := Option.map_eq_some_iff.mp (factOf_eq_some hfact).2.2
    have hmem := List.mem_filter.mp (List.argmax_mem he)
    have hall := of_decide_eq_true hmem.2
    exact ⟨e, hmem.1, hid, hall.1.trans (of_decide_eq_true (List.mem_filter.mp hrow).2),
      hall.2.2.1⟩
  cases q with
  | crossLanguage =>
      obtain ⟨e, he, hfact⟩ := List.mem_filterMap.mp hq
      have hmem := List.mem_filter.mp he
      have hall := of_decide_eq_true hmem.2
      exact ⟨e, hmem.1, Option.some.inj (factOf_eq_some hfact).2.2, hall.1, hall.2.1⟩
  | phase p =>
      cases p with
      | framework =>
          obtain ⟨imp, himp, hfact⟩ := List.mem_filterMap.mp hq
          obtain ⟨e, he, hid⟩ := Option.map_eq_some_iff.mp (factOf_eq_some hfact).2.2
          have hmem := List.mem_filter.mp (List.argmin_mem he)
          have hall := of_decide_eq_true hmem.2
          exact ⟨e, hmem.1, hid,
            hall.1.trans (of_decide_eq_true (List.mem_filter.mp himp).2), hall.2.2⟩
      | _ =>
          obtain ⟨row, hrow, hfact⟩ := List.mem_filterMap.mp hq
          exact hrecord row hrow hfact

end Extract

/-! ## The other steps -/

/-- The steps behind `run_model_build`. -/
def modelSteps : List Step :=
  [.models, .states, .modelFts, .modelFtsReady, .knowledge, .modules, .knowledgeReady]

/-- The steps that a finalised project does without. -/
def graphSteps : List Step := [.graph, .fts, .metrics, .indexes, .normalReady, .ftsReady]

/-- The writes of a transaction stay. -/
def Stays (t : Txn) : Prop := faults.begin t = true ∨ faults.commit t = false

/-- The steps behind `run_model_build`, and the transaction among them, do not fail. -/
def ModelsWork : Prop :=
  (∀ s ∈ modelSteps, faults.step s = false) ∧ faults.begin .knowledge = false ∧
    faults.commit .knowledge = false

/-- The steps that rebuild the graph do not fail. -/
def GraphWorks : Prop := (∀ s ∈ graphSteps, faults.step s = false) ∧ Stays faults .graph

/-- A transaction whose results nobody looks at. -/
def inTxn (t : Txn) (f : Db β → Db β) (db : Db β) : Db β :=
  if faults.begin t || !faults.commit t then f db else db

/-- What `runModelBuild` does to a database outside a transaction. -/
def modelBuilt (db : Db β) : Db β :=
  let db := plainStep faults .states (plainStep faults .models db)
  let db := if faults.step .modelFts then db
    else plainStep faults .modelFtsReady (db.mark .modelFts)
  if faults.begin .knowledge || faults.step .knowledge || faults.commit .knowledge then db
  else plainStep faults .knowledgeReady (plainStep faults .modules (db.mark .knowledge))

/-- What the steps from the graph to the readiness flags do. -/
def graphBuilt (rebuild : List RecordRow → Graph → Graph) (db : Db β) : Db β :=
  plainStep faults .ftsReady (setNormalReady project faults (plainStep faults .indexes
    (plainStep faults .metrics ((inTxn faults .graph (buildGraph rebuild) db).mark .fts))))

/-- The database after the extraction and the README. -/
def extracted (db : Db β) : Db β :=
  plainStep faults .readme (inTxn faults .facts (extractAll cl project faults) db)

section Steps

variable {cl project faults} {db : Db β}

theorem runModelBuild_idle :
    runModelBuild faults (Conn.idle db) = Conn.idle (modelBuilt faults db) := by
  have hindex : runModelIndexSync faults (Conn.idle db) = Conn.idle
      (if faults.step .modelFts then plainStep faults .states (plainStep faults .models db)
        else plainStep faults .modelFtsReady
          ((plainStep faults .states (plainStep faults .models db)).mark .modelFts)) := by
    rw [runModelIndexSync]
    split
    · rfl
    · rfl
  rw [runModelBuild, hindex, modelBuilt, buildKnowledgeGraphSync]
  cases faults.begin .knowledge with
  | true => rfl
  | false =>
      cases faults.step .knowledge with
      | true => rfl
      | false =>
          cases faults.commit .knowledge with
          | true => rfl
          | false => rfl

/-- The run of an enhancement, as what it does to the database. -/
theorem enhanceProject_idle (rebuild : List RecordRow → Graph → Graph) :
    enhanceProject cl project faults rebuild (Conn.idle db) =
      let after := extracted cl project faults db
      if finalised project faults after then (none, Conn.idle (modelBuilt faults after))
      else if faults.step .graph then (some .graph, Conn.idle (modelBuilt faults after))
      else if faults.step .fts then (some .fts, Conn.idle (modelBuilt faults
        (inTxn faults .graph (buildGraph rebuild) after)))
      else (none, Conn.idle (modelBuilt faults (graphBuilt project faults rebuild after))) := by
  have hrollback : ∀ d : Db β, ((Conn.idle d).begin (faults.begin .graph)).2.rollback =
      Conn.idle d := by
    intro d
    cases faults.begin .graph with
    | true => rfl
    | false => rfl
  rw [enhanceProject]
  dsimp only
  simp only [Conn.transaction_idle, Conn.write_idle, Conn.view_idle, hrollback, runModelBuild_idle]
  rfl

theorem mem_plainStep {s t : Step} : s ∈ (plainStep faults t db).done ↔
    (s = t ∧ faults.step t = false) ∨ s ∈ db.done := by
  rw [plainStep]
  split
  · rename_i hfails
    rw [hfails]
    simp
  · rename_i hworks
    rw [Db.mark, List.mem_cons, and_iff_left (by simpa using hworks)]

theorem mem_mark {s t : Step} : s ∈ (db.mark t).done ↔ s = t ∨ s ∈ db.done := List.mem_cons

theorem mem_setNormalReady {s : Step} : s ∈ (setNormalReady project faults db).done ↔
    (s = .normalReady ∧ faults.step .normalReady = false) ∨ s ∈ db.done := by
  rw [setNormalReady]
  split
  · rename_i hfails
    rw [hfails]
    simp
  · rename_i hworks
    rw [Db.mark, List.mem_cons, and_iff_left (by simpa using hworks)]

/-- The steps that only record themselves leave the tables alone. -/
structure SameTables (db db' : Db β) : Prop where
  graph : db'.graph = db.graph
  records : db'.records = db.records
  facts : db'.facts = db.facts

theorem SameTables.trans {db' db'' : Db β} (h : SameTables db db') (h' : SameTables db' db'') :
    SameTables db db'' :=
  ⟨h'.graph.trans h.graph, h'.records.trans h.records, h'.facts.trans h.facts⟩

theorem same_plainStep (t : Step) : SameTables db (plainStep faults t db) := by
  rw [plainStep]
  split
  · exact ⟨rfl, rfl, rfl⟩
  · exact ⟨rfl, rfl, rfl⟩

theorem same_mark (t : Step) : SameTables db (db.mark t) := ⟨rfl, rfl, rfl⟩

theorem same_setNormalReady : SameTables db (setNormalReady project faults db) := by
  rw [setNormalReady]
  split
  · exact ⟨rfl, rfl, rfl⟩
  · exact ⟨rfl, rfl, rfl⟩

theorem same_modelBuilt : SameTables db (modelBuilt faults db) := by
  have hstart : SameTables db (plainStep faults .states (plainStep faults .models db)) :=
    (same_plainStep .models).trans (same_plainStep .states)
  rw [modelBuilt]
  split
  · split
    · exact hstart
    · exact hstart.trans ((same_mark .modelFts).trans (same_plainStep .modelFtsReady))
  · refine SameTables.trans ?_ ((same_mark .knowledge).trans
      ((same_plainStep .modules).trans (same_plainStep .knowledgeReady)))
    split
    · exact hstart
    · exact hstart.trans ((same_mark .modelFts).trans (same_plainStep .modelFtsReady))

theorem mem_modelBuilt_other {s : Step} (hs : s ∉ modelSteps) :
    s ∈ (modelBuilt faults db).done ↔ s ∈ db.done := by
  simp only [modelSteps, List.mem_cons, List.not_mem_nil, or_false, not_or] at hs
  rw [modelBuilt]
  split
  · split
    · simp only [mem_plainStep, hs, false_and, false_or]
    · simp only [mem_plainStep, mem_mark, hs, false_and, false_or]
  · split
    · simp only [mem_plainStep, mem_mark, hs, false_and, false_or]
    · simp only [mem_plainStep, mem_mark, hs, false_and, false_or]

/-- **The model steps take effect exactly when none of them fails.** -/
theorem modelBuilt_steps_iff (h : ∀ s ∈ modelSteps, s ∉ db.done) :
    (∀ s ∈ modelSteps, s ∈ (modelBuilt faults db).done) ↔ ModelsWork faults := by
  simp only [modelSteps, List.forall_mem_cons, List.not_mem_nil, false_imp_iff, implies_true,
    and_true] at h
  obtain ⟨hmodels, hstates, hfts, hftsReady, hknowledge, hmodules, hready⟩ := h
  simp only [ModelsWork, modelSteps, List.forall_mem_cons, List.not_mem_nil, false_imp_iff,
    implies_true, and_true, modelBuilt]
  split
  · rename_i hfails
    have hno : .knowledge ∉ (if faults.step .modelFts then
        plainStep faults .states (plainStep faults .models db)
        else plainStep faults .modelFtsReady ((plainStep faults .states
          (plainStep faults .models db)).mark .modelFts)).done := by
      split
      · simp [mem_plainStep, hknowledge]
      · simp [mem_plainStep, mem_mark, hknowledge]
    refine iff_of_false (fun hall => hno hall.2.2.2.2.1) fun hworks => ?_
    rw [hworks.2.1, hworks.2.2, hworks.1.2.2.2.2.1] at hfails
    exact absurd hfails (by simp)
  · rename_i hworks
    simp only [Bool.or_eq_true, not_or, Bool.not_eq_true] at hworks
    cases hftsFails : faults.step .modelFts with
    | true => simp [mem_plainStep, mem_mark, hfts]
    | false =>
        simp [mem_plainStep, mem_mark, hmodels, hstates, hftsReady, hmodules, hready, hworks]

theorem inTxn_of_stays {t : Txn} (h : Stays faults t) (f : Db β → Db β) :
    inTxn faults t f db = f db := by
  rw [inTxn, if_pos]
  rcases h with h | h
  · rw [h, Bool.true_or]
  · rw [h, Bool.not_false, Bool.or_true]

theorem inTxn_of_lost {t : Txn} (h : ¬ Stays faults t) (f : Db β → Db β) :
    inTxn faults t f db = db := by
  rw [Stays, not_or, Bool.not_eq_true, Bool.not_eq_false] at h
  rw [inTxn, h.1, h.2]
  rfl

section Graph

variable (rebuild : List RecordRow → Graph → Graph)

theorem same_graphBuilt :
    SameTables (inTxn faults .graph (buildGraph rebuild) db) (graphBuilt project faults rebuild db) :=
  (same_mark .fts).trans ((same_plainStep .metrics).trans ((same_plainStep .indexes).trans
    (same_setNormalReady.trans (same_plainStep .ftsReady))))

theorem mem_graphBuilt_other {s : Step} (hs : s ∉ graphSteps) :
    s ∈ (graphBuilt project faults rebuild db).done ↔ s ∈ db.done := by
  simp only [graphSteps, List.mem_cons, List.not_mem_nil, or_false, not_or] at hs
  simp only [graphBuilt, mem_plainStep, mem_setNormalReady, mem_mark, hs, false_and, false_or]
  rw [inTxn]
  split
  · rw [buildGraph, mem_mark, or_iff_right hs.1]
  · rfl

/-- **The steps of the graph take effect exactly when none of them fails.** -/
theorem graphBuilt_steps_iff (hgraph : faults.step .graph = false) (hfts : faults.step .fts = false)
    (h : ∀ s ∈ graphSteps, s ∉ db.done) :
    (∀ s ∈ graphSteps, s ∈ (graphBuilt project faults rebuild db).done) ↔ GraphWorks faults := by
  have hbuilt : .graph ∈ (inTxn faults .graph (buildGraph rebuild) db).done ↔
      Stays faults .graph := by
    by_cases hstays : Stays faults .graph
    · rw [inTxn_of_stays hstays]
      exact iff_of_true List.mem_cons_self hstays
    · rw [inTxn_of_lost hstays]
      exact iff_of_false (h .graph List.mem_cons_self) hstays
  have hother : ∀ s ∈ graphSteps, s ≠ .graph →
      s ∉ (inTxn faults .graph (buildGraph rebuild) db).done := by
    intro s hs hne hmem
    rw [inTxn] at hmem
    split at hmem
    · rw [buildGraph, mem_mark] at hmem
      rcases hmem with heq | hmem
      · exact hne heq
      · exact h s hs hmem
    · exact h s hs hmem
  simp only [graphSteps, List.forall_mem_cons, List.not_mem_nil, false_imp_iff, implies_true,
    and_true, ne_eq, reduceCtorEq, not_false_eq_true, true_imp_iff, not_true_eq_false] at hother
  obtain ⟨hmetrics, hindexes, hnormalReady, hftsReady⟩ := hother.2
  simp [GraphWorks, graphBuilt, graphSteps, mem_plainStep, mem_setNormalReady, mem_mark, hbuilt,
    hgraph, hfts, hmetrics, hindexes, hnormalReady, hftsReady]
  tauto

end Graph

/-- The extraction and the README take effect. -/
def FactsWork (cl : Classifiers β) (project : ℕ) (faults : Faults) (db : Db β) : Prop :=
  faults.step .clear = false ∧ (∀ p, PhaseWorks cl project faults (bare db) p) ∧
    Stays faults .facts ∧ faults.step .readme = false

theorem frame_extracted : Frame db (extracted cl project faults db) := by
  have htxn : Frame db (inTxn faults .facts (extractAll cl project faults) db) := by
    rw [inTxn]
    split
    · exact frame_extractAll cl faults
    · exact ⟨rfl, rfl, rfl⟩
  refine htxn.trans ?_
  rw [extracted, plainStep]
  split
  · exact ⟨rfl, rfl, rfl⟩
  · exact ⟨rfl, rfl, rfl⟩

/-- The steps up to the README. -/
def factSteps : List Step := .clear :: phases.map .phase ++ [.readme]

theorem mem_factSteps_phase (p : Phase) : .phase p ∈ factSteps := by
  cases p <;> decide

/-- Nothing else has taken effect by then. -/
theorem mem_extracted (hdone : db.done = []) {s : Step}
    (hs : s ∈ (extracted cl project faults db).done) : s ∈ factSteps := by
  by_cases hphase : ∃ p, s = .phase p
  · obtain ⟨p, rfl⟩ := hphase
    exact mem_factSteps_phase p
  · rw [extracted, mem_plainStep] at hs
    rcases hs with ⟨rfl, _⟩ | hs
    · decide
    · rw [inTxn] at hs
      split at hs
      · rw [done_extractAll cl faults fun p hp => hphase ⟨p, hp⟩, hdone,
          or_iff_left List.not_mem_nil] at hs
        rw [hs.1]
        decide
      · rw [hdone] at hs
        exact absurd hs List.not_mem_nil

/-- **The extraction takes effect exactly when nothing in it fails and its writes stay.** -/
theorem extracted_steps_iff (hdone : db.done = []) :
    (∀ s ∈ factSteps, s ∈ (extracted cl project faults db).done) ↔
      FactsWork cl project faults db := by
  have hreadme : .readme ∈ (extracted cl project faults db).done ↔ faults.step .readme = false := by
    rw [extracted, mem_plainStep, and_iff_right rfl, or_iff_left]
    rw [inTxn]
    split
    · rw [done_extractAll cl faults (by simp), hdone]
      simp
    · rw [hdone]
      exact List.not_mem_nil
  have hearlier : ∀ s, s ≠ .readme → (s ∈ (extracted cl project faults db).done ↔
      s ∈ (inTxn faults .facts (extractAll cl project faults) db).done) := by
    intro s hs
    rw [extracted, mem_plainStep, or_iff_right fun h => hs h.1]
  by_cases hstays : Stays faults .facts
  · rw [inTxn_of_stays hstays] at hearlier
    have hclear : .clear ∈ (extracted cl project faults db).done ↔ faults.step .clear = false := by
      rw [hearlier _ (by simp), done_extractAll cl faults (by simp), hdone]
      simp
    constructor
    · intro hall
      have hworks := hclear.mp (hall _ (by decide))
      refine ⟨hworks, fun p => ?_, hstays, hreadme.mp (hall _ (by decide))⟩
      have hp := (hearlier _ (by simp)).mp (hall (.phase p) (mem_factSteps_phase p))
      rw [(extracted_extractAll cl faults hworks).2, hdone, or_iff_left List.not_mem_nil] at hp
      exact hp
    · rintro ⟨hworks, hphases, _, hread⟩ s hs
      rcases List.mem_append.mp hs with hs | hs
      · rcases List.mem_cons.mp hs with rfl | hs
        · exact hclear.mpr hworks
        · obtain ⟨p, _, rfl⟩ := List.mem_map.mp hs
          rw [hearlier _ (by simp), (extracted_extractAll cl faults hworks).2]
          exact Or.inl (hphases p)
      · rw [List.mem_singleton.mp hs]
        exact hreadme.mpr hread
  · refine iff_of_false (fun hall => ?_) fun hworks => hstays hworks.2.2.1
    have hclear := (hearlier .clear (by simp)).mp (hall _ (by decide))
    rw [inTxn_of_lost hstays, hdone] at hclear
    exact absurd hclear List.not_mem_nil

end Steps

/-! ## Consistent answers -/

/-- Where an enhancement should end. -/
structure Consistent (finalised : Bool) (db : Db β) : Prop where
  /-- Every step has taken effect. -/
  steps : ∀ s ∈ stepsOf finalised, s ∈ db.done
  /-- The facts of the project are those of the tables. -/
  facts : (db.facts.filter (·.project = project)).Perm (allFacts cl project db.graph db.records)
  /-- They are about functions of the project. -/
  functions : ∀ f ∈ db.facts, f.project = project → ∃ e ∈ db.graph.entities.rows,
    e.id = f.functionId ∧ e.project = project ∧ isFunction e = true

variable (rebuild : List RecordRow → Graph → Graph)

/-- `ok:true` is answered only at such an end. -/
def Honest (db : Db β) : Prop :=
  (enhanceProject cl project faults rebuild (Conn.idle db)).1 = none →
    Consistent cl project (finalised project faults db)
      (enhanceProject cl project faults rebuild (Conn.idle db)).2.durable

/-- A failure that the answer reports comes up, or no step fails, and the rebuild of the graph does
    not change the facts. -/
def Safe (db : Db β) : Prop :=
  if finalised project faults db then FactsWork cl project faults db ∧ ModelsWork faults
  else faults.step .graph = true ∨ faults.step .fts = true ∨
    (FactsWork cl project faults db ∧ GraphWorks faults ∧ ModelsWork faults) ∧
      (allFacts cl project db.graph db.records).Perm
        (allFacts cl project (rebuild db.records db.graph) db.records)

section Honest

variable {cl project faults rebuild} {db : Db β}

theorem consistent_of_facts {finalised : Bool} (hsteps : ∀ s ∈ stepsOf finalised, s ∈ db.done)
    (hfacts : (db.facts.filter (·.project = project)).Perm
      (allFacts cl project db.graph db.records)) : Consistent cl project finalised db where
  steps := hsteps
  facts := hfacts
  functions _ hf hproject := allFacts_function cl
    (hfacts.mem_iff.mp (List.mem_filter.mpr ⟨hf, decide_eq_true hproject⟩))

theorem facts_extracted (h : FactsWork cl project faults db) :
    (extracted cl project faults db).facts.filter (·.project = project) =
      allFacts cl project db.graph db.records := by
  rw [extracted, inTxn_of_stays h.2.2.1, (same_plainStep .readme).facts]
  exact facts_extractAll cl faults h.1 h.2.1

theorem finalised_extracted :
    finalised project faults (extracted cl project faults db) = finalised project faults db := by
  rw [finalised, finalised, frame_extracted.normalReady]

theorem not_mem_extracted (hdone : db.done = []) {s : Step} (hs : s ∉ factSteps) :
    s ∉ (extracted cl project faults db).done := fun h => hs (mem_extracted hdone h)

theorem honest_of_finalised (hdone : db.done = []) (hfinalised : finalised project faults db = true) :
    Honest cl project faults rebuild db ↔ FactsWork cl project faults db ∧ ModelsWork faults := by
  let after := extracted cl project faults db
  have hsteps : (∀ s ∈ stepsOf true, s ∈ (modelBuilt faults after).done) ↔
      FactsWork cl project faults db ∧ ModelsWork faults := by
    have hsplit : stepsOf true = factSteps ++ modelSteps := by decide
    rw [hsplit, List.forall_mem_append, ← extracted_steps_iff hdone,
      ← modelBuilt_steps_iff fun s hs => not_mem_extracted hdone (by revert s; decide)]
    refine and_congr_left fun _ => forall₂_congr fun s hs => ?_
    exact mem_modelBuilt_other (by revert s; decide)
  rw [Honest, enhanceProject_idle]
  dsimp only
  rw [finalised_extracted, if_pos hfinalised, hfinalised]
  simp only [true_imp_iff, Conn.idle_durable]
  constructor
  · exact fun h => hsteps.mp h.steps
  · intro hworks
    have hsame : SameTables after (modelBuilt faults after) := same_modelBuilt
    have hframe : Frame db after := frame_extracted
    refine consistent_of_facts (hsteps.mpr hworks) ?_
    rw [hsame.facts, hsame.graph, hsame.records, hframe.graph, hframe.records,
      facts_extracted hworks.1]

theorem honest_of_rebuilt (hdone : db.done = []) (hfinalised : finalised project faults db = false)
    (hgraph : faults.step .graph = false) (hfts : faults.step .fts = false) :
    Honest cl project faults rebuild db ↔
      (FactsWork cl project faults db ∧ GraphWorks faults ∧ ModelsWork faults) ∧
        (allFacts cl project db.graph db.records).Perm
          (allFacts cl project (rebuild db.records db.graph) db.records) := by
  let after := extracted cl project faults db
  let built := graphBuilt project faults rebuild after
  have hsteps : (∀ s ∈ stepsOf false, s ∈ (modelBuilt faults built).done) ↔
      FactsWork cl project faults db ∧ GraphWorks faults ∧ ModelsWork faults := by
    have hsplit : stepsOf false = factSteps ++ (graphSteps ++ modelSteps) := by decide
    have hmodels : ∀ s ∈ modelSteps, s ∉ built.done := fun s hs => by
      rw [mem_graphBuilt_other rebuild (by revert s; decide)]
      exact not_mem_extracted hdone (by revert s; decide)
    rw [hsplit, List.forall_mem_append, List.forall_mem_append, ← extracted_steps_iff hdone,
      ← modelBuilt_steps_iff hmodels,
      ← graphBuilt_steps_iff rebuild hgraph hfts fun s hs =>
        not_mem_extracted hdone (by revert s; decide)]
    refine and_congr (forall₂_congr fun s hs => ?_) (and_congr_left fun _ =>
      forall₂_congr fun s hs => ?_)
    · rw [mem_modelBuilt_other (by revert s; decide)]
      exact mem_graphBuilt_other rebuild (by revert s; decide)
    · exact mem_modelBuilt_other (by revert s; decide)
  rw [Honest, enhanceProject_idle]
  dsimp only
  rw [finalised_extracted, hfinalised, if_neg Bool.false_ne_true, hgraph,
    if_neg Bool.false_ne_true, hfts, if_neg Bool.false_ne_true]
  simp only [true_imp_iff, Conn.idle_durable]
  have htables (hworks : FactsWork cl project faults db ∧ GraphWorks faults ∧ ModelsWork faults) :
      (modelBuilt faults built).facts.filter (·.project = project) =
          allFacts cl project db.graph db.records ∧
        (modelBuilt faults built).graph = rebuild db.records db.graph ∧
          (modelBuilt faults built).records = db.records := by
    have hsame : SameTables (buildGraph rebuild after) (modelBuilt faults built) := by
      rw [← inTxn_of_stays hworks.2.1.2 (buildGraph rebuild)]
      exact (same_graphBuilt rebuild).trans same_modelBuilt
    have hframe : Frame db after := frame_extracted
    refine ⟨?_, ?_, ?_⟩
    · rw [hsame.facts]
      exact facts_extracted hworks.1
    · rw [hsame.graph, ← hframe.records, ← hframe.graph]
      rfl
    · rw [hsame.records]
      exact hframe.records
  constructor
  · intro h
    have hworks := hsteps.mp h.steps
    obtain ⟨hfacts, hrebuilt, hrecords⟩ := htables hworks
    refine ⟨hworks, ?_⟩
    have hcurrent := h.facts
    rwa [hfacts, hrebuilt, hrecords] at hcurrent
  · rintro ⟨hworks, hsame⟩
    obtain ⟨hfacts, hrebuilt, hrecords⟩ := htables hworks
    refine consistent_of_facts (hsteps.mpr hworks) ?_
    rwa [hfacts, hrebuilt, hrecords]

/-- A failure of `buildGraph` or of the FTS build is reported. -/
theorem honest_of_reported (hfinalised : finalised project faults db = false)
    (hfails : faults.step .graph = true ∨ faults.step .fts = true) :
    Honest cl project faults rebuild db := by
  rw [Honest, enhanceProject_idle]
  dsimp only
  rw [finalised_extracted, hfinalised, if_neg Bool.false_ne_true]
  intro hok
  cases hgraph : faults.step .graph with
  | true =>
      rw [hgraph, if_pos rfl] at hok
      exact absurd hok (by simp)
  | false =>
      rw [hgraph, if_neg Bool.false_ne_true,
        if_pos (hfails.resolve_left (by simp [hgraph]))] at hok
      exact absurd hok (by simp)

end Honest

def lockCall : Record :=
  { functionRecord (str "mu.Lock") 2 with kind := .callExpr }

def lockRecords : List RecordRow :=
  [⟨1, str "a.go", { functionRecord (str "run") 1 with endRow := 3 }⟩, ⟨1, str "a.go", lockCall⟩]

/-- The calls of a mutex, as `extractSyncFacts` classifies them. -/
def lockFacts : Classifiers Str where
  record p _ row :=
    if p = .sync ∧ row.record.name = str "mu.Lock" then some (str "mutex/lock") else none
  framework _ := none
  crossLanguage _ := none

def noFaults : Faults :=
  ⟨fun _ => false, fun _ => false, fun _ => false, false, fun _ => false, fun _ => none,
    fun _ => false, fun _ _ => false⟩

/-- The entities are rebuilt as `buildGraph` does. -/
def rebuildEntities (records : List RecordRow) (graph : Graph) : Graph :=
  { graph with entities := buildEntities 1 none records graph.entities true }

end CodeScope.Enhance
