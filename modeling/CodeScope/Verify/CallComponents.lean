import CodeScope.Library.Components
import CodeScope.Verify.Verifiers

/-! # The connected components of the call graph

`DeadCodeInspector::findConnectedComponents`: an adjacency map is filled from the Calls relations of
the project, read both ways, and searched from all of its keys. The map iterates over its keys in
any order. Entities are known by their ids; the ends of a relation are entities. -/

namespace CodeScope.Verify

open Text (Str str)
open Components

/-- Any order of the elements of a list. -/
structure AnyOrder (α : Type) where
  arrange : List α → List α
  perm : ∀ l, (arrange l).Perm l

structure Finding where
  type : Str
  description : Str
  confidence : ℚ
deriving DecidableEq

/-! ## The adjacency map -/

/-- `SELECT DISTINCT source_id, target_id FROM relation WHERE project_id = ? AND type = 1` -/
def callPairs (db : Facts) (project : ℕ) : List (Int × Int) :=
  ((db.callsOf project).map fun r => (r.sourceId, r.targetId)).dedup

/-- `adj[src].push_back(tgt); adj[tgt].push_back(src);` -/
def pushPair (adj : Int → List Int) (pair : Int × Int) : Int → List Int :=
  let adj := Function.update adj pair.1 (adj pair.1 ++ [pair.2])
  Function.update adj pair.2 (adj pair.2 ++ [pair.1])

def neighboursOf (pairs : List (Int × Int)) : Int → List Int := pairs.foldl pushPair fun _ => []

theorem mem_pushPair {adj : Int → List Int} {pair : Int × Int} {a b : Int} :
    b ∈ pushPair adj pair a ↔ b ∈ adj a ∨ (a, b) = pair ∨ (b, a) = pair := by
  obtain ⟨src, tgt⟩ := pair
  simp only [pushPair, Function.update_apply, Prod.mk.injEq]
  by_cases htgt : a = tgt
  · subst htgt
    by_cases hsrc : a = src
    · subst hsrc
      simp
    · simp [hsrc]
  · by_cases hsrc : a = src
    · subst hsrc
      simp [htgt]
    · simp [htgt, hsrc]

theorem mem_foldl_pushPair (pairs : List (Int × Int)) (adj : Int → List Int) (a b : Int) :
    b ∈ pairs.foldl pushPair adj a ↔ b ∈ adj a ∨ (a, b) ∈ pairs ∨ (b, a) ∈ pairs := by
  induction pairs generalizing adj with
  | nil => simp
  | cons pair pairs ih =>
      rw [List.foldl_cons, ih, mem_pushPair, List.mem_cons, List.mem_cons]
      tauto

theorem mem_neighboursOf {pairs : List (Int × Int)} {a b : Int} :
    b ∈ neighboursOf pairs a ↔ (a, b) ∈ pairs ∨ (b, a) ∈ pairs := by
  rw [neighboursOf, mem_foldl_pushPair]
  simp

/-- `adj`, with its keys in the order in which they were put in. -/
def adjacencyOf (pairs : List (Int × Int)) : Adjacency Int where
  keys := (pairs.flatMap fun pair => [pair.1, pair.2]).dedup
  get := neighboursOf pairs
  closed := by
    intro a b h
    simp only [List.mem_dedup, List.mem_flatMap, List.mem_cons, List.not_mem_nil, or_false]
    rcases mem_neighboursOf.mp h with h | h
    · exact ⟨_, h, Or.inr rfl⟩
    · exact ⟨_, h, Or.inl rfl⟩
  symm := by
    intro a b h
    exact mem_neighboursOf.mpr (mem_neighboursOf.mp h).symm

/-! ## The report -/

def largestFinding (size : ℕ) : Finding where
  type := str "ConnectedComponent"
  description := str "Largest connected component has " ++ toStr size ++ str " entities"
  confidence := 95 / 100

def totalFinding (total : ℕ) : Finding where
  type := str "ConnectedComponent"
  description := str "Total " ++ toStr total ++ str " connected components in the call graph"
  confidence := 95 / 100

/-- The first of the largest components. -/
def largestOf (first : List Int) (others : List (List Int)) : List Int :=
  others.foldl (fun largest comp => if largest.length < comp.length then comp else largest) first

/-- `findConnectedComponents`, of a query that runs to its end. -/
def findConnectedComponents (db : Facts) (project : ℕ) (rows : AnyOrder (Int × Int))
    (keys : AnyOrder Int) : List Finding :=
  let adj := adjacencyOf (rows.arrange (callPairs db project))
  match components adj (keys.arrange adj.keys) ∅ with
  | [] => []
  | first :: others =>
      [largestFinding (largestOf first others).length, totalFinding (others.length + 1)]

/-! ## The call graph -/

/-- The graph of the calls of a project, whatever their direction. -/
def callGraph (db : Facts) (project : ℕ) : SimpleGraph Int :=
  SimpleGraph.fromRel fun a b => ∃ r ∈ db.relation, r.project = project ∧
    r.type = kRelationTypeCalls ∧ r.sourceId = a ∧ r.targetId = b

theorem mem_callPairs {db : Facts} {project : ℕ} {a b : Int} :
    (a, b) ∈ callPairs db project ↔ ∃ r ∈ db.relation, r.project = project ∧
      r.type = kRelationTypeCalls ∧ r.sourceId = a ∧ r.targetId = b := by
  simp only [callPairs, Facts.callsOf, Facts.relationsOf, List.mem_dedup, List.mem_map,
    List.mem_filter, decide_eq_true_eq, Prod.mk.injEq]
  exact exists_congr fun r => by tauto

theorem graph_adjacencyOf (db : Facts) (project : ℕ) (rows : AnyOrder (Int × Int)) :
    (adjacencyOf (rows.arrange (callPairs db project))).graph = callGraph db project := by
  ext a b
  rw [callGraph, SimpleGraph.fromRel_adj, ← mem_callPairs, ← mem_callPairs]
  show a ≠ b ∧ b ∈ neighboursOf _ a ↔ _
  rw [mem_neighboursOf, (rows.perm _).mem_iff, (rows.perm _).mem_iff]

/-- What is reported about a graph: the number of its components with two entities or more, and the
    number of entities of the largest one; nothing when there is none. -/
def Reports (G : SimpleGraph Int) (findings : List Finding) : Prop :=
  (findings = [] ∧ ∀ C : G.ConnectedComponent, ¬ C.supp.Nontrivial) ∨
    ∃ largest total, findings = [largestFinding largest, totalFinding total] ∧
      total = {C : G.ConnectedComponent | C.supp.Nontrivial}.ncard ∧
      IsGreatest {n | ∃ C : G.ConnectedComponent, C.supp.Nontrivial ∧ C.supp.ncard = n} largest

theorem largestOf_spec (first : List Int) (others : List (List Int)) :
    largestOf first others ∈ first :: others ∧
      ∀ comp ∈ first :: others, comp.length ≤ (largestOf first others).length := by
  induction others generalizing first with
  | nil => simp [largestOf]
  | cons comp others ih =>
      rw [largestOf, List.foldl_cons]
      by_cases hlt : first.length < comp.length
      · rw [if_pos hlt]
        obtain ⟨hmem, hmax⟩ := ih comp
        refine ⟨List.mem_cons_of_mem first hmem, fun c hc => ?_⟩
        rcases List.mem_cons.mp hc with rfl | hc
        · exact hlt.le.trans (hmax comp List.mem_cons_self)
        · exact hmax c hc
      · rw [if_neg hlt]
        obtain ⟨hmem, hmax⟩ := ih first
        refine ⟨?_, fun c hc => ?_⟩
        · rcases List.mem_cons.mp hmem with h | h
          · exact List.mem_cons.mpr (Or.inl h)
          · exact List.mem_cons_of_mem _ (List.mem_cons_of_mem _ h)
        · rcases List.mem_cons.mp hc with rfl | hc
          · exact hmax c List.mem_cons_self
          · rcases List.mem_cons.mp hc with rfl | hc
            · exact (not_lt.mp hlt).trans (hmax first List.mem_cons_self)
            · exact hmax c (List.mem_cons_of_mem _ hc)

/-- **The components of the call graph are counted right**, in every order of the relations and of
    the keys of the map. -/
theorem findConnectedComponents_reports (db : Facts) (project : ℕ) (rows : AnyOrder (Int × Int))
    (keys : AnyOrder Int) :
    Reports (callGraph db project) (findConnectedComponents db project rows keys) := by
  rw [← graph_adjacencyOf db project rows, findConnectedComponents]
  generalize adjacencyOf (rows.arrange (callPairs db project)) = adj
  obtain ⟨Cs, hlists, hnodup, hmem⟩ := exists_all_components adj (keys.perm adj.keys)
  generalize components adj (keys.arrange adj.keys) ∅ = comps at hlists
  have htotal : {C : adj.graph.ConnectedComponent | C.supp.Nontrivial}.ncard = comps.length := by
    have hset : {C : adj.graph.ConnectedComponent | C.supp.Nontrivial} = {C | C ∈ Cs} := by
      ext C
      exact (hmem C).symm
    classical
    have hfinset : {C | C ∈ Cs} = (Cs.toFinset : Set adj.graph.ConnectedComponent) := by
      ext C
      exact List.mem_toFinset.symm
    rw [hset, hfinset, Set.ncard_coe_finset, List.toFinset_card_of_nodup hnodup,
      hlists.length_eq]
  cases comps with
  | nil =>
      refine Or.inl ⟨rfl, fun C hC => ?_⟩
      rw [List.forall₂_nil_left_iff.mp hlists] at hmem
      exact List.not_mem_nil ((hmem C).mpr hC)
  | cons first others =>
      obtain ⟨hlargest, hmax⟩ := largestOf_spec first others
      refine Or.inr ⟨_, _, rfl, htotal.symm, ?_, ?_⟩
      · obtain ⟨C, hC, hlist⟩ := exists_of_mem_left hlists hlargest
        exact ⟨C, (hmem C).mp hC, hlist.ncard⟩
      · rintro n ⟨C, hC, rfl⟩
        obtain ⟨comp, hcomp, hlist⟩ := exists_of_mem_left hlists.flip ((hmem C).mpr hC)
        rw [Lists.ncard hlist]
        exact hmax comp hcomp

end CodeScope.Verify
