import CodeScope.Query.CallGraph
import CodeScope.Query.Entities

/-! # The neighbourhood of a function

`getSubgraph` collects the nodes around a centre level by level, over callees and callers, for as
many levels as the clamped radius allows, and answers with those that are entities of the project.
After each level the depths are `Labelled` up to that level with nothing pending, and the frontier
holds the nodes of the last depth. -/

namespace CodeScope.Query

open Text Walks

/-! ## The search -/

/-- The map of depths and the next frontier. -/
abbrev Level := DepthMap × List ℕ

/-- One neighbour of a node of depth `d`. -/
def reach (d : ℕ) (s : Level) (nb : ℕ) : Level :=
  if (s.1.get nb).isSome then s else (s.1.set nb (d + 1), s.2 ++ [nb])

/-- One node of the frontier. -/
def expand (G : CallGraph) (s : Level) (n : ℕ) : Level :=
  let d := (s.1.get n).getD 0
  (G.getCallerIds n).foldl (reach d) ((G.getCalleeIds n).foldl (reach d) s)

/-- The loop over the levels, with the number of levels left. -/
def levels (G : CallGraph) : ℕ → DepthMap → List ℕ → DepthMap
  | 0, depthMap, _ => depthMap
  | left + 1, depthMap, frontier =>
    if frontier = [] then depthMap
    else
      let next := frontier.foldl (expand G) (depthMap, [])
      levels G left next.1 next.2

/-- The number of levels for a radius. -/
def hopsOf (radius : Int) : ℕ :=
  let hops := if radius > 0 then radius else 1
  (if hops > 8 then 8 else hops).toNat

/-! ## The answer -/

/-- The kinds of a comma-separated filter; what is no integer is skipped. -/
def kindFilter (nodeTypeFilter : Str) : List Int :=
  (segments ',' nodeTypeFilter).filterMap fun token => stoi (token.dropWhile isSpace)

structure SubgraphNode where
  id : ℕ
  name : Str
  nodeType : Int
  filePath : Str
  language : Str
deriving DecidableEq

/-- The payload of `get_subgraph`. -/
structure Subgraph where
  nodes : List SubgraphNode
  total : ℕ
  error : Option String
deriving DecidableEq

/-- The edges of the payload, which has no field for any. -/
def Subgraph.edges (_ : Subgraph) : List (ℕ × ℕ) := []

/-- The row of an id in the project, if the filter lets it pass. -/
def subgraphNode (E : EntityTable) (projectId : ℕ) (kinds : List Int) (id : ℕ) :
    Option SubgraphNode :=
  match E.rows.find? fun e => e.id = id ∧ e.projectId = projectId with
  | none => none
  | some e =>
    if kinds = [] ∨ e.kind ∈ kinds then
      some { id, name := e.name, nodeType := e.kind, filePath := e.filePath
             language := e.language }
    else none

/-- `QueryEngine::getSubgraph`; the filter for edge types is not read. -/
def getSubgraph (order : HashOrder) (store : Option (CallGraph × EntityTable)) (projectId : ℕ)
    (centerNodeId : ℕ) (radius : Int) (nodeTypeFilter _edgeTypeFilter : Str) : Subgraph :=
  match store with
  | none =>
    { nodes := [], total := 0
      error := some "graph not ready [module=query, method=getSubgraph]" }
  | some (G, E) =>
    let depthMap := levels G (hopsOf radius) (DepthMap.empty.set centerNodeId 0) [centerNodeId]
    let nodes := (order.list depthMap.keys).filterMap
      (subgraphNode E projectId (kindFilter nodeTypeFilter))
    { nodes, total := nodes.length, error := none }

/-! ## One level -/

section

variable {G : CallGraph} {depthMap : DepthMap} {d : ℕ}

/-- What has been reached in a level from the nodes of depth `d`. -/
structure Grown (G : CallGraph) (depthMap : DepthMap) (d : ℕ) (s : Level) : Prop where
  old : ∀ {n e : ℕ}, depthMap.get n = some e → s.1.get n = some e
  fresh : ∀ {n : ℕ}, depthMap.get n = none → s.1.get n = none ∨
    s.1.get n = some (d + 1) ∧ ∃ a, depthMap.get a = some d ∧ n ∈ G.neighbours a
  frontier : ∀ {n : ℕ}, n ∈ s.2 ↔ depthMap.get n = none ∧ s.1.get n = some (d + 1)

theorem grown_start : Grown G depthMap d (depthMap, []) := by
  refine ⟨id, .inl, ?_⟩
  intro n
  refine iff_of_false List.not_mem_nil ?_
  rintro ⟨hnone, hsome⟩
  rw [hnone] at hsome
  exact absurd hsome (by simp)

theorem reach_grown {s : Level} (h : Grown G depthMap d s) {a nb : ℕ}
    (ha : depthMap.get a = some d) (hnb : nb ∈ G.neighbours a) :
    Grown G depthMap d (reach d s nb) := by
  rw [reach]
  by_cases hsome : (s.1.get nb).isSome = true
  · rw [if_pos hsome]
    exact h
  · rw [if_neg hsome]
    have hnone : s.1.get nb = none := by simpa using hsome
    have hnew : depthMap.get nb = none := by
      cases hget : depthMap.get nb with
      | none => rfl
      | some e => rw [h.old hget] at hnone; exact absurd hnone (by simp)
    refine ⟨?_, ?_, ?_⟩
    · intro n e hn
      have hne : n ≠ nb := by
        rintro rfl
        rw [hnew] at hn
        exact absurd hn (by simp)
      rw [DepthMap.get_set_of_ne _ _ hne]
      exact h.old hn
    · intro n hn
      by_cases hne : n = nb
      · subst hne
        exact .inr ⟨DepthMap.get_set_self _ _ _, a, ha, hnb⟩
      · rw [DepthMap.get_set_of_ne _ _ hne]
        exact h.fresh hn
    · intro n
      rw [List.mem_append, List.mem_singleton]
      by_cases hne : n = nb
      · subst hne
        exact iff_of_true (.inr rfl) ⟨hnew, DepthMap.get_set_self _ _ _⟩
      · rw [DepthMap.get_set_of_ne _ _ hne, or_iff_left hne]
        exact h.frontier

theorem reach_get (s : Level) (nb : ℕ) {n e : ℕ} (h : s.1.get n = some e) :
    (reach d s nb).1.get n = some e := by
  rw [reach]
  by_cases hsome : (s.1.get nb).isSome = true
  · rw [if_pos hsome]
    exact h
  · rw [if_neg hsome]
    have hne : n ≠ nb := by
      rintro rfl
      rw [h] at hsome
      exact hsome rfl
    rw [DepthMap.get_set_of_ne _ _ hne]
    exact h

theorem reach_isSome (s : Level) (nb : ℕ) : ((reach d s nb).1.get nb).isSome = true := by
  rw [reach]
  by_cases hsome : (s.1.get nb).isSome = true
  · rw [if_pos hsome]
    exact hsome
  · rw [if_neg hsome, DepthMap.get_set_self]
    rfl

theorem foldl_reach (nbs : List ℕ) {a : ℕ} (ha : depthMap.get a = some d)
    (hnbs : ∀ nb ∈ nbs, nb ∈ G.neighbours a) {s : Level} (h : Grown G depthMap d s) :
    Grown G depthMap d (nbs.foldl (reach d) s) ∧
      (∀ {n e : ℕ}, s.1.get n = some e → (nbs.foldl (reach d) s).1.get n = some e) ∧
      ∀ nb ∈ nbs, ((nbs.foldl (reach d) s).1.get nb).isSome = true := by
  induction nbs generalizing s with
  | nil => exact ⟨h, id, by simp⟩
  | cons nb nbs ih =>
      obtain ⟨hgrown, hkeep, hsome⟩ := ih (fun n hn => hnbs n (List.mem_cons_of_mem nb hn))
        (reach_grown h ha (hnbs nb List.mem_cons_self))
      refine ⟨hgrown, fun hn => hkeep (reach_get s nb hn), ?_⟩
      intro n hn
      rcases List.mem_cons.mp hn with rfl | hn
      · obtain ⟨e, he⟩ := Option.isSome_iff_exists.mp (reach_isSome (d := d) s n)
        rw [List.foldl_cons, hkeep he]
        rfl
      · exact hsome n hn

theorem expand_spec {n : ℕ} (hn : depthMap.get n = some d) {s : Level}
    (h : Grown G depthMap d s) :
    Grown G depthMap d (expand G s n) ∧
      (∀ {m e : ℕ}, s.1.get m = some e → (expand G s n).1.get m = some e) ∧
      ∀ nb ∈ G.neighbours n, ((expand G s n).1.get nb).isSome = true := by
  have hdepth : (s.1.get n).getD 0 = d := by
    rw [h.old hn]
    rfl
  simp only [expand, hdepth]
  obtain ⟨hcallees, hkeep, hsome⟩ := foldl_reach (G.getCalleeIds n) hn
    (fun nb hnb => List.mem_append_left _ hnb) h
  obtain ⟨hcallers, hkeep', hsome'⟩ := foldl_reach (G.getCallerIds n) hn
    (fun nb hnb => List.mem_append_right _ hnb) hcallees
  refine ⟨hcallers, fun hm => hkeep' (hkeep hm), ?_⟩
  intro nb hnb
  rcases List.mem_append.mp hnb with hnb | hnb
  · obtain ⟨e, he⟩ := Option.isSome_iff_exists.mp (hsome nb hnb)
    rw [hkeep' he]
    rfl
  · exact hsome' nb hnb

theorem foldl_expand {frontier : List ℕ} (hfrontier : ∀ n ∈ frontier, depthMap.get n = some d)
    {s : Level} (h : Grown G depthMap d s) :
    Grown G depthMap d (frontier.foldl (expand G) s) ∧
      (∀ {m e : ℕ}, s.1.get m = some e → (frontier.foldl (expand G) s).1.get m = some e) ∧
      ∀ n ∈ frontier, ∀ nb ∈ G.neighbours n,
        ((frontier.foldl (expand G) s).1.get nb).isSome = true := by
  induction frontier generalizing s with
  | nil => exact ⟨h, id, by simp⟩
  | cons n frontier ih =>
      obtain ⟨hexpand, hkeep, hsome⟩ := expand_spec (hfrontier n List.mem_cons_self) h
      obtain ⟨hgrown, hkeep', hsome'⟩ := ih
        (fun m hm => hfrontier m (List.mem_cons_of_mem n hm)) hexpand
      refine ⟨hgrown, fun hm => hkeep' (hkeep hm), ?_⟩
      intro m hm nb hnb
      rcases List.mem_cons.mp hm with rfl | hm
      · obtain ⟨e, he⟩ := Option.isSome_iff_exists.mp (hsome nb hnb)
        rw [List.foldl_cons, hkeep' he]
        rfl
      · exact hsome' m hm nb hnb

end

/-! ## All levels -/

section

variable {G : CallGraph} {center : ℕ}

/-- The depths up to a level, and the frontier of its nodes. -/
structure Reached (G : CallGraph) (center level : ℕ) (depthMap : DepthMap)
    (frontier : List ℕ) : Prop where
  labelled : Labelled G.neighbours {center} level depthMap.get fun _ _ => False
  frontier : ∀ {n : ℕ}, n ∈ frontier ↔ depthMap.get n = some level

theorem reached_start (G : CallGraph) (center : ℕ) :
    Reached G center 0 (DepthMap.empty.set center 0) [center] := by
  have hget {n d : ℕ} : (DepthMap.empty.set center 0).get n = some d ↔ n = center ∧ d = 0 := by
    by_cases hn : n = center
    · subst hn
      simp [eq_comm]
    · simp [DepthMap.get_set_of_ne _ _ hn, hn]
  refine ⟨⟨?_, ?_, ?_, ?_⟩, ?_⟩
  · rintro s rfl
    exact hget.mpr ⟨rfl, rfl⟩
  · intro b d hb
    obtain ⟨rfl, rfl⟩ := hget.mp hb
    exact ⟨0, Nat.le_refl 0, b, rfl, .nil b⟩
  · intro b d hb
    exact (hget.mp hb).2.le
  · intro a d _ hd
    exact absurd hd (Nat.not_lt_zero d)
  · intro n
    rw [hget, List.mem_singleton, and_iff_left rfl]

variable {depthMap : DepthMap}

theorem Reached.next {level : ℕ} {frontier : List ℕ} (h : Reached G center level depthMap frontier) :
    Reached G center (level + 1) (frontier.foldl (expand G) (depthMap, [])).1
      (frontier.foldl (expand G) (depthMap, [])).2 := by
  obtain ⟨hgrown, -, hsome⟩ := foldl_expand (G := G) (fun n hn => h.frontier.mp hn)
    (grown_start (d := level))
  generalize frontier.foldl (expand G) (depthMap, []) = s at hgrown hsome
  have hcases {n d : ℕ} (hn : s.1.get n = some d) : depthMap.get n = some d ∨
      d = level + 1 ∧ ∃ a, depthMap.get a = some level ∧ n ∈ G.neighbours a := by
    cases hold : depthMap.get n with
    | some e => exact .inl ((hgrown.old hold).symm.trans hn)
    | none =>
        rcases hgrown.fresh hold with hnone | ⟨hnew, ha⟩
        · rw [hnone] at hn
          exact absurd hn (by simp)
        · exact .inr ⟨Option.some.inj (hn.symm.trans hnew), ha⟩
  refine ⟨h.labelled.next hgrown.old hcases fun ha => hsome _ (h.frontier.mpr ha), ?_⟩
  intro n
  rw [hgrown.frontier]
  constructor
  · exact fun hn => hn.2
  · intro hn
    refine ⟨?_, hn⟩
    rcases hcases hn with hold | ⟨-, -⟩
    · exact absurd (h.labelled.bounded hold) (Nat.not_succ_le_self _)
    · cases hold : depthMap.get n with
      | none => rfl
      | some e =>
          have he := h.labelled.bounded hold
          rw [hgrown.old hold] at hn
          obtain rfl := Option.some.inj hn
          exact absurd he (Nat.not_succ_le_self _)

theorem Reached.closed {level : ℕ} (h : Reached G center level depthMap []) (left : ℕ) :
    Labelled G.neighbours {center} (level + left) depthMap.get fun _ _ => False := by
  have hlt {n d : ℕ} (hn : depthMap.get n = some d) : d < level := by
    refine Nat.lt_of_le_of_ne (h.labelled.bounded hn) ?_
    rintro rfl
    exact absurd (h.frontier.mpr hn) List.not_mem_nil
  exact ⟨h.labelled.source, h.labelled.reached,
    fun hb => Nat.le_trans (h.labelled.bounded hb) (Nat.le_add_right _ _),
    fun ha _ => h.labelled.closed ha (hlt ha)⟩

theorem levels_labelled {level : ℕ} (left : ℕ) {frontier : List ℕ}
    (h : Reached G center level depthMap frontier) :
    Labelled G.neighbours {center} (level + left) (levels G left depthMap frontier).get
      fun _ _ => False := by
  induction left generalizing level depthMap frontier with
  | zero => exact h.labelled
  | succ left ih =>
      rw [levels]
      by_cases hempty : frontier = []
      · rw [if_pos hempty]
        subst hempty
        exact h.closed (left + 1)
      · rw [if_neg hempty, Nat.add_comm left, ← Nat.add_assoc]
        exact ih h.next

end

/-! ## The payload -/

theorem hopsOf_eq (radius : Int) : (hopsOf radius : Int) = max 1 (min radius 8) := by
  simp only [hopsOf]
  split_ifs <;> omega

theorem subgraphNode_eq_some {E : EntityTable} {projectId : ℕ} {kinds : List Int} {id : ℕ}
    {node : SubgraphNode} (h : subgraphNode E projectId kinds id = some node) : node.id = id := by
  rw [subgraphNode] at h
  split at h
  · exact absurd h (by simp)
  · split_ifs at h
    rw [← Option.some.inj h]

theorem subgraphNode_isSome_iff (E : EntityTable) (projectId : ℕ) (kinds : List Int) (id : ℕ) :
    (∃ node, subgraphNode E projectId kinds id = some node) ↔
      ∃ e ∈ E.rows, e.id = id ∧ e.projectId = projectId ∧ (kinds = [] ∨ e.kind ∈ kinds) := by
  rw [subgraphNode]
  cases hfind : E.rows.find? fun e => e.id = id ∧ e.projectId = projectId with
  | none =>
      refine iff_of_false (by simp) ?_
      rintro ⟨e, he, hid, hproject, -⟩
      have hnone := List.find?_eq_none.mp hfind e he
      exact hnone (by simp [hid, hproject])
  | some e =>
      have he := List.mem_of_find?_eq_some hfind
      have htest : e.id = id ∧ e.projectId = projectId := by simpa using List.find?_some hfind
      dsimp only
      by_cases hkind : kinds = [] ∨ e.kind ∈ kinds
      · rw [if_pos hkind]
        exact iff_of_true ⟨_, rfl⟩ ⟨e, he, htest.1, htest.2, hkind⟩
      · rw [if_neg hkind]
        refine iff_of_false (by simp) ?_
        rintro ⟨e', he', hid, -, hkind'⟩
        rw [E.eq_of_id he' he (hid.trans htest.1.symm)] at hkind'
        exact hkind hkind'

theorem ids_sublist (E : EntityTable) (projectId : ℕ) (kinds : List Int) (ids : List ℕ) :
    ((ids.filterMap (subgraphNode E projectId kinds)).map (·.id)).Sublist ids := by
  induction ids with
  | nil => exact List.Sublist.refl _
  | cons id ids ih =>
      cases hnode : subgraphNode E projectId kinds id with
      | none =>
          rw [List.filterMap_cons_none hnode]
          exact ih.cons id
      | some node =>
          rw [List.filterMap_cons_some hnode, List.map_cons, subgraphNode_eq_some hnode]
          exact ih.cons_cons id

theorem mem_ids {E : EntityTable} {projectId : ℕ} {kinds : List Int} {ids : List ℕ} {id : ℕ} :
    id ∈ (ids.filterMap (subgraphNode E projectId kinds)).map (·.id) ↔
      id ∈ ids ∧ ∃ node, subgraphNode E projectId kinds id = some node := by
  constructor
  · intro h
    obtain ⟨node, hnode, rfl⟩ := List.mem_map.mp h
    obtain ⟨id, hid, heq⟩ := List.mem_filterMap.mp hnode
    rw [subgraphNode_eq_some heq]
    exact ⟨hid, node, heq⟩
  · rintro ⟨hid, node, hnode⟩
    exact List.mem_map.mpr ⟨node, List.mem_filterMap.mpr ⟨id, hid, hnode⟩,
      subgraphNode_eq_some hnode⟩

/-- **The nodes are the ball.** They are the entities of the project, of a kind that the filter
    names, whose undirected distance from the centre is at most the clamped radius, each of them
    once. -/
theorem getSubgraph_ball (order : HashOrder) (G : CallGraph) (E : EntityTable)
    (projectId centerNodeId : ℕ) (radius : Int) (nodeTypeFilter edgeTypeFilter : Str) :
    let r := getSubgraph order (some (G, E)) projectId centerNodeId radius nodeTypeFilter
      edgeTypeFilter
    (∀ id, id ∈ r.nodes.map (·.id) ↔
      (∃ e ∈ E.rows, e.id = id ∧ e.projectId = projectId ∧
        (kindFilter nodeTypeFilter = [] ∨ e.kind ∈ kindFilter nodeTypeFilter)) ∧
      ∃ d : ℕ, IsDistance G.neighbours {centerNodeId} d id ∧ (d : Int) ≤ max 1 (min radius 8)) ∧
    (r.nodes.map (·.id)).Nodup ∧ r.total = r.nodes.length ∧
    ∀ e ∈ r.edges, e.2 ∈ G.getCalleeIds e.1 ∧
      e.1 ∈ r.nodes.map (·.id) ∧ e.2 ∈ r.nodes.map (·.id) := by
  intro r
  have hlabelled := levels_labelled (hopsOf radius) (reached_start G centerNodeId)
  rw [Nat.zero_add] at hlabelled
  refine ⟨fun id => ?_, (ids_sublist ..).nodup (order.nodup _), rfl, by simp [Subgraph.edges]⟩
  have hball : id ∈ order.list
      (levels G (hopsOf radius) (DepthMap.empty.set centerNodeId 0) [centerNodeId]).keys ↔
      ∃ d : ℕ, IsDistance G.neighbours {centerNodeId} d id ∧ (d : Int) ≤ max 1 (min radius 8) := by
    rw [order.mem, DepthMap.mem_keys, Option.isSome_iff_exists]
    refine exists_congr fun d => ?_
    rw [hlabelled.label_iff, ← hopsOf_eq, Int.ofNat_le]
  exact mem_ids.trans ((and_congr hball (subgraphNode_isSome_iff ..)).trans and_comm)

end CodeScope.Query
