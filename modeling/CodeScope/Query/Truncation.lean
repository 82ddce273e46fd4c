import CodeScope.Query.MultiHop

/-! # When a query tells that it left something out

A query for one hop looks at the client's limit before every row, but the limit of its own statement
is not reported. A query for several hops looks at its bounds before it expands a branch: a branch
can give more rows than the limit has left, a bound can be reached with nothing left to report, and
the clamp of the hop range is not reported. The results are always a sublist of the matches
(`results_sublist`), so something is left out exactly when they are fewer. -/

namespace CodeScope.Query

open Text

/-! ## Matches -/

/-- The search over the hops that the text asks for. -/
def requestedQuery (db : QueryDb) (q : GraphQuery) (tgtIds : List ℕ) : HopQuery :=
  { hopQuery db q tgtIds with maxDepth := q.hops.2.toNat }

/-- Everything that a query matches: no limit, no bound, no clamp. -/
def allMatches (order : HashOrder) (db : QueryDb) (projectId : ℕ) (q : GraphQuery) :
    List QueryRow :=
  let srcIds := resolveEntities db.entities projectId q.source
  let tgtIds := resolveEntities db.entities projectId q.target
  if srcIds = [] ∨ tgtIds = [] then []
  else if q.multiHop then
    ((requestedQuery db q tgtIds).branches (order.list srcIds)).flatMap
      (requestedQuery db q tgtIds).emits
  else (matchingRelations db projectId q.edgeType srcIds tgtIds).map (edgeRow db.entities q.edgeType)

/-- The results respect the limit, and the flag tells whether a match is missing. -/
structure HonestRun (order : HashOrder) (db : QueryDb) (projectId : ℕ) (q : GraphQuery) : Prop where
  limit : 0 < q.userLimit →
    ((runQuery order db projectId q).results.length : Int) ≤ q.userLimit
  flag : (runQuery order db projectId q).truncated = true ↔
    (runQuery order db projectId q).results.length < (allMatches order db projectId q).length

/-- What is claimed of a query's text; a text with an error has no results. -/
def Honest (order : HashOrder) (db : QueryDb) (projectId : ℕ) (dsl : Str) : Prop :=
  match parseGraphQuery dsl with
  | .error _ => (executeGraphQuery order (some db) projectId dsl).results = [] ∧
      (executeGraphQuery order (some db) projectId dsl).truncated = false
  | .ok q => HonestRun order db projectId q

/-! ## A pass with its bounds -/

namespace HopQuery

variable (h : HopQuery)

/-- The number of rows of the first branches. -/
def rowsBefore (a : List Branch) (i : ℕ) : ℕ := ((a.take i).flatMap h.emits).length

/-- A bound is reached before the branch with this index. -/
def Reached (a : List Branch) (i : ℕ) : Prop := h.Bounded (i + 1) (h.rowsBefore a i)

/-- How a pass ends: behind all branches, or before the first at which a bound is reached. -/
inductive Ends (a : List Branch) (s : HopSearch) : Prop where
  | complete (unreached : ∀ i < a.length, ¬h.Reached a i) (rows : s.rows = a.flatMap h.emits)
      (flag : s.truncated = false)
  | stopped (i : ℕ) (hi : i < a.length) (reached : h.Reached a i)
      (first : ∀ j < i, ¬h.Reached a j) (rows : s.rows = (a.take i).flatMap h.emits)
      (flag : s.truncated = true)

/-- The pass behind the branches `done`. -/
theorem pass_ends (done a : List Branch) {s : HopSearch} (hs : s.truncated = false)
    (hrows : s.rows = done.flatMap h.emits) (hexpansions : s.expansions = done.length)
    (hdone : ∀ j < done.length, ¬h.Reached (done ++ a) j) :
    h.Ends (done ++ a) (h.pass a s) := by
  induction a generalizing done s with
  | nil =>
      rw [List.append_nil] at hdone ⊢
      exact .complete hdone hrows hs
  | cons e a ih =>
      have htake : (done ++ e :: a).take done.length = done := by
        rw [List.take_left]
      have hreached : h.Reached (done ++ e :: a) done.length ↔
          h.Bounded (s.expansions + 1) s.rows.length := by
        rw [Reached, rowsBefore, htake, ← hrows, hexpansions]
      rw [pass]
      by_cases hbound : h.Bounded (s.expansions + 1) s.rows.length
      · rw [if_pos hbound]
        refine .stopped done.length ?_ (hreached.mpr hbound) hdone ?_ rfl
        · simp
        · rw [htake]
          exact hrows
      · rw [if_neg hbound, List.append_cons]
        refine ih (done ++ [e]) hs ?_ ?_ ?_
        · simp [hrows]
        · simp [hexpansions]
        · intro j hj
          rw [← List.append_cons]
          rw [List.length_append, List.length_singleton] at hj
          rcases Nat.lt_or_ge j done.length with hlt | hge
          · exact hdone j hlt
          · obtain rfl : j = done.length := by omega
            rw [hreached]
            exact hbound

end HopQuery

/-! ## The condition -/

/-- When a query for several hops is honest, over the branches that it can expand. If no bound is
    reached, the matches must fit into the limit, and none may need more hops than the clamp
    allows. If one is reached, the rows before it must fit into the limit, and a match must be
    left. -/
structure HopsHonest (h : HopQuery) (a : List Branch) (matchCount : ℕ) : Prop where
  complete : (∀ i < a.length, ¬h.Reached a i) →
    (0 < h.userLimit → (h.rowsBefore a a.length : Int) ≤ h.userLimit) ∧
      matchCount ≤ h.rowsBefore a a.length
  stopped : ∀ i < a.length, h.Reached a i → (∀ j < i, ¬h.Reached a j) →
    (0 < h.userLimit → (h.rowsBefore a i : Int) ≤ h.userLimit) ∧ h.rowsBefore a i < matchCount

/-- When the answer to a text is honest. -/
def HonestWhen (order : HashOrder) (db : QueryDb) (projectId : ℕ) (dsl : Str) : Prop :=
  match parseGraphQuery dsl with
  | .error _ => True
  | .ok q =>
    let srcIds := resolveEntities db.entities projectId q.source
    let tgtIds := resolveEntities db.entities projectId q.target
    srcIds = [] ∨ tgtIds = [] ∨
      if q.multiHop then
        HopsHonest (hopQuery db q tgtIds) ((hopQuery db q tgtIds).branches (order.list srcIds))
          (allMatches order db projectId q).length
      else
        (matchingRelations db projectId q.edgeType srcIds tgtIds).length ≤ kSingleHopRows ∨
          (0 < q.userLimit ∧ q.userLimit < kSingleHopRows)

/-- The two parts of honesty for a search that has ended. -/
theorem hopsHonest_iff {h : HopQuery} {a : List Branch} {s : HopSearch} (hends : h.Ends a s)
    (matchCount : ℕ) :
    ((0 < h.userLimit → (s.rows.length : Int) ≤ h.userLimit) ∧
      (s.truncated = true ↔ s.rows.length < matchCount)) ↔ HopsHonest h a matchCount := by
  cases hends with
  | complete unreached rows flag =>
      have hcount : s.rows.length = h.rowsBefore a a.length := by
        rw [HopQuery.rowsBefore, List.take_length, rows]
      have hflag : (s.truncated = true ↔ s.rows.length < matchCount) ↔
          matchCount ≤ s.rows.length := by
        rw [flag, iff_comm, ← not_lt]
        simp
      rw [hflag, hcount]
      exact ⟨fun hh => ⟨fun _ => hh, fun i hi hreached _ => absurd hreached (unreached i hi)⟩,
        fun hh => hh.complete unreached⟩
  | stopped i hi reached first rows flag =>
      have hcount : s.rows.length = h.rowsBefore a i := by
        rw [HopQuery.rowsBefore, rows]
      have hflag : (s.truncated = true ↔ s.rows.length < matchCount) ↔
          s.rows.length < matchCount := by
        rw [flag]
        simp
      rw [hflag, hcount]
      refine ⟨fun hh => ⟨fun hall => absurd reached (hall i hi), ?_⟩,
        fun hh => hh.stopped i hi reached first⟩
      intro j hj hreached hfirst
      have hij : j = i := by
        rcases Nat.lt_trichotomy j i with hlt | heq | hgt
        · exact absurd hreached (first j hlt)
        · exact heq
        · exact absurd reached (hfirst i hgt)
      rw [hij]
      exact hh

/-! ## One hop -/

theorem singleHop_honest_iff (userLimit : Int) (rows : List QueryRow) :
    ((0 < userLimit →
        ((takeRows userLimit 0 (rows.take kSingleHopRows)).1.length : Int) ≤ userLimit) ∧
      ((takeRows userLimit 0 (rows.take kSingleHopRows)).2 = true ↔
        (takeRows userLimit 0 (rows.take kSingleHopRows)).1.length < rows.length)) ↔
      rows.length ≤ kSingleHopRows ∨ (0 < userLimit ∧ userLimit < kSingleHopRows) := by
  obtain ⟨hnone, hsome⟩ := takeRows_eq userLimit 0 (rows.take kSingleHopRows)
  by_cases hlimit : 0 < userLimit
  · rw [hsome hlimit (Nat.zero_le _)]
    simp only [List.length_take, Nat.zero_add, decide_eq_true_eq, Nat.sub_zero]
    omega
  · rw [hnone (Int.not_lt.mp hlimit)]
    simp only [List.length_take, Bool.false_eq_true, false_iff]
    omega

/-! ## The results are matches -/

namespace HopQuery

variable (h : HopQuery)

theorem level_withDepth {start k m : ℕ} (hk : k < h.maxDepth) (hm : h.maxDepth ≤ m) :
    HopQuery.level { h with maxDepth := m } start k = h.level start k := by
  induction k with
  | zero => rfl
  | succ k ih =>
      rw [level, level, ih (by omega), List.flatMap_congr]
      intro e he
      have hdepth := h.depth_level he
      have htest : ∀ n, (e.depth < m ∧ n ∉ h.tgtIds) ↔ (e.depth < h.maxDepth ∧ n ∉ h.tgtIds) := by
        intro n
        rw [hdepth]
        exact and_congr_left fun _ => by omega
      simp only [opens, htest]
      rfl

theorem branches_sublist (starts : List ℕ) {m : ℕ} (hm : h.maxDepth ≤ m) :
    (h.branches starts).Sublist (HopQuery.branches { h with maxDepth := m } starts) := by
  have hsource (start : ℕ) : ((List.range h.maxDepth).flatMap (h.level start)).Sublist
      ((List.range m).flatMap (HopQuery.level { h with maxDepth := m } start)) := by
    have hsame : (List.range h.maxDepth).flatMap (h.level start) =
        (List.range h.maxDepth).flatMap (HopQuery.level { h with maxDepth := m } start) := by
      refine List.flatMap_congr fun k hk => ?_
      exact (h.level_withDepth (List.mem_range.mp hk) hm).symm
    rw [hsame]
    obtain ⟨left, rfl⟩ := Nat.exists_eq_add_of_le hm
    rw [List.range_add, List.flatMap_append]
    exact List.sublist_append_left _ _
  induction starts with
  | nil => exact List.Sublist.refl _
  | cons start starts ih =>
      rw [branches, branches, List.flatMap_cons, List.flatMap_cons]
      exact (hsource start).append ih

theorem Ends.rows_take {a : List Branch} {s : HopSearch} (hends : h.Ends a s) :
    ∃ i, s.rows = (a.take i).flatMap h.emits := by
  cases hends with
  | complete _ rows _ => exact ⟨a.length, by rw [List.take_length, rows]⟩
  | stopped i _ _ _ rows _ => exact ⟨i, rows⟩

end HopQuery

/-- **When a query is honest about its limits.** -/
theorem limits_honest_iff (order : HashOrder) (db : QueryDb) (projectId : ℕ) (dsl : Str) :
    Honest order db projectId dsl ↔ HonestWhen order db projectId dsl := by
  rw [Honest, HonestWhen]
  cases hparse : parseGraphQuery dsl with
  | error message =>
      refine iff_of_true ?_ trivial
      simp [executeGraphQuery, hparse, errorResponse]
  | ok q =>
      have hdef : HonestRun order db projectId q ↔
          (0 < q.userLimit →
            ((runQuery order db projectId q).results.length : Int) ≤ q.userLimit) ∧
          ((runQuery order db projectId q).truncated = true ↔
            (runQuery order db projectId q).results.length <
              (allMatches order db projectId q).length) :=
        ⟨fun hh => ⟨hh.limit, hh.flag⟩, fun hh => ⟨hh.1, hh.2⟩⟩
      dsimp only
      rw [hdef]
      simp only [runQuery, allMatches]
      generalize resolveEntities db.entities projectId q.source = srcIds
      generalize resolveEntities db.entities projectId q.target = tgtIds
      by_cases hempty : srcIds = [] ∨ tgtIds = []
      · simp only [if_pos hempty, emptyResponse]
        refine iff_of_true ⟨fun hlimit => ?_, by simp⟩ (or_assoc.mp (.inl hempty))
        exact Int.le_of_lt hlimit
      · rw [← or_assoc, or_iff_right hempty]
        simp only [if_neg hempty]
        by_cases hmulti : q.multiHop = true
        · have hpos : 0 < (hopQuery db q tgtIds).maxDepth := by
            have hmax := (one_le_maxDepth hparse).2
            simp only [hopQuery]
            omega
          simp only [if_pos hmulti, multiHop]
          rw [HopQuery.hopSources_eq _ _ hpos rfl]
          have hends := (hopQuery db q tgtIds).pass_ends [] ((hopQuery db q tgtIds).branches
            (order.list srcIds)) (s := ⟨0, [], false⟩) rfl rfl rfl (by simp)
          exact hopsHonest_iff hends _
        · simp only [if_neg hmulti, singleHop]
          have hone := singleHop_honest_iff q.userLimit
            ((matchingRelations db projectId q.edgeType srcIds tgtIds).map
              (edgeRow db.entities q.edgeType))
          rw [← List.map_take, List.length_map] at hone
          rw [List.length_map]
          exact hone

/-- **What a query reports are matches, in their order.** -/
theorem results_sublist (order : HashOrder) (db : QueryDb) (projectId : ℕ) {dsl : Str}
    {q : GraphQuery} (hparse : parseGraphQuery dsl = .ok q) :
    (runQuery order db projectId q).results.Sublist (allMatches order db projectId q) := by
  simp only [runQuery, allMatches]
  generalize resolveEntities db.entities projectId q.source = srcIds
  generalize resolveEntities db.entities projectId q.target = tgtIds
  by_cases hempty : srcIds = [] ∨ tgtIds = []
  · simp only [if_pos hempty, emptyResponse]
    exact List.Sublist.refl _
  · simp only [if_neg hempty]
    by_cases hmulti : q.multiHop = true
    · obtain ⟨-, hmax⟩ := one_le_maxDepth hparse
      have hpos : 0 < (hopQuery db q tgtIds).maxDepth := by
        simp only [hopQuery]
        omega
      have hclamp : (hopQuery db q tgtIds).maxDepth ≤ q.hops.2.toNat := by
        simp only [hopQuery, GraphQuery.maxDepth]
        split_ifs <;> omega
      simp only [if_pos hmulti, multiHop]
      rw [HopQuery.hopSources_eq _ _ hpos rfl]
      have hends := (hopQuery db q tgtIds).pass_ends [] ((hopQuery db q tgtIds).branches
        (order.list srcIds)) (s := ⟨0, [], false⟩) rfl rfl rfl (by simp)
      obtain ⟨i, hrows⟩ := hends.rows_take
      rw [hrows]
      exact ((List.take_sublist i _).trans
        ((hopQuery db q tgtIds).branches_sublist _ hclamp)).flatMap _
    · simp only [if_neg hmulti, singleHop]
      rw [List.map_take]
      refine List.Sublist.trans ?_ (List.take_sublist kSingleHopRows _)
      generalize ((matchingRelations db projectId q.edgeType srcIds tgtIds).map _).take _ = rows
      obtain ⟨hnone, hsome⟩ := takeRows_eq q.userLimit 0 rows
      by_cases hlimit : 0 < q.userLimit
      · rw [hsome hlimit (Nat.zero_le _)]
        exact List.take_sublist _ _
      · rw [hnone (Int.not_lt.mp hlimit)]

theorem results_sublist_line : (runQuery insertionOrder lineDb 1 lineQuery).results.Sublist
    (allMatches insertionOrder lineDb 1 lineQuery) :=
  results_sublist insertionOrder lineDb 1 parse_lineQuery

/-! ## A function with two callees -/

/-- `a` calls `b` and `c`. -/
def fanGraph : CallGraph where
  getCalleeIds n := if n = 1 then [2, 3] else []
  getCallerIds n := if n = 2 ∨ n = 3 then [1] else []
  transpose := by
    intro a b
    split_ifs <;> simp <;> omega
  nodes := {2, 3}
  callee_mem := by
    intro a b hb
    split_ifs at hb <;> simp_all

def fanDb : QueryDb where
  entities := lineEntities
  relations := [⟨1, 1, 1, 2, 1⟩, ⟨2, 1, 1, 3, 1⟩]
  graph := fanGraph
  in_step := by
    intro e he b
    simp only [lineEntities, List.mem_cons, List.not_mem_nil, or_false] at he
    rcases he with rfl | rfl | rfl
    · simp [fanGraph]
      omega
    · simp [fanGraph]
    · simp [fanGraph]

/-- The limit is not looked at between the callees of one function. -/
theorem limit_exceeded : ¬Honest insertionOrder fanDb 1
    (str "MATCH (Function:a)-[Calls*1..1]->(Function) LIMIT 1") := by
  have hparse : parseGraphQuery (str "MATCH (Function:a)-[Calls*1..1]->(Function) LIMIT 1") =
      .ok { lineQuery with hops := (1, 1), userLimit := 1 } := by decide +kernel
  have hrows : (runQuery insertionOrder fanDb 1
      { lineQuery with hops := (1, 1), userLimit := 1 }).results.length = 2 := by decide +kernel
  rw [Honest, hparse]
  intro h
  have hlimit := h.limit (by decide)
  rw [hrows] at hlimit
  exact absurd hlimit (by decide)

end CodeScope.Query
