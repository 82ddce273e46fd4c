import CodeScope.Query.QueryRun

/-! # What a query for several hops reports

The queue works off the branches level by level (`hopLoop_eq`), so the search is one pass over a
list of branches that stops at the first bound. Without a bound every row of every branch is
reported; the branches of level `k` are the chains of `k` calls that meet no target on their way. -/

namespace CodeScope.Query

open Text Walks

namespace HopQuery

variable (h : HopQuery)

/-! ## The order of the branches -/

/-- The branches of a source, `k` calls away from it. -/
def level (start : ℕ) : ℕ → List Branch
  | 0 => [⟨start, [], 1⟩]
  | k + 1 => (level start k).flatMap h.opens

/-- The branches that the search expands, in its order. -/
def branches (starts : List ℕ) : List Branch :=
  starts.flatMap fun start => (List.range h.maxDepth).flatMap (h.level start)

/-- One pass over branches. -/
def pass : List Branch → HopSearch → HopSearch
  | [], s => s
  | e :: rest, s =>
    if h.Bounded (s.expansions + 1) s.rows.length then
      { s with expansions := s.expansions + 1, truncated := true }
    else pass rest { s with expansions := s.expansions + 1, rows := s.rows ++ h.emits e }

/-- Whether the search goes on behind a pass. -/
def andThen (s : HopSearch) (f : HopSearch → HopSearch) : HopSearch :=
  if s.truncated then s else f s

variable {s : HopSearch} {e : Branch} {start : ℕ}

theorem pass_append (a b : List Branch) (hs : s.truncated = false) :
    h.pass (a ++ b) s = andThen (h.pass a s) (h.pass b) := by
  induction a generalizing s with
  | nil => simp [pass, andThen, hs]
  | cons e a ih =>
      rw [List.cons_append, pass, pass]
      by_cases hbound : h.Bounded (s.expansions + 1) s.rows.length
      · rw [if_pos hbound, if_pos hbound]
        rfl
      · rw [if_neg hbound, if_neg hbound]
        exact ih hs

theorem depth_opens {e' : Branch} (he : e' ∈ h.opens e) : e'.depth = e.depth + 1 := by
  obtain ⟨n, -, rfl⟩ := List.mem_map.mp he
  rfl

theorem depth_level {k : ℕ} (he : e ∈ h.level start k) : e.depth = k + 1 := by
  induction k generalizing e with
  | zero =>
      rw [level, List.mem_singleton] at he
      rw [he]
  | succ k ih =>
      obtain ⟨e₀, he₀, hopen⟩ := List.mem_flatMap.mp he
      rw [h.depth_opens hopen, ih he₀]

theorem opens_eq_nil (he : h.maxDepth ≤ e.depth) : h.opens e = [] := by
  rw [opens, List.map_eq_nil_iff, List.filter_eq_nil_iff]
  intro n _ hopen
  have hlt : e.depth < h.maxDepth := by simpa using (of_decide_eq_true hopen).1
  omega

/-- The queue: first what is left of a level, then what it opened. -/
theorem hopLoop_append (a b : List Branch) (ha : ∀ e ∈ a, e.depth ≤ h.maxDepth)
    (hs : s.truncated = false) :
    h.hopLoop (a ++ b) s = andThen (h.pass a s) (h.hopLoop (b ++ a.flatMap h.opens)) := by
  induction a generalizing b s with
  | nil => simp [pass, andThen, hs]
  | cons e a ih =>
      have hdepth : ¬h.maxDepth < e.depth := Nat.not_lt_of_le (ha e List.mem_cons_self)
      rw [List.cons_append, hopLoop, if_neg hdepth, pass]
      by_cases hbound : h.Bounded (s.expansions + 1) s.rows.length
      · rw [if_pos hbound, if_pos hbound]
        rfl
      · rw [if_neg hbound, if_neg hbound, foldl_visitCallee, List.append_assoc]
        have hrest := ih (b ++ h.opens e) (fun e' he' => ha e' (List.mem_cons_of_mem e he'))
          (s := ⟨s.expansions + 1, s.rows ++ h.emits e, s.truncated⟩) hs
        rw [hrest, List.flatMap_cons, List.append_assoc]

theorem hopLoop_nil (s : HopSearch) : h.hopLoop [] s = s := by rw [hopLoop]

theorem level_eq_nil {k : ℕ} (hk : h.maxDepth ≤ k) (hpos : 0 < h.maxDepth) :
    h.level start k = [] := by
  cases k with
  | zero => omega
  | succ k =>
      rw [level, List.flatMap_eq_nil_iff]
      intro e he
      exact h.opens_eq_nil (by rw [h.depth_level he]; exact hk)

/-- **The queue works off level after level.** -/
theorem hopLoop_eq (start : ℕ) (hpos : 0 < h.maxDepth) (hs : s.truncated = false) :
    h.hopLoop [⟨start, [], 1⟩] s =
      h.pass ((List.range h.maxDepth).flatMap (h.level start)) s := by
  have hall : ∀ left k, k + left = h.maxDepth → ∀ s : HopSearch, s.truncated = false →
      h.hopLoop (h.level start k) s = h.pass ((List.range' k left).flatMap (h.level start)) s := by
    intro left
    induction left with
    | zero =>
        intro k hk s _
        rw [h.level_eq_nil (by omega) hpos, hopLoop_nil]
        rfl
    | succ left ih =>
        intro k hk s hs
        have hdepth : ∀ e ∈ h.level start k, e.depth ≤ h.maxDepth := by
          intro e he
          rw [h.depth_level he]
          omega
        have hnext := h.hopLoop_append (h.level start k) [] hdepth hs
        rw [List.append_nil, List.nil_append] at hnext
        rw [hnext, List.range'_succ, List.flatMap_cons, h.pass_append _ _ hs]
        simp only [andThen]
        by_cases htruncated : (h.pass (h.level start k) s).truncated = true
        · rw [if_pos htruncated, if_pos htruncated]
        · rw [if_neg htruncated, if_neg htruncated]
          exact ih (k + 1) (by omega) _ (Bool.eq_false_of_not_eq_true htruncated)
  have hzero := hall h.maxDepth 0 (Nat.zero_add _) s hs
  rw [← List.range_eq_range'] at hzero
  exact hzero

theorem hopSources_eq (starts : List ℕ) (hpos : 0 < h.maxDepth) (hs : s.truncated = false) :
    h.hopSources starts s = h.pass (h.branches starts) s := by
  induction starts generalizing s with
  | nil => rfl
  | cons start starts ih =>
      rw [hopSources, h.hopLoop_eq start hpos hs, branches, List.flatMap_cons,
        h.pass_append _ _ hs]
      simp only [andThen]
      by_cases htruncated :
          (h.pass ((List.range h.maxDepth).flatMap (h.level start)) s).truncated = true
      · rw [if_pos htruncated, if_pos htruncated]
      · rw [if_neg htruncated, if_neg htruncated]
        exact ih (Bool.eq_false_of_not_eq_true htruncated)

theorem pass_rows {a : List Branch} (hs : (h.pass a s).truncated = false) :
    (h.pass a s).rows = s.rows ++ a.flatMap h.emits := by
  induction a generalizing s with
  | nil => simp [pass]
  | cons e a ih =>
      rw [pass] at hs ⊢
      by_cases hbound : h.Bounded (s.expansions + 1) s.rows.length
      · rw [if_pos hbound] at hs
        exact absurd hs (by simp)
      · rw [if_neg hbound] at hs ⊢
        rw [ih hs, List.flatMap_cons, List.append_assoc]

/-! ## The branches of a level -/

/-- A chain of calls that meets no target behind its start. -/
structure IsOpen (start : ℕ) (e : Branch) : Prop where
  start_eq : e.start = start
  path : IsPath h.callees start e.node e.path
  avoids : ∀ v ∈ e.steps, v ∉ h.tgtIds

theorem path_extend (e : Branch) (n : ℕ) : (e.extend n).path = e.path ++ [n] := rfl

theorem isOpen_start (start : ℕ) : h.IsOpen start ⟨start, [], 1⟩ :=
  ⟨rfl, isPath_singleton start, by simp⟩

theorem IsOpen.extend (he : h.IsOpen start e) {n : ℕ} (hn : n ∈ h.callees e.node)
    (htarget : n ∉ h.tgtIds) : h.IsOpen start (e.extend n) := by
  refine ⟨he.start_eq, ?_, ?_⟩
  · rw [path_extend, node_extend]
    exact he.path.snoc hn
  · intro v hv
    rcases List.mem_append.mp hv with hv | hv
    · exact he.avoids v hv
    · rw [List.mem_singleton.mp hv]
      exact htarget

theorem getLast_path (e : Branch) : e.path.getLast? = some e.node := by
  rw [Branch.path, Branch.node, List.getLast?_cons, List.getLastD_eq_getLast?]

variable {h} in
theorem IsOpen.init {n depth depth' : ℕ} {steps : List ℕ}
    (hopen : h.IsOpen start ⟨start, steps ++ [n], depth⟩) :
    h.IsOpen start ⟨start, steps, depth'⟩ ∧
      n ∈ h.callees (Branch.node ⟨start, steps, depth'⟩) := by
  have hpath : IsPath h.callees start (Branch.node ⟨start, steps ++ [n], depth⟩)
      ((start :: steps) ++ [n]) := hopen.path
  obtain ⟨-, d, hinit, hcallee⟩ := hpath.init (List.cons_ne_nil _ _)
  have hd : d = Branch.node ⟨start, steps, depth'⟩ :=
    Option.some.inj (hinit.last.symm.trans (getLast_path ⟨start, steps, depth'⟩))
  rw [← hd]
  exact ⟨⟨rfl, hd ▸ hinit, fun v hv => hopen.avoids v (List.mem_append_left _ hv)⟩, hcallee⟩

/-- The branches of a level are the chains of that many calls that meet no target. -/
theorem mem_level {k : ℕ} (hk : k < h.maxDepth) :
    e ∈ h.level start k ↔ h.IsOpen start e ∧ e.steps.length = k ∧ e.depth = k + 1 := by
  induction k generalizing e with
  | zero =>
      rw [level, List.mem_singleton]
      constructor
      · rintro rfl
        exact ⟨h.isOpen_start start, rfl, rfl⟩
      · rintro ⟨hopen, hsteps, hdepth⟩
        obtain ⟨s, steps, depth⟩ := e
        obtain rfl : s = start := hopen.start_eq
        obtain rfl : steps = [] := List.length_eq_zero_iff.mp hsteps
        obtain rfl : depth = 1 := hdepth
        rfl
  | succ k ih =>
      rw [level, List.mem_flatMap]
      constructor
      · rintro ⟨e₀, he₀, hopens⟩
        obtain ⟨hopen, hsteps, hdepth⟩ := (ih (by omega)).mp he₀
        obtain ⟨n, hn, rfl⟩ := List.mem_map.mp hopens
        obtain ⟨hcallee, htest⟩ := List.mem_filter.mp hn
        have htarget : n ∉ h.tgtIds := (of_decide_eq_true htest).2
        exact ⟨hopen.extend h hcallee htarget, by simp [Branch.extend, hsteps],
          by simp [Branch.extend, hdepth]⟩
      · rintro ⟨hopen, hsteps, hdepth⟩
        obtain ⟨s, steps, depth⟩ := e
        obtain rfl : depth = k + 2 := hdepth
        obtain rfl : s = start := hopen.start_eq
        rcases List.eq_nil_or_concat' steps with rfl | ⟨steps, n, rfl⟩
        · exact absurd hsteps (by simp)
        · have hlength : steps.length = k := by simpa using hsteps
          obtain ⟨hinit, hcallee⟩ := hopen.init
          refine ⟨⟨s, steps, k + 1⟩, (ih (by omega)).mpr ⟨hinit, hlength, rfl⟩, ?_⟩
          have htarget := hopen.avoids n (by simp)
          have htest : k + 1 < h.maxDepth ∧ n ∉ h.tgtIds := ⟨hk, htarget⟩
          exact List.mem_map.mpr ⟨n, List.mem_filter.mpr ⟨hcallee, decide_eq_true htest⟩, rfl⟩

/-! ## The rows of all branches -/

/-- A chain of calls from `s` to a target `t` that meets no other target behind `s`. -/
structure IsChain (s t : ℕ) (chain : List ℕ) : Prop where
  path : IsPath h.callees s t chain
  target : t ∈ h.tgtIds
  avoids : ∀ v ∈ chain.tail.dropLast, v ∉ h.tgtIds

theorem mem_branches {starts : List ℕ} : e ∈ h.branches starts ↔
    e.start ∈ starts ∧ h.IsOpen e.start e ∧ e.depth = e.steps.length + 1 ∧
      e.depth ≤ h.maxDepth := by
  rw [branches, List.mem_flatMap]
  constructor
  · rintro ⟨start, hstart, he⟩
    obtain ⟨k, hk, he⟩ := List.mem_flatMap.mp he
    have hk := List.mem_range.mp hk
    obtain ⟨hopen, hsteps, hdepth⟩ := (h.mem_level hk).mp he
    obtain rfl := hopen.start_eq
    exact ⟨hstart, hopen, by rw [hsteps, hdepth], by omega⟩
  · rintro ⟨hstart, hopen, hdepth, hle⟩
    have hk : e.steps.length < h.maxDepth := by omega
    refine ⟨e.start, hstart, List.mem_flatMap.mpr ⟨e.steps.length, List.mem_range.mpr hk, ?_⟩⟩
    exact (h.mem_level hk).mpr ⟨hopen, rfl, hdepth⟩

theorem mem_emits {row : QueryRow} : row ∈ h.emits e ↔
    ∃ n ∈ h.callees e.node, n ∈ h.tgtIds ∧ h.minDepth ≤ e.depth ∧ row = h.hopRow e n := by
  rw [emits, List.mem_map]
  constructor
  · rintro ⟨n, hn, rfl⟩
    obtain ⟨hcallee, htest⟩ := List.mem_filter.mp hn
    obtain ⟨htarget, hdepth⟩ : n ∈ h.tgtIds ∧ h.minDepth ≤ e.depth := of_decide_eq_true htest
    exact ⟨n, hcallee, htarget, hdepth, rfl⟩
  · rintro ⟨n, hcallee, htarget, hdepth, rfl⟩
    exact ⟨n, List.mem_filter.mpr ⟨hcallee, decide_eq_true ⟨htarget, hdepth⟩⟩, rfl⟩

theorem IsOpen.isChain (hopen : h.IsOpen e.start e) {n : ℕ} (hn : n ∈ h.callees e.node)
    (htarget : n ∈ h.tgtIds) : h.IsChain e.start n (e.extend n).path := by
  refine ⟨hopen.path.snoc hn, htarget, ?_⟩
  have hinner : (e.extend n).path.tail.dropLast = e.steps := by
    simp [Branch.path, Branch.extend]
  rw [hinner]
  exact hopen.avoids

/-- A chain comes from a branch. -/
theorem IsChain.isOpen {s t : ℕ} {chain : List ℕ} (hchain : h.IsChain s t chain)
    (hlong : 2 ≤ chain.length) : ∃ e : Branch, e.start = s ∧ h.IsOpen s e ∧
      e.depth = e.steps.length + 1 ∧ t ∈ h.callees e.node ∧ chain = (e.extend t).path := by
  cases chain with
  | nil => exact absurd hlong (by simp)
  | cons a rest =>
      obtain rfl : a = s := by simpa using hchain.path.head
      rcases List.eq_nil_or_concat' rest with rfl | ⟨steps, n, rfl⟩
      · exact absurd hlong (by simp)
      · have hpath : IsPath h.callees a t ((a :: steps) ++ [n]) := hchain.path
        obtain ⟨rfl, d, hinit, hcallee⟩ := hpath.init (List.cons_ne_nil _ _)
        have hd : d = Branch.node ⟨a, steps, steps.length + 1⟩ :=
          Option.some.inj (hinit.last.symm.trans (getLast_path ⟨a, steps, steps.length + 1⟩))
        refine ⟨⟨a, steps, steps.length + 1⟩, rfl, ⟨rfl, hd ▸ hinit, ?_⟩, rfl, hd ▸ hcallee, rfl⟩
        have havoids := hchain.avoids
        rw [List.tail_cons, List.dropLast_concat] at havoids
        exact havoids

/-- **The rows of all branches are the chains**, of as many calls as the bounds allow. -/
theorem reported_iff (starts : List ℕ) (hmin : 1 ≤ h.minDepth) {s t : ℕ} :
    (∃ row ∈ (h.branches starts).flatMap h.emits, row.source.id = s ∧ row.target.id = t) ↔
      s ∈ starts ∧ ∃ chain, h.IsChain s t chain ∧ h.minDepth + 1 ≤ chain.length ∧
        chain.length ≤ h.maxDepth + 1 := by
  constructor
  · rintro ⟨row, hrow, hsource, htarget⟩
    obtain ⟨e, he, hemit⟩ := List.mem_flatMap.mp hrow
    obtain ⟨hstart, hopen, hdepth, hle⟩ := h.mem_branches.mp he
    obtain ⟨n, hcallee, hn, hmin, rfl⟩ := h.mem_emits.mp hemit
    obtain rfl : e.start = s := (nodeInfo_id h.db.entities e.start).symm.trans hsource
    obtain rfl : n = t := (nodeInfo_id h.db.entities n).symm.trans htarget
    have hlength : (e.extend n).path.length = e.depth + 1 := by
      simp [Branch.path, Branch.extend, hdepth]
    exact ⟨hstart, _, hopen.isChain h hcallee hn, by omega, by omega⟩
  · rintro ⟨hs, chain, hchain, hlong, hshort⟩
    obtain ⟨e, rfl, hopen, hdepth, hcallee, rfl⟩ := hchain.isOpen h (by omega)
    have hlength : (e.extend t).path.length = e.depth + 1 := by
      simp [Branch.path, Branch.extend, hdepth]
    refine ⟨h.hopRow e t, List.mem_flatMap.mpr ⟨e, ?_, ?_⟩, nodeInfo_id .., nodeInfo_id ..⟩
    · exact h.mem_branches.mpr ⟨hs, hopen, hdepth, by omega⟩
    · exact h.mem_emits.mpr ⟨t, hcallee, hchain.target, by omega, rfl⟩

end HopQuery

/-! ## The query -/

variable {projectId : ℕ} {q : GraphQuery} {db : QueryDb} {order : HashOrder}

theorem mem_resolveEntities {E : EntityTable} {f : NodeFilter} {id : ℕ} :
    id ∈ resolveEntities E projectId f ↔ ∃ e ∈ E.rows, e.id = id ∧ f.Matches projectId e := by
  rw [resolveEntities, List.mem_map]
  constructor
  · rintro ⟨e, he, rfl⟩
    obtain ⟨hmem, hmatch⟩ := List.mem_filter.mp he
    exact ⟨e, hmem, rfl, of_decide_eq_true hmatch⟩
  · rintro ⟨e, hmem, rfl, hmatch⟩
    exact ⟨e, List.mem_filter.mpr ⟨hmem, decide_eq_true hmatch⟩, rfl⟩

/-- Without a limit of the client all selected rows are taken; otherwise as many as it allows. -/
theorem takeRows_eq (userLimit : Int) (rowCount : ℕ) (rows : List QueryRow) :
    (userLimit ≤ 0 → takeRows userLimit rowCount rows = (rows, false)) ∧
      (0 < userLimit → rowCount ≤ userLimit.toNat → takeRows userLimit rowCount rows =
        (rows.take (userLimit.toNat - rowCount),
          decide (userLimit.toNat < rowCount + rows.length))) := by
  induction rows generalizing rowCount with
  | nil =>
      refine ⟨fun _ => rfl, fun _ hle => ?_⟩
      rw [takeRows, List.take_nil, List.length_nil, Nat.add_zero,
        decide_eq_false (Nat.not_lt_of_le hle)]
  | cons row rows ih =>
      constructor
      · intro hlimit
        have hgo : ¬(0 < userLimit ∧ userLimit ≤ rowCount) := by omega
        rw [takeRows, if_neg hgo]
        simp only
        rw [(ih _).1 hlimit]
      · intro hlimit hle
        rw [takeRows]
        by_cases hstop : userLimit ≤ rowCount
        · have heq : userLimit.toNat - rowCount = 0 := by omega
          have hlt : userLimit.toNat < rowCount + (row :: rows).length := by
            rw [List.length_cons]
            omega
          rw [if_pos ⟨hlimit, hstop⟩, heq, List.take_zero, decide_eq_true hlt]
        · have hsucc : userLimit.toNat - rowCount = userLimit.toNat - (rowCount + 1) + 1 := by omega
          rw [if_neg (fun hboth => hstop hboth.2)]
          simp only
          rw [(ih _).2 hlimit (by omega), hsucc, List.take_succ_cons, List.length_cons,
            Nat.add_right_comm, Nat.add_assoc]

theorem parseEdge_hops (edgeRaw : Str) :
    1 ≤ (parseEdge edgeRaw).2.2.1 ∧ (parseEdge edgeRaw).2.2.1 ≤ (parseEdge edgeRaw).2.2.2 := by
  rw [parseEdge]
  split
  · exact ⟨Int.le_refl 1, Int.le_refl 1⟩
  · exact requestedHops_bounds _

theorem bind_eq_ok {α β : Type} {x : Except Str α} {f : α → Except Str β} {b : β}
    (h : x >>= f = .ok b) : ∃ a, x = .ok a ∧ f a = .ok b := by
  cases x with
  | error e => exact absurd h (by simp [bind, Except.bind])
  | ok a => exact ⟨a, rfl, h⟩

/-- A parsed query asks for at least one hop. -/
theorem parsed_hops {dsl : Str} (h : parseGraphQuery dsl = .ok q) :
    1 ≤ q.hops.1 ∧ q.hops.1 ≤ q.hops.2 := by
  rw [parseGraphQuery] at h
  iterate 3 obtain ⟨-, -, h⟩ := bind_eq_ok h
  obtain ⟨⟨srcSpec, q₁⟩, -, h⟩ := bind_eq_ok h
  obtain ⟨-, -, h⟩ := bind_eq_ok h
  obtain ⟨⟨edgeRaw, q₂⟩, -, h⟩ := bind_eq_ok h
  have hedge := parseEdge_hops (trim edgeRaw)
  dsimp only at h
  generalize parseEdge (trim edgeRaw) = edge at h hedge
  obtain ⟨edgeSpec, multiHop, hops⟩ := edge
  iterate 2 obtain ⟨-, -, h⟩ := bind_eq_ok h
  obtain ⟨⟨tgtSpec, q₃⟩, -, h⟩ := bind_eq_ok h
  dsimp only at h
  generalize parseNodeSpec (trim srcSpec) = source at h
  generalize parseNodeSpec (trim tgtSpec) = target at h
  obtain ⟨limit, -, h⟩ := bind_eq_ok h
  obtain ⟨edgeType, -, h⟩ := bind_eq_ok h
  obtain ⟨srcTypeVal, -, h⟩ := bind_eq_ok h
  obtain ⟨tgtTypeVal, -, h⟩ := bind_eq_ok h
  rw [← Except.ok.inj h]
  exact hedge

theorem one_le_maxDepth {dsl : Str} (h : parseGraphQuery dsl = .ok q) :
    1 ≤ q.minDepth ∧ 1 ≤ q.maxDepth := by
  obtain ⟨hmin, hmax⟩ := parsed_hops h
  refine ⟨hmin, ?_⟩
  rw [GraphQuery.maxDepth]
  split_ifs
  · exact (by decide : (1 : Int) ≤ kMultiHopMaxDepth)
  · omega

/-- A chain of calls that a query for several hops asks for. Behind its start it meets the target
    filter only at its end. -/
structure IsCallChain (db : QueryDb) (projectId : ℕ) (q : GraphQuery) (s t : ℕ)
    (chain : List ℕ) : Prop where
  path : IsPath db.graph.getCalleeIds s t chain
  source : ∃ e ∈ db.entities.rows, e.id = s ∧ q.source.Matches projectId e
  target : ∃ e ∈ db.entities.rows, e.id = t ∧ q.target.Matches projectId e
  avoids : ∀ v ∈ chain.tail.dropLast,
    ¬∃ e ∈ db.entities.rows, e.id = v ∧ q.target.Matches projectId e

theorem isCallChain_iff {s t : ℕ} {chain : List ℕ} : IsCallChain db projectId q s t chain ↔
      s ∈ resolveEntities db.entities projectId q.source ∧
        (hopQuery db q (resolveEntities db.entities projectId q.target)).IsChain s t chain := by
  constructor
  · rintro ⟨hpath, hsource, htarget, havoids⟩
    exact ⟨mem_resolveEntities.mpr hsource, hpath, mem_resolveEntities.mpr htarget,
      fun v hv hmem => havoids v hv (mem_resolveEntities.mp hmem)⟩
  · rintro ⟨hsource, hpath, htarget, havoids⟩
    exact ⟨hpath, mem_resolveEntities.mp hsource, mem_resolveEntities.mp htarget,
      fun v hv hmem => havoids v hv (mem_resolveEntities.mpr hmem)⟩

theorem multiHop_rows {srcIds tgtIds : List ℕ} (hpos : 1 ≤ q.maxDepth)
    (h : (multiHop order db q srcIds tgtIds).2 = false) :
    (multiHop order db q srcIds tgtIds).1 =
      ((hopQuery db q tgtIds).branches (order.list srcIds)).flatMap
        (hopQuery db q tgtIds).emits := by
  have hdepth : 0 < (hopQuery db q tgtIds).maxDepth := by
    simp only [hopQuery]
    omega
  simp only [multiHop] at h ⊢
  rw [HopQuery.hopSources_eq _ _ hdepth rfl] at h ⊢
  rw [HopQuery.pass_rows _ h, List.nil_append]

/-- What a query for several hops reports when it is not truncated. -/
theorem runQuery_multiHop (hmulti : q.multiHop = true) (hmin : 1 ≤ q.minDepth)
    (hmax : 1 ≤ q.maxDepth) (h : (runQuery order db projectId q).truncated = false) {s t : ℕ} :
    (∃ row ∈ (runQuery order db projectId q).results, row.source.id = s ∧ row.target.id = t) ↔
      ∃ chain, IsCallChain db projectId q s t chain ∧ q.minDepth + 1 ≤ chain.length ∧
        chain.length ≤ q.maxDepth + 1 := by
  simp only [isCallChain_iff]
  simp only [runQuery] at h ⊢
  generalize resolveEntities db.entities projectId q.source = srcIds at h ⊢
  generalize resolveEntities db.entities projectId q.target = tgtIds at h ⊢
  by_cases hempty : srcIds = [] ∨ tgtIds = []
  · simp only [if_pos hempty, emptyResponse]
    refine iff_of_false (by simp) ?_
    rintro ⟨chain, ⟨hsource, hchain⟩, -⟩
    rcases hempty with rfl | rfl
    · exact List.not_mem_nil hsource
    · exact List.not_mem_nil hchain.target
  · simp only [if_neg hempty, if_pos hmulti] at h ⊢
    have hone : 1 ≤ (hopQuery db q tgtIds).minDepth := by
      simp only [hopQuery]
      omega
    rw [multiHop_rows hmax h, HopQuery.reported_iff _ _ hone, order.mem, ← exists_and_left]
    refine exists_congr fun chain => ?_
    rw [and_assoc]
    refine and_congr_right fun _ => and_congr_right fun _ => ?_
    simp only [hopQuery]
    omega

/-- What a query for one hop reports when its statement selects everything. -/
theorem runQuery_singleHop (hmulti : q.multiHop = false) (hlimit : q.userLimit = 0)
    (hrows : (matchingRelations db projectId q.edgeType (resolveEntities db.entities projectId q.source) (resolveEntities db.entities projectId q.target)).length ≤ kSingleHopRows)
    {s t : ℕ} :
    (∃ row ∈ (runQuery order db projectId q).results, row.source.id = s ∧ row.target.id = t) ↔
      ∃ r ∈ matchingRelations db projectId q.edgeType
        (resolveEntities db.entities projectId q.source)
        (resolveEntities db.entities projectId q.target), r.sourceId = s ∧ r.targetId = t := by
  simp only [runQuery]
  generalize resolveEntities db.entities projectId q.source = srcIds at hrows ⊢
  generalize resolveEntities db.entities projectId q.target = tgtIds at hrows ⊢
  by_cases hempty : srcIds = [] ∨ tgtIds = []
  · simp only [if_pos hempty, emptyResponse]
    refine iff_of_false (by simp) ?_
    rintro ⟨r, hr, -⟩
    obtain ⟨-, -, hsource, htarget⟩ := of_decide_eq_true (List.mem_filter.mp hr).2
    rcases hempty with rfl | rfl
    · exact List.not_mem_nil hsource
    · exact List.not_mem_nil htarget
  · have hnot : ¬q.multiHop = true := by simp [hmulti]
    simp only [if_neg hempty, if_neg hnot, singleHop]
    rw [(takeRows_eq q.userLimit _ _).1 hlimit.le, List.take_of_length_le hrows]
    constructor
    · rintro ⟨row, hrow, hsource, htarget⟩
      obtain ⟨r, hr, rfl⟩ := List.mem_map.mp hrow
      exact ⟨r, hr, (nodeInfo_id ..).symm.trans hsource, (nodeInfo_id ..).symm.trans htarget⟩
    · rintro ⟨r, hr, rfl, rfl⟩
      exact ⟨_, List.mem_map.mpr ⟨r, hr, rfl⟩, nodeInfo_id .., nodeInfo_id ..⟩

/-- A chain of one call is a relation between two different nodes. -/
theorem isCallChain_pair {s t : ℕ} :
    (∃ chain, IsCallChain db projectId q s t chain ∧ chain.length = 2) ↔
      s ≠ t ∧ ∃ r ∈ matchingRelations db projectId 1
        (resolveEntities db.entities projectId q.source)
        (resolveEntities db.entities projectId q.target), r.sourceId = s ∧ r.targetId = t := by
  constructor
  · rintro ⟨chain, hchain, hlength⟩
    obtain ⟨a, b, rfl⟩ := List.length_eq_two.mp hlength
    obtain rfl : a = s := by simpa using hchain.path.head
    obtain rfl : b = t := by simpa using hchain.path.last
    have hcall : b ∈ db.graph.getCalleeIds a := List.isChain_pair.mp hchain.path.steps
    obtain ⟨e, he, rfl, hmatch⟩ := hchain.source
    obtain ⟨hne, r, hr, hproject, htype, hsource, htarget⟩ := (db.in_step e he b).mp hcall
    refine ⟨hne, r, List.mem_filter.mpr ⟨hr, decide_eq_true ?_⟩, hsource, htarget⟩
    rw [hsource, htarget]
    exact ⟨hproject.trans hmatch.1, .inr htype, mem_resolveEntities.mpr hchain.source,
      mem_resolveEntities.mpr hchain.target⟩
  · rintro ⟨hne, r, hr, rfl, rfl⟩
    obtain ⟨hmem, htest⟩ := List.mem_filter.mp hr
    obtain ⟨hproject, htype, hsource, htarget⟩ := of_decide_eq_true htest
    have htype : r.type = 1 := htype.resolve_left (by decide)
    have hsource := mem_resolveEntities.mp hsource
    obtain ⟨e, he, hid, hmatch⟩ := hsource
    have hcall : r.targetId ∈ db.graph.getCalleeIds e.id := (db.in_step e he r.targetId).mpr
      ⟨by rw [hid]; exact hne, r, hmem, hproject.trans hmatch.1.symm, htype, hid.symm, rfl⟩
    refine ⟨[r.sourceId, r.targetId], ⟨?_, ⟨e, he, hid, hmatch⟩,
      mem_resolveEntities.mp htarget, by simp⟩, rfl⟩
    rw [hid] at hcall
    exact ⟨rfl, rfl, List.isChain_pair.mpr hcall⟩

/-- **A query for several hops over calls.** Unless it is truncated, it reports the pairs that match
    the filters and that are joined by a chain of calls within the hop range, where self-calls do
    not count and the target filter is met at the end only. For a range of one hop these are the
    pairs of the query for one hop, self-calls aside. -/
theorem multiHop_reports (order : HashOrder) (db : QueryDb) (projectId : ℕ) {dsl : Str}
    {q : GraphQuery} (hparse : parseGraphQuery dsl = .ok q) (hmulti : q.multiHop = true)
    (hcalls : q.edgeType = 1)
    (h : (executeGraphQuery order (some db) projectId dsl).truncated = false) (s t : ℕ) :
    ((∃ row ∈ (executeGraphQuery order (some db) projectId dsl).results,
        row.source.id = s ∧ row.target.id = t) ↔
      ∃ chain, IsCallChain db projectId q s t chain ∧ q.minDepth + 1 ≤ chain.length ∧
        chain.length ≤ q.maxDepth + 1) ∧
    (q.hops = (1, 1) → (matchingRelations db projectId 1
        (resolveEntities db.entities projectId q.source)
        (resolveEntities db.entities projectId q.target)).length ≤ kSingleHopRows →
      ((∃ row ∈ (executeGraphQuery order (some db) projectId dsl).results,
          row.source.id = s ∧ row.target.id = t) ↔
        s ≠ t ∧ ∃ row ∈
          (runQuery order db projectId { q with multiHop := false, userLimit := 0 }).results,
          row.source.id = s ∧ row.target.id = t)) := by
  have hrun : executeGraphQuery order (some db) projectId dsl = runQuery order db projectId q := by
    rw [executeGraphQuery, hparse]
  obtain ⟨hmin, hmax⟩ := one_le_maxDepth hparse
  rw [hrun] at h ⊢
  refine ⟨runQuery_multiHop hmulti hmin hmax h, fun hhops hrows => ?_⟩
  have hrange : q.minDepth = 1 ∧ q.maxDepth = 1 := by
    simp [GraphQuery.minDepth, GraphQuery.maxDepth, hhops, kMultiHopMaxDepth]
  rw [runQuery_singleHop (q := { q with multiHop := false, userLimit := 0 }) rfl rfl
    (by rw [hcalls]; exact hrows), runQuery_multiHop hmulti hmin hmax h, hrange.1, hrange.2]
  refine Iff.trans (exists_congr fun chain => and_congr_right fun _ => ?_)
    (isCallChain_pair.trans ?_)
  · omega
  · simp only [hcalls]

/-! ## Three functions in a row -/

/-- `a` calls `b`, and `b` calls `c`. -/
def lineGraph : CallGraph where
  getCalleeIds n := if n = 1 then [2] else if n = 2 then [3] else []
  getCallerIds n := if n = 2 then [1] else if n = 3 then [2] else []
  transpose := by
    intro a b
    split_ifs <;> simp <;> omega
  nodes := {2, 3}
  callee_mem := by
    intro a b hb
    split_ifs at hb <;> simp_all

def lineEntities : EntityTable where
  rows := [⟨1, 1, 0, str "a", [], [], []⟩, ⟨2, 1, 0, str "b", [], [], []⟩,
    ⟨3, 1, 0, str "c", [], [], []⟩]
  ids_nodup := by decide

def lineDb : QueryDb where
  entities := lineEntities
  relations := [⟨1, 1, 1, 2, 1⟩, ⟨2, 1, 2, 3, 1⟩]
  graph := lineGraph
  in_step := by
    intro e he b
    simp only [lineEntities, List.mem_cons, List.not_mem_nil, or_false] at he
    rcases he with rfl | rfl | rfl
    · simp [lineGraph]
      omega
    · simp [lineGraph]
      omega
    · simp [lineGraph]

/-- The order in which the ids were put in. -/
def insertionOrder : HashOrder where
  list := List.dedup
  nodup := List.nodup_dedup
  mem := List.mem_dedup

/-- `MATCH (Function:a)-[Calls*1..2]->(Function)` -/
def lineQuery : GraphQuery where
  source := ⟨str "Function", 0, str "a"⟩
  target := ⟨str "Function", 0, []⟩
  edgeType := 1
  multiHop := true
  hops := (1, 2)
  userLimit := 0

theorem parse_lineQuery :
    parseGraphQuery (str "MATCH (Function:a)-[Calls*1..2]->(Function)") = .ok lineQuery := by
  decide +kernel

theorem run_lineQuery :
    executeGraphQuery insertionOrder (some lineDb) 1
        (str "MATCH (Function:a)-[Calls*1..2]->(Function)") =
      { results := [⟨⟨1, str "a", 0, []⟩, ⟨2, str "b", 0, []⟩, .chain 1 [1, 2]⟩]
        total := 1, truncated := false, hint := none, error := none } := by
  decide +kernel

/-- Every function is a target, so the search stops at `b`, and `c` is not reported although it
    matches the filter and is two calls away. -/
theorem targets_end_search :
    parseGraphQuery (str "MATCH (Function:a)-[Calls*1..2]->(Function)") = .ok lineQuery ∧
      (executeGraphQuery insertionOrder (some lineDb) 1
        (str "MATCH (Function:a)-[Calls*1..2]->(Function)")).truncated = false ∧
      (∃ e ∈ lineDb.entities.rows, e.id = 1 ∧ lineQuery.source.Matches 1 e) ∧
      (∃ e ∈ lineDb.entities.rows, e.id = 3 ∧ lineQuery.target.Matches 1 e) ∧
      Walk lineDb.graph.getCalleeIds 2 1 3 ∧
      ¬∃ row ∈ (executeGraphQuery insertionOrder (some lineDb) 1
        (str "MATCH (Function:a)-[Calls*1..2]->(Function)")).results,
        row.source.id = 1 ∧ row.target.id = 3 := by
  rw [run_lineQuery]
  refine ⟨parse_lineQuery, rfl, by decide +kernel, by decide +kernel, ?_, by decide +kernel⟩
  exact .snoc (.snoc (.nil 1) (List.mem_singleton.mpr rfl)) (List.mem_singleton.mpr rfl)

/-- The pair of `a` and `b` in the same query. -/
theorem multiHop_reports_line :
    (∃ row ∈ (executeGraphQuery insertionOrder (some lineDb) 1
        (str "MATCH (Function:a)-[Calls*1..2]->(Function)")).results,
        row.source.id = 1 ∧ row.target.id = 2) ↔
      ∃ chain, IsCallChain lineDb 1 lineQuery 1 2 chain ∧ lineQuery.minDepth + 1 ≤ chain.length ∧
        chain.length ≤ lineQuery.maxDepth + 1 :=
  (multiHop_reports insertionOrder lineDb 1 parse_lineQuery rfl rfl
    (by rw [run_lineQuery]) 1 2).1

end CodeScope.Query
