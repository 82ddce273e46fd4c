import CodeScope.Query.CallGraph
import CodeScope.Query.Entities

/-! # The impact of a change

From the modified functions a depth-first search with a stack goes along callers, and another one
along callees. A node whose depth gets smaller is put on the stack again. The order of the stack
does not matter: the depths stay `Labelled` with the stack pending, so at the end they are the
distances from the modified functions up to the depth bound. -/

namespace CodeScope.Query

open Text Walks

def kImpactMaxDepth : ℕ := 3

structure ImpactEntry where
  nodeId : ℕ
  viaSeed : ℕ
  depth : ℕ
deriving DecidableEq

/-! ## The search -/

/-- The maps and the stack, whose top is the head. A seed that is not set reads as 0. -/
structure ImpactSearch where
  minDepth : DepthMap
  seedOf : ℕ → ℕ
  stack : List (ℕ × ℕ)

namespace ImpactSearch

/-- The depth of a node becomes smaller, or it is met for the first time. -/
def lower (s : ImpactSearch) (node nb nd : ℕ) : ImpactSearch where
  minDepth := s.minDepth.set nb nd
  seedOf := Function.update s.seedOf nb (s.seedOf node)
  stack := (nb, nd) :: s.stack

/-- One neighbour of a node that was taken from the stack with a depth. -/
def relax (node depth : ℕ) (s : ImpactSearch) (nb : ℕ) : ImpactSearch :=
  match s.minDepth.get nb with
  | some old => if old ≤ depth + 1 then s else s.lower node nb (depth + 1)
  | none => s.lower node nb (depth + 1)

variable (succ : ℕ → List ℕ)

/-- What is left to do for the entries of a stack. -/
def pendingWork (stack : List (ℕ × ℕ)) : ℕ :=
  (stack.map fun e => work succ (kImpactMaxDepth - e.2) e.1).sum

/-- A neighbour is either left alone or lowered. -/
theorem relax_cases (node depth : ℕ) (s : ImpactSearch) (nb : ℕ) :
    (relax node depth s nb = s ∧ ∃ old ≤ depth + 1, s.minDepth.get nb = some old) ∨
      (relax node depth s nb = s.lower node nb (depth + 1) ∧
        ∀ old, s.minDepth.get nb = some old → depth + 1 < old) := by
  rw [relax]
  cases hget : s.minDepth.get nb with
  | none => exact .inr ⟨rfl, fun old hold => absurd hold (by simp)⟩
  | some old =>
      dsimp only
      by_cases hle : old ≤ depth + 1
      · rw [if_pos hle]
        exact .inl ⟨rfl, old, hle, rfl⟩
      · rw [if_neg hle]
        refine .inr ⟨rfl, fun old' hold => ?_⟩
        obtain rfl := Option.some.inj hold
        exact Nat.lt_of_not_le hle

theorem pendingWork_relax (node depth : ℕ) (nbs : List ℕ) (s : ImpactSearch) :
    pendingWork succ (nbs.foldl (relax node depth) s).stack ≤
      (nbs.map (work succ (kImpactMaxDepth - (depth + 1)))).sum + pendingWork succ s.stack := by
  induction nbs generalizing s with
  | nil => simp
  | cons nb nbs ih =>
      rw [List.foldl_cons, List.map_cons, List.sum_cons]
      have hrest := ih (relax node depth s nb)
      have hone : pendingWork succ (relax node depth s nb).stack ≤
          work succ (kImpactMaxDepth - (depth + 1)) nb + pendingWork succ s.stack := by
        rcases relax_cases node depth s nb with ⟨hsame, -⟩ | ⟨hlower, -⟩
        · rw [hsame]
          exact Nat.le_add_left _ _
        · rw [hlower, lower, pendingWork, List.map_cons, List.sum_cons]
          exact Nat.le_refl _
      omega

/-- The loop over the stack. -/
def dfs (s : ImpactSearch) : ImpactSearch :=
  match _hstack : s.stack with
  | [] => s
  | (node, depth) :: rest =>
    if kImpactMaxDepth ≤ depth then dfs { s with stack := rest }
    else dfs ((succ node).foldl (relax node depth) { s with stack := rest })
termination_by pendingWork succ s.stack
decreasing_by
  · rw [_hstack, pendingWork, pendingWork, List.map_cons, List.sum_cons]
    exact Nat.lt_add_of_pos_left (work_pos ..)
  · rename_i hdepth
    refine Nat.lt_of_le_of_lt (pendingWork_relax ..) ?_
    have hwork := work_expand succ (Nat.sub_pos_of_lt (Nat.lt_of_not_le hdepth)) node
    rw [Nat.sub_sub] at hwork
    rw [_hstack, pendingWork, pendingWork, List.map_cons, List.sum_cons]
    exact Nat.add_lt_add_right hwork _

/-- The seeds, each with depth 0. -/
def push (s : ImpactSearch) (seed : ℕ) : ImpactSearch where
  minDepth := s.minDepth.set seed 0
  seedOf := Function.update s.seedOf seed seed
  stack := (seed, 0) :: s.stack

def start (seeds : List ℕ) : ImpactSearch := seeds.foldl push ⟨DepthMap.empty, fun _ => 0, []⟩

end ImpactSearch

/-- The order of the entries. -/
def entryLe (a b : ImpactEntry) : Bool :=
  if a.nodeId ≠ b.nodeId then a.nodeId < b.nodeId else a.depth ≤ b.depth

/-- The entry of a node that has a depth and is not modified. -/
def entryOf (s : ImpactSearch) (modifiedIds : List ℕ) (id : ℕ) : Option ImpactEntry :=
  if id ∈ modifiedIds then none
  else (s.minDepth.get id).map fun depth => { nodeId := id, viaSeed := s.seedOf id, depth }

/-- The search in one direction; the modified ids are listed in the order of their hash set. -/
def dfsImpact (order : HashOrder) (succ : ℕ → List ℕ) (modifiedIds : List ℕ) : List ImpactEntry :=
  let s := (ImpactSearch.start (order.list modifiedIds)).dfs succ
  ((order.list s.minDepth.keys).filterMap (entryOf s modifiedIds)).mergeSort entryLe

/-! ## The report -/

/-- An entry with the names and the file that it is reported with. -/
structure ImpactLine where
  entry : ImpactEntry
  name : Str
  file : Str
  via : Str
deriving DecidableEq

structure ImpactReport where
  modified : List (ℕ × Str)
  callers : List ImpactLine
  callees : List ImpactLine
  totalImpacted : ℕ
  maxDepth : ℕ
deriving DecidableEq

/-- The name of an id, and the empty text when it has no row. -/
def nameOf (E : EntityTable) (id : ℕ) : Str :=
  ((E.rows.find? fun e => e.id = id).map (·.name)).getD []

def fileOf (E : EntityTable) (id : ℕ) : Str :=
  ((E.rows.find? fun e => e.id = id).map (·.filePath)).getD []

def impactLine (E : EntityTable) (e : ImpactEntry) : ImpactLine where
  entry := e
  name := nameOf E e.nodeId
  file := fileOf E e.nodeId
  via := nameOf E e.viaSeed

/-- `analyzeChangeImpact`, from the rows of the modified functions on. -/
def analyzeChangeImpact (order : HashOrder) (G : CallGraph) (E : EntityTable)
    (modifiedNodes : List (ℕ × Str)) : ImpactReport :=
  let modifiedIds := modifiedNodes.map (·.1)
  let callerEntries := dfsImpact order G.getCallerIds modifiedIds
  let calleeEntries := dfsImpact order G.getCalleeIds modifiedIds
  let allImpacted := modifiedIds ++ callerEntries.map (·.nodeId) ++ calleeEntries.map (·.nodeId)
  { modified := modifiedNodes
    callers := callerEntries.map (impactLine E)
    callees := calleeEntries.map (impactLine E)
    totalImpacted := allImpacted.dedup.length
    maxDepth := kImpactMaxDepth }

/-! ## What the search keeps -/

namespace ImpactSearch

/-- The depths are labels with the stack pending, and a seed is no farther than the depth says. -/
structure Inv (succ : ℕ → List ℕ) (seeds : List ℕ) (s : ImpactSearch)
    (pending : List (ℕ × ℕ)) : Prop where
  labelled : Labelled succ {n | n ∈ seeds} kImpactMaxDepth s.minDepth.get
    fun a d => (a, d) ∈ pending
  stacked : ∀ {n d : ℕ}, (n, d) ∈ pending → ∃ e ≤ d, s.minDepth.get n = some e
  seed : ∀ {n d : ℕ}, s.minDepth.get n = some d →
    s.seedOf n ∈ seeds ∧ ∃ m ≤ d, Walk succ m (s.seedOf n) n

section

variable {succ : ℕ → List ℕ} {seeds : List ℕ} {s : ImpactSearch} {node depth nb : ℕ}

theorem lower_get_of_ne (s : ImpactSearch) (node depth : ℕ) {n : ℕ} (h : n ≠ nb) :
    (s.lower node nb depth).minDepth.get n = s.minDepth.get n := DepthMap.get_set_of_ne _ _ h

theorem lower_get_self (s : ImpactSearch) (node nb depth : ℕ) :
    (s.lower node nb depth).minDepth.get nb = some depth := DepthMap.get_set_self _ _ _

theorem lower_mono (node : ℕ) (hold : ∀ old, s.minDepth.get nb = some old → depth < old) {n e : ℕ}
    (hn : s.minDepth.get n = some e) :
    ∃ e' ≤ e, (s.lower node nb depth).minDepth.get n = some e' :=
  Labelled.le_of_lowered hold (lower_get_self s node nb depth)
    (fun hne => lower_get_of_ne s node depth hne) hn

theorem lower_inv (h : Inv succ seeds s ((node, depth) :: s.stack))
    (hdepth : depth < kImpactMaxDepth) (hnb : nb ∈ succ node)
    (hold : ∀ old, s.minDepth.get nb = some old → depth + 1 < old) :
    Inv succ seeds (s.lower node nb (depth + 1))
      ((node, depth) :: (s.lower node nb (depth + 1)).stack) := by
  obtain ⟨e, he, hnode⟩ := h.stacked List.mem_cons_self
  have hself := lower_get_self s node nb (depth + 1)
  have hother {n : ℕ} (hne : n ≠ nb) := lower_get_of_ne s node (depth + 1) hne
  have hstack {p : ℕ × ℕ} (hp : p ∈ (node, depth) :: s.stack) :
      p ∈ (node, depth) :: (s.lower node nb (depth + 1)).stack := by
    rcases List.mem_cons.mp hp with rfl | hp
    · exact List.mem_cons_self
    · exact List.mem_cons_of_mem _ (List.mem_cons_of_mem _ hp)
  refine ⟨h.labelled.lower hnode he hdepth hnb hold hself hother
    (List.mem_cons_of_mem _ List.mem_cons_self) hstack, ?_, ?_⟩
  · intro n d hn
    have hcases : (n, d) = (nb, depth + 1) ∨ (n, d) ∈ (node, depth) :: s.stack := by
      rcases List.mem_cons.mp hn with heq | hn
      · exact .inr (heq ▸ List.mem_cons_self)
      · rcases List.mem_cons.mp hn with heq | hn
        · exact .inl heq
        · exact .inr (List.mem_cons_of_mem _ hn)
    rcases hcases with heq | hn
    · obtain ⟨rfl, rfl⟩ := Prod.mk.inj heq
      exact ⟨depth + 1, Nat.le_refl _, hself⟩
    · obtain ⟨old, hle, hget⟩ := h.stacked hn
      obtain ⟨e', he', hget'⟩ := lower_mono node hold hget
      exact ⟨e', he'.trans hle, hget'⟩
  · intro n d hn
    by_cases hne : n = nb
    · subst hne
      obtain rfl := Option.some.inj (hself.symm.trans hn)
      obtain ⟨hseed, m, hm, hwalk⟩ := h.seed hnode
      have hseedOf : (s.lower node n (depth + 1)).seedOf n = s.seedOf node :=
        Function.update_self _ _ _
      rw [hseedOf]
      exact ⟨hseed, m + 1, by omega, .snoc hwalk hnb⟩
    · have hseedOf : (s.lower node nb (depth + 1)).seedOf n = s.seedOf n :=
        Function.update_of_ne hne _ _
      rw [hseedOf]
      exact h.seed ((hother hne).symm.trans hn)

/-- The loop over the neighbours of an entry. Afterwards each of them has a depth that is small
    enough. -/
theorem foldl_relax (nbs : List ℕ) (h : Inv succ seeds s ((node, depth) :: s.stack))
    (hdepth : depth < kImpactMaxDepth) (hnbs : ∀ nb ∈ nbs, nb ∈ succ node) :
    Inv succ seeds (nbs.foldl (relax node depth) s)
        ((node, depth) :: (nbs.foldl (relax node depth) s).stack) ∧
      (∀ {n e : ℕ}, s.minDepth.get n = some e →
        ∃ e' ≤ e, (nbs.foldl (relax node depth) s).minDepth.get n = some e') ∧
      ∀ nb ∈ nbs, ∃ e ≤ depth + 1, (nbs.foldl (relax node depth) s).minDepth.get nb = some e := by
  induction nbs generalizing s with
  | nil => exact ⟨h, fun hn => ⟨_, Nat.le_refl _, hn⟩, by simp⟩
  | cons nb nbs ih =>
      have hone : Inv succ seeds (relax node depth s nb)
          ((node, depth) :: (relax node depth s nb).stack) ∧
          (∀ {n e : ℕ}, s.minDepth.get n = some e →
            ∃ e' ≤ e, (relax node depth s nb).minDepth.get n = some e') ∧
          ∃ e ≤ depth + 1, (relax node depth s nb).minDepth.get nb = some e := by
        rcases relax_cases node depth s nb with ⟨hsame, hold⟩ | ⟨hlower, hold⟩
        · rw [hsame]
          exact ⟨h, fun hn => ⟨_, Nat.le_refl _, hn⟩, hold⟩
        · rw [hlower]
          exact ⟨lower_inv h hdepth (hnbs nb List.mem_cons_self) hold,
            lower_mono node hold, depth + 1, Nat.le_refl _, lower_get_self ..⟩
      obtain ⟨hinv, hmono, e, he, hget⟩ := hone
      obtain ⟨hinv', hmono', hdone⟩ := ih hinv fun n hn => hnbs n (List.mem_cons_of_mem nb hn)
      refine ⟨hinv', ?_, ?_⟩
      · intro n d hn
        obtain ⟨d', hd', hn'⟩ := hmono hn
        obtain ⟨d'', hd'', hn''⟩ := hmono' hn'
        exact ⟨d'', hd''.trans hd', hn''⟩
      · intro n hn
        rcases List.mem_cons.mp hn with rfl | hn
        · obtain ⟨e', he', hget'⟩ := hmono' hget
          exact ⟨e', he'.trans he, hget'⟩
        · exact hdone n hn

theorem Inv.pop {stack : List (ℕ × ℕ)} (h : Inv succ seeds s ((node, depth) :: stack))
    (hdone : depth < kImpactMaxDepth →
      ∀ nb ∈ succ node, ∃ e ≤ depth + 1, s.minDepth.get nb = some e) :
    Inv succ seeds s stack := by
  refine ⟨⟨h.labelled.source, h.labelled.reached, h.labelled.bounded, ?_⟩,
    fun hn => h.stacked (List.mem_cons_of_mem _ hn), h.seed⟩
  intro a d ha hd
  rcases h.labelled.closed ha hd with hpending | hclosed
  · rcases List.mem_cons.mp hpending with heq | hpending
    · obtain ⟨rfl, rfl⟩ := Prod.mk.inj heq
      exact .inr (hdone hd)
    · exact .inl hpending
  · exact .inr hclosed

theorem Inv.withStack {pending : List (ℕ × ℕ)} (h : Inv succ seeds s pending)
    (stack : List (ℕ × ℕ)) : Inv succ seeds { s with stack := stack } pending :=
  ⟨h.labelled, h.stacked, h.seed⟩

theorem dfs_inv (h : Inv succ seeds s s.stack) : Inv succ seeds (dfs succ s) [] := by
  fun_induction dfs succ s with
  | case1 s hstack =>
      rw [hstack] at h
      exact h
  | case2 s node depth rest hstack hdepth ih =>
      rw [hstack] at h
      refine ih ((h.withStack rest).pop fun hlt => ?_)
      exact absurd hlt (Nat.not_lt_of_le hdepth)
  | case3 s node depth rest hstack hdepth ih =>
      rw [hstack] at h
      obtain ⟨hinv, -, hdone⟩ := foldl_relax (succ node) (h.withStack rest)
        (Nat.lt_of_not_le hdepth) fun nb hnb => hnb
      exact ih (hinv.pop fun _ => hdone)

end

end ImpactSearch

namespace ImpactSearch

/-- What the seeds leave: depth 0 for each of them, and themselves as seeds. -/
structure Seeded (seeds : List ℕ) (s : ImpactSearch) : Prop where
  depth : ∀ {n d : ℕ}, s.minDepth.get n = some d ↔ n ∈ seeds ∧ d = 0
  seed : ∀ {n : ℕ}, n ∈ seeds → s.seedOf n = n
  stack : ∀ {n d : ℕ}, (n, d) ∈ s.stack ↔ n ∈ seeds ∧ d = 0

theorem Seeded.push {seeds : List ℕ} {s : ImpactSearch} (h : Seeded seeds s) (seed : ℕ) :
    Seeded (seed :: seeds) (s.push seed) := by
  refine ⟨?_, ?_, ?_⟩
  · intro n d
    by_cases hn : n = seed
    · subst hn
      have hget : (s.push n).minDepth.get n = some 0 := DepthMap.get_set_self _ _ _
      rw [hget, Option.some.injEq, eq_comm, and_iff_right List.mem_cons_self]
    · have hget : (s.push seed).minDepth.get n = s.minDepth.get n := DepthMap.get_set_of_ne _ _ hn
      rw [hget, h.depth, List.mem_cons, or_iff_right hn]
  · intro n hn
    by_cases heq : n = seed
    · subst heq
      exact Function.update_self _ _ _
    · have hseed : (s.push seed).seedOf n = s.seedOf n := Function.update_of_ne heq _ _
      rw [hseed]
      exact h.seed ((List.mem_cons.mp hn).resolve_left heq)
  · intro n d
    have hstack : (s.push seed).stack = (seed, 0) :: s.stack := rfl
    rw [hstack, List.mem_cons, List.mem_cons, h.stack, Prod.mk.injEq, or_and_right]

theorem start_seeded (seeds : List ℕ) : Seeded seeds.reverse (start seeds) := by
  have hall : ∀ {done : List ℕ} {s : ImpactSearch}, Seeded done s →
      Seeded (seeds.reverse ++ done) (seeds.foldl push s) := by
    induction seeds with
    | nil => exact id
    | cons seed seeds ih =>
        intro done s h
        rw [List.reverse_cons, List.append_assoc, List.foldl_cons]
        exact ih (h.push seed)
  have hempty : Seeded [] ⟨DepthMap.empty, fun _ => 0, []⟩ := ⟨by simp, by simp, by simp⟩
  have h := hall hempty
  rwa [List.append_nil] at h

theorem Seeded.inv {seeds : List ℕ} {s : ImpactSearch} (h : Seeded seeds s)
    (succ : ℕ → List ℕ) : Inv succ seeds s s.stack := by
  refine ⟨⟨fun c hc => h.depth.mpr ⟨hc, rfl⟩, ?_, ?_, ?_⟩, ?_, ?_⟩
  · intro b d hb
    obtain ⟨hseed, rfl⟩ := h.depth.mp hb
    exact ⟨0, Nat.le_refl 0, b, hseed, .nil b⟩
  · intro b d hb
    rw [(h.depth.mp hb).2]
    exact Nat.zero_le _
  · intro a d ha _
    exact .inl (h.stack.mpr (h.depth.mp ha))
  · intro n d hn
    exact ⟨d, Nat.le_refl d, h.depth.mpr (h.stack.mp hn)⟩
  · intro n d hn
    obtain ⟨hseed, rfl⟩ := h.depth.mp hn
    rw [h.seed hseed]
    exact ⟨hseed, 0, Nat.le_refl 0, .nil n⟩

/-- After the search the depths are distances, and each seed realises the depth. -/
theorem dfs_spec (succ : ℕ → List ℕ) (seeds : List ℕ) :
    (∀ {n d : ℕ}, (dfs succ (start seeds)).minDepth.get n = some d ↔
      IsDistance succ {m | m ∈ seeds} d n ∧ d ≤ kImpactMaxDepth) ∧
    ∀ {n d : ℕ}, (dfs succ (start seeds)).minDepth.get n = some d →
      (dfs succ (start seeds)).seedOf n ∈ seeds ∧
        Walk succ d ((dfs succ (start seeds)).seedOf n) n := by
  have hinv := dfs_inv ((start_seeded seeds).inv succ)
  have hseeds : {m | m ∈ seeds.reverse} = {m | m ∈ seeds} := by simp
  have hlabelled : Labelled succ {m | m ∈ seeds} kImpactMaxDepth
      (dfs succ (start seeds)).minDepth.get fun _ _ => False := by
    rw [← hseeds]
    refine ⟨hinv.labelled.source, hinv.labelled.reached, hinv.labelled.bounded, ?_⟩
    intro a d ha hd
    exact .inr ((hinv.labelled.closed ha hd).resolve_left List.not_mem_nil)
  refine ⟨hlabelled.label_iff, fun {n d} hn => ?_⟩
  obtain ⟨hseed, m, hm, hwalk⟩ := hinv.seed hn
  have hseed := List.mem_reverse.mp hseed
  have hle := (hlabelled.label_iff.mp hn).1.least m ⟨_, hseed, hwalk⟩
  exact ⟨hseed, Nat.le_antisymm hle hm ▸ hwalk⟩

end ImpactSearch

/-! ## The entries -/

/-- The entries are the distances between 1 and the depth bound. -/
structure TrueDistances (succ : ℕ → List ℕ) (modifiedIds : List ℕ) (entries : List ImpactEntry) :
    Prop where
  reported : ∀ {id d : ℕ}, (∃ e ∈ entries, e.nodeId = id ∧ e.depth = d) ↔
    IsDistance succ {m | m ∈ modifiedIds} d id ∧ 1 ≤ d ∧ d ≤ kImpactMaxDepth
  once : (entries.map (·.nodeId)).Nodup
  seed : ∀ e ∈ entries, e.viaSeed ∈ modifiedIds ∧ Walk succ e.depth e.viaSeed e.nodeId

theorem entryOf_eq_some {s : ImpactSearch} {modifiedIds : List ℕ} {id : ℕ} {e : ImpactEntry} :
    entryOf s modifiedIds id = some e ↔ id ∉ modifiedIds ∧ e.nodeId = id ∧
      e.viaSeed = s.seedOf id ∧ s.minDepth.get id = some e.depth := by
  rw [entryOf]
  by_cases hid : id ∈ modifiedIds
  · simp [hid]
  · rw [if_neg hid, Option.map_eq_some_iff]
    constructor
    · rintro ⟨depth, hget, rfl⟩
      exact ⟨hid, rfl, rfl, hget⟩
    · rintro ⟨-, rfl, hseed, hget⟩
      refine ⟨e.depth, hget, ?_⟩
      rw [← hseed]

theorem entryLe_trans (a b c : ImpactEntry) (hab : entryLe a b = true) (hbc : entryLe b c = true) :
    entryLe a c = true := by
  simp only [entryLe] at hab hbc ⊢
  split_ifs at hab hbc ⊢ <;> simp only [decide_eq_true_eq] at hab hbc ⊢ <;> omega

theorem entryLe_total (a b : ImpactEntry) : (entryLe a b || entryLe b a) = true := by
  rw [Bool.or_eq_true]
  simp only [entryLe]
  split_ifs <;> simp only [decide_eq_true_eq] <;> omega

section

variable (order : HashOrder) (succ : ℕ → List ℕ) (modifiedIds : List ℕ)

theorem mem_dfsImpact {e : ImpactEntry} : e ∈ dfsImpact order succ modifiedIds ↔
    entryOf ((ImpactSearch.start (order.list modifiedIds)).dfs succ) modifiedIds e.nodeId =
      some e := by
  simp only [dfsImpact]
  rw [(List.mergeSort_perm _ _).mem_iff, List.mem_filterMap]
  constructor
  · rintro ⟨id, -, hentry⟩
    have hid := (entryOf_eq_some.mp hentry).2.1
    rw [hid]
    exact hentry
  · intro hentry
    have hget := (entryOf_eq_some.mp hentry).2.2.2
    exact ⟨e.nodeId, order.mem.mpr (DepthMap.mem_keys _ |>.mpr (by rw [hget]; rfl)), hentry⟩

theorem entryIds_sublist (s : ImpactSearch) (ids : List ℕ) :
    ((ids.filterMap (entryOf s modifiedIds)).map (·.nodeId)).Sublist ids := by
  induction ids with
  | nil => exact List.Sublist.refl _
  | cons id ids ih =>
      cases hentry : entryOf s modifiedIds id with
      | none =>
          rw [List.filterMap_cons_none hentry]
          exact ih.cons id
      | some e =>
          rw [List.filterMap_cons_some hentry, List.map_cons, (entryOf_eq_some.mp hentry).2.1]
          exact ih.cons_cons id

theorem dfsImpact_nodup : ((dfsImpact order succ modifiedIds).map (·.nodeId)).Nodup := by
  simp only [dfsImpact]
  exact ((List.mergeSort_perm _ _).map _).nodup_iff.mpr
    ((entryIds_sublist modifiedIds _ _).nodup (order.nodup _))

theorem dfsImpact_sorted :
    (dfsImpact order succ modifiedIds).Pairwise fun a b => a.nodeId < b.nodeId := by
  have hdistinct := List.pairwise_map.mp (dfsImpact_nodup order succ modifiedIds)
  have hsorted : (dfsImpact order succ modifiedIds).Pairwise (entryLe · ·) :=
    List.pairwise_mergeSort entryLe_trans entryLe_total _
  refine (hsorted.and hdistinct).imp ?_
  rintro a b ⟨hle, hne⟩
  simpa [entryLe, hne] using hle

theorem dfsImpact_distances :
    TrueDistances succ modifiedIds (dfsImpact order succ modifiedIds) := by
  obtain ⟨hdepth, hseed⟩ := ImpactSearch.dfs_spec succ (order.list modifiedIds)
  have hset : {m | m ∈ order.list modifiedIds} = {m | m ∈ modifiedIds} := by
    ext m
    exact order.mem
  rw [hset] at hdepth
  have hmem {e : ImpactEntry} := mem_dfsImpact order succ modifiedIds (e := e)
  generalize (ImpactSearch.start (order.list modifiedIds)).dfs succ = s at hdepth hseed hmem
  refine ⟨fun {id d} => ?_, dfsImpact_nodup .., fun e he => ?_⟩
  · constructor
    · rintro ⟨e, he, rfl, rfl⟩
      obtain ⟨hmodified, -, -, hget⟩ := entryOf_eq_some.mp (hmem.mp he)
      obtain ⟨hdist, hbound⟩ := hdepth.mp hget
      refine ⟨hdist, Nat.one_le_iff_ne_zero.mpr ?_, hbound⟩
      intro hzero
      rw [hzero] at hdist
      have hsource : e.nodeId ∈ {m | m ∈ modifiedIds} := isDistance_zero.mp hdist
      exact hmodified hsource
    · rintro ⟨hdist, hone, hbound⟩
      have hfresh : id ∉ modifiedIds := by
        intro hmodified
        have hsource : id ∈ {m | m ∈ modifiedIds} := hmodified
        have hzero := hdist.unique (isDistance_zero.mpr hsource)
        omega
      have hget := hdepth.mpr ⟨hdist, hbound⟩
      have hentry : entryOf s modifiedIds id = some ⟨id, s.seedOf id, d⟩ :=
        entryOf_eq_some.mpr ⟨hfresh, rfl, rfl, hget⟩
      exact ⟨⟨id, s.seedOf id, d⟩, hmem.mpr hentry, rfl, rfl⟩
  · obtain ⟨-, -, hvia, hget⟩ := entryOf_eq_some.mp (hmem.mp he)
    obtain ⟨hmem, hwalk⟩ := hseed hget
    rw [hvia]
    exact ⟨order.mem.mp hmem, hwalk⟩

end

theorem isDistance_congr {succ succ' : ℕ → List ℕ} (h : ∀ a b, b ∈ succ a ↔ b ∈ succ' a)
    {sources : Set ℕ} {d id : ℕ} :
    IsDistance succ sources d id ↔ IsDistance succ' sources d id := by
  have hreaches {n b : ℕ} : Reaches succ sources n b ↔ Reaches succ' sources n b :=
    exists_congr fun s => and_congr_right fun _ =>
      ⟨.congr fun a c => (h a c).mp, .congr fun a c => (h a c).mpr⟩
  constructor
  · exact fun hd => ⟨hreaches.mp hd.reaches, fun m hm => hd.least m (hreaches.mpr hm)⟩
  · exact fun hd => ⟨hreaches.mpr hd.reaches, fun m hm => hd.least m (hreaches.mp hm)⟩

/-- The depths do not depend on the order of the neighbours or of the seeds. -/
theorem dfsImpact_order (order order' : HashOrder) {succ succ' : ℕ → List ℕ}
    (hsucc : ∀ a b, b ∈ succ a ↔ b ∈ succ' a) {ids ids' : List ℕ}
    (hids : ∀ id, id ∈ ids ↔ id ∈ ids') :
    (dfsImpact order succ ids).map (fun e => (e.nodeId, e.depth)) =
      (dfsImpact order' succ' ids').map fun e => (e.nodeId, e.depth) := by
  have hsorted (o : HashOrder) (f : ℕ → List ℕ) (l : List ℕ) :
      ((dfsImpact o f l).map fun e => (e.nodeId, e.depth)).Pairwise fun a b => a.1 < b.1 :=
    List.pairwise_map.mpr (dfsImpact_sorted o f l)
  have hnodup (o : HashOrder) (f : ℕ → List ℕ) (l : List ℕ) :
      ((dfsImpact o f l).map fun e => (e.nodeId, e.depth)).Nodup :=
    (hsorted o f l).imp fun hlt heq => absurd hlt (by rw [heq]; exact Nat.lt_irrefl _)
  have hset : {m | m ∈ ids} = {m | m ∈ ids'} := Set.ext hids
  refine List.Perm.eq_of_pairwise (fun a b _ _ hab hba => absurd hba (Nat.lt_asymm hab))
    (hsorted ..) (hsorted ..) ?_
  refine (List.perm_ext_iff_of_nodup (hnodup ..) (hnodup ..)).mpr fun p => ?_
  have hmem (o : HashOrder) (f : ℕ → List ℕ) (l : List ℕ) :
      p ∈ (dfsImpact o f l).map (fun e => (e.nodeId, e.depth)) ↔
        ∃ e ∈ dfsImpact o f l, e.nodeId = p.1 ∧ e.depth = p.2 := by
    rw [List.mem_map]
    exact exists_congr fun e => and_congr_right fun _ => Prod.ext_iff
  rw [hmem, hmem, (dfsImpact_distances ..).reported, (dfsImpact_distances ..).reported, hset,
    isDistance_congr hsucc]

/-- **The impact report gives true distances**, along callers and along callees, and the depths
    are the same whatever the order of the modified functions and of the neighbours. -/
theorem analyzeChangeImpact_distances (order : HashOrder) (G : CallGraph) (E : EntityTable)
    (modifiedNodes : List (ℕ × Str)) :
    let r := analyzeChangeImpact order G E modifiedNodes
    TrueDistances G.getCallerIds (modifiedNodes.map (·.1)) (r.callers.map (·.entry)) ∧
    TrueDistances G.getCalleeIds (modifiedNodes.map (·.1)) (r.callees.map (·.entry)) ∧
    ∀ (order' : HashOrder) (G' : CallGraph) (modifiedNodes' : List (ℕ × Str)),
      (∀ a b, b ∈ G'.getCalleeIds a ↔ b ∈ G.getCalleeIds a) →
      (∀ id, id ∈ modifiedNodes'.map (·.1) ↔ id ∈ modifiedNodes.map (·.1)) →
      let r' := analyzeChangeImpact order' G' E modifiedNodes'
      r'.callers.map (fun l => (l.entry.nodeId, l.entry.depth)) =
          r.callers.map (fun l => (l.entry.nodeId, l.entry.depth)) ∧
        r'.callees.map (fun l => (l.entry.nodeId, l.entry.depth)) =
          r.callees.map (fun l => (l.entry.nodeId, l.entry.depth)) := by
  have hentries (entries : List ImpactEntry) :
      (entries.map (impactLine E)).map (·.entry) = entries := by
    rw [List.map_map]
    exact List.map_id _
  have hpairs (entries : List ImpactEntry) :
      (entries.map (impactLine E)).map (fun l => (l.entry.nodeId, l.entry.depth)) =
        entries.map fun e => (e.nodeId, e.depth) := by
    rw [List.map_map]
    rfl
  simp only [analyzeChangeImpact, hentries, hpairs]
  refine ⟨dfsImpact_distances .., dfsImpact_distances .., ?_⟩
  intro order' G' modifiedNodes' hedges hids
  have hcallers : ∀ a b, b ∈ G'.getCallerIds a ↔ b ∈ G.getCallerIds a := fun a b => by
    rw [← G'.transpose, ← G.transpose, hedges]
  exact ⟨dfsImpact_order order' order hcallers hids, dfsImpact_order order' order hedges hids⟩

end CodeScope.Query
