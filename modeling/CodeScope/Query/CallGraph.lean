import CodeScope.Library.Walks
import CodeScope.Store.CsrAdjacency

/-! # The call graph that queries read

A query reads the callees and the callers of a node from the packed adjacency of the store. What the
traversals rely on is that there are finitely many nodes and that the two tables are the transpose
of each other; `ofStore` is where both come from. -/

namespace CodeScope.Query

open CodeScope.Store (Call GraphDb Represents Fits targets sources)

/-- The adjacency of a store, as its readers give it. -/
structure CallGraph where
  getCalleeIds : ℕ → List ℕ
  getCallerIds : ℕ → List ℕ
  transpose : ∀ {a b : ℕ}, b ∈ getCalleeIds a ↔ a ∈ getCallerIds b
  nodes : Finset ℕ
  callee_mem : ∀ {a b : ℕ}, b ∈ getCalleeIds a → b ∈ nodes

/-! ## The graph of a store -/

variable {calls : List Call}

theorem mem_targets {a b : ℕ} : b ∈ targets calls a ↔ ∃ c ∈ calls, c.source = a ∧ c.target = b := by
  simp [targets, and_assoc]

theorem mem_sources {a b : ℕ} : a ∈ sources calls b ↔ ∃ c ∈ calls, c.source = a ∧ c.target = b := by
  simp [sources, and_assoc, and_comm]

section

variable {db : GraphDb} {calls : List Call} (h : Represents db calls) (hfits : Fits calls)
include h

theorem call_bounds {c : Call} (hc : c ∈ calls) : c.source < 2 ^ 64 ∧ c.target < 2 ^ 64 := by
  have hedge : ((c.project, c.source), c.target) ∈ Store.forwardEdges calls :=
    List.mem_map.mpr ⟨c, hc, rfl⟩
  obtain ⟨hsource, htarget⟩ := h.1.bounds _ hedge
  exact ⟨Nat.lt_trans hsource (by decide), Nat.lt_trans htarget (by decide)⟩

include hfits

theorem mem_getCalleeIds {a b : ℕ} :
    (b ∈ if a < 2 ^ 64 then Store.getCalleeIds db a else []) ↔
      ∃ c ∈ calls, c.source = a ∧ c.target = b := by
  split_ifs with ha
  · rw [(Store.getCalleeIds_perm h hfits ha).mem_iff, mem_targets]
  · refine iff_of_false List.not_mem_nil ?_
    rintro ⟨c, hc, rfl, -⟩
    exact ha (call_bounds h hc).1

theorem mem_getCallerIds {a b : ℕ} :
    (a ∈ if b < 2 ^ 64 then Store.getCallerIds db b else []) ↔
      ∃ c ∈ calls, c.source = a ∧ c.target = b := by
  split_ifs with hb
  · rw [(Store.getCallerIds_perm h hfits hb).mem_iff, mem_sources]
  · refine iff_of_false List.not_mem_nil ?_
    rintro ⟨c, hc, -, rfl⟩
    exact hb (call_bounds h hc).2

end

/-- The graph of the published calls. Ids from `2 ^ 64` on cannot be asked for. -/
def CallGraph.ofStore {db : GraphDb} {calls : List Call} (h : Represents db calls)
    (hfits : Fits calls) : CallGraph where
  getCalleeIds n := if n < 2 ^ 64 then Store.getCalleeIds db n else []
  getCallerIds n := if n < 2 ^ 64 then Store.getCallerIds db n else []
  transpose := (mem_getCalleeIds h hfits).trans (mem_getCallerIds h hfits).symm
  nodes := (calls.map (·.target)).toFinset
  callee_mem := by
    intro a b hb
    obtain ⟨c, hc, -, rfl⟩ := (mem_getCalleeIds h hfits).mp hb
    exact List.mem_toFinset.mpr (List.mem_map.mpr ⟨c, hc, rfl⟩)

/-- **The edges of the graph of a store are its published calls.** -/
theorem CallGraph.mem_ofStore {db : GraphDb} (h : Represents db calls) (hfits : Fits calls)
    {a b : ℕ} :
    b ∈ (CallGraph.ofStore h hfits).getCalleeIds a ↔
      ∃ c ∈ calls, c.source = a ∧ c.target = b := mem_getCalleeIds h hfits

/-! ## Both directions -/

namespace CallGraph

/-- The callees and the callers of a node. -/
def neighbours (G : CallGraph) (n : ℕ) : List ℕ := G.getCalleeIds n ++ G.getCallerIds n

end CallGraph

/-! ## Unordered maps -/

/-- The order in which an unordered container lists the ids that were put into it. -/
structure HashOrder where
  list : List ℕ → List ℕ
  nodup : ∀ ids, (list ids).Nodup
  mem : ∀ {ids : List ℕ} {id : ℕ}, id ∈ list ids ↔ id ∈ ids

/-- A map from ids to depths, with the keys in the order in which they were put in. -/
structure DepthMap where
  get : ℕ → Option ℕ
  keys : List ℕ
  mem_keys : ∀ {n : ℕ}, n ∈ keys ↔ (get n).isSome

namespace DepthMap

def empty : DepthMap where
  get := fun _ => none
  keys := []
  mem_keys := by simp

/-- `operator[]` on the left of an assignment. -/
def set (m : DepthMap) (id depth : ℕ) : DepthMap where
  get := Function.update m.get id (some depth)
  keys := if (m.get id).isSome then m.keys else m.keys ++ [id]
  mem_keys := by
    intro n
    by_cases hn : n = id
    · subst hn
      split_ifs with hold
      · simp [m.mem_keys, hold]
      · simp
    · split_ifs
      · rw [m.mem_keys, Function.update_of_ne hn]
      · rw [List.mem_append, List.mem_singleton, m.mem_keys, Function.update_of_ne hn, or_iff_left hn]

@[simp] theorem get_empty (n : ℕ) : empty.get n = none := rfl

@[simp] theorem get_set_self (m : DepthMap) (id depth : ℕ) : (m.set id depth).get id = some depth :=
  Function.update_self _ _ _

theorem get_set_of_ne (m : DepthMap) {id n : ℕ} (depth : ℕ) (h : n ≠ id) :
    (m.set id depth).get n = m.get n := Function.update_of_ne h _ _

end DepthMap

end CodeScope.Query
