import CodeScope.Graph.GraphBuilder

/-! # The edges of the call graph

The documentation of `buildCallGraph` gives four layers in which the callee of a call is looked
for, and a rule on arities. `findContainingFunction` is meant to find the function or method around
a call; it stops at any record that has a node. -/

namespace CodeScope.Graph

open Text (Str str)
open Store (Record RecordKind)
open AncestorSearch (First Sound)

/-! ## The documented edges -/

def IsFunction (unit : SemanticUnit) (id : ℕ) : Prop :=
  ∃ r ∈ unit.records, r.id = id ∧ (r.kind = .function ∨ r.kind = .method)

def HasNode (unit : SemanticUnit) (id : ℕ) : Prop :=
  ∃ r ∈ unit.records, r.id = id ∧ Declared r

/-- The innermost function or method around a record. -/
def Innermost (unit : SemanticUnit) (rec : Record) (f : ℕ) : Prop :=
  First (parentOf unit) (IsFunction unit) rec.parentId f

/-- The innermost declaration around a record, of any kind. -/
def Holder (unit : SemanticUnit) (rec : Record) (d : ℕ) : Prop :=
  First (parentOf unit) (HasNode unit) rec.parentId d

/-- The targets of a call in the first layer that applies, the caller left out. -/
def layerTargets (unit : SemanticUnit) (call : Record) (caller : ℕ) : List Record :=
  let others := unit.records.filter fun t => Declared t ∧ t.id ≠ caller
  if call.refOriginalId ≠ 0 then others.filter fun t => t.id = call.refOriginalId
  else
    let candidates := others.filter fun t => t.name ≠ []
    let qualified := candidates.filter fun t => t.qualifiedName = call.qualifiedName
    if call.qualifiedName ≠ [] ∧ qualified ≠ [] then qualified
    else
      let named := candidates.filter fun t => t.name = call.name
      if call.arity = 0 then named
      else
        let sameArity := named.filter fun t => t.arity = call.arity
        if sameArity ≠ [] then sameArity else named.filter fun t => t.arity = 0

/-- The arity rule. -/
def ArityFits (call target : Record) : Prop :=
  call.arity ≠ 0 → target.arity ≠ 0 → call.arity = target.arity

/-- An edge the documentation asks for. -/
def DocumentedCall (unit : SemanticUnit) (f t : ℕ) : Prop :=
  ∃ call ∈ unit.records, call.kind = .callExpr ∧ Innermost unit call f ∧
    ∃ target ∈ layerTargets unit call f, target.id = t ∧ ArityFits call target

/-- An edge the code makes: the caller is whatever declaration holds the call. -/
def HeldCall (unit : SemanticUnit) (f t : ℕ) : Prop :=
  ∃ call ∈ unit.records, call.kind = .callExpr ∧ Holder unit call f ∧
    ∃ target ∈ layerTargets unit call f, target.id = t

/-- The edges are the documented ones, each once, in whatever order the records come. -/
def CallEdgesDocumented (unit : SemanticUnit) : Prop :=
  ∀ unit' : SemanticUnit, unit'.records.Perm unit.records → ∀ b : GraphBuilder,
    ∃ b₁ b₂, buildSymbolGraph unit' b = some b₁ ∧ buildCallGraph unit' b₁ = some b₂ ∧
      (b₂.currentGraph.edges.map GraphEdge.key).Nodup ∧
      ∀ key, key ∈ b₂.currentGraph.edges.map GraphEdge.key ↔
        ∃ f t x y, DocumentedCall unit f t ∧ b₁.irToGraphNode f = some x ∧
          b₁.irToGraphNode t = some y ∧ key = (x, y, .calls, str "call_graph")

/-! ## Nodes -/

theorem SemanticUnit.getRecord_eq_some (unit : SemanticUnit) (id : ℕ) (r : Record) :
    unit.getRecord id = some r ↔ r ∈ unit.records ∧ r.id = id := by
  constructor
  · intro h
    exact ⟨List.mem_of_find?_eq_some h, by simpa using List.find?_some h⟩
  · rintro ⟨hr, rfl⟩
    cases hfind : unit.getRecord r.id with
    | none => exact absurd (decide_eq_true rfl) (List.find?_eq_none.mp hfind r hr)
    | some s =>
        have hs : s ∈ unit.records := List.mem_of_find?_eq_some hfind
        have hid : s.id = r.id := by simpa using List.find?_some hfind
        exact congrArg some (List.inj_on_of_nodup_map unit.ids_nodup hs hr hid)

theorem parentOf_eq_some (unit : SemanticUnit) (x y : ℕ) :
    parentOf unit x = some y ↔
      ∃ r ∈ unit.records, r.id = x ∧ r.parentId = y ∧ r.parentId ≠ 0 := by
  simp only [parentOf, Option.bind_eq_some_iff, unit.getRecord_eq_some]
  constructor
  · rintro ⟨r, ⟨hr, hid⟩, hparent⟩
    split_ifs at hparent with hzero
    exact ⟨r, hr, hid, by simpa using hparent, hzero⟩
  · rintro ⟨r, hr, hid, hparent, hzero⟩
    exact ⟨r, ⟨hr, hid⟩, by rw [if_neg hzero, hparent]⟩

theorem parentOf_perm {unit unit' : SemanticUnit} (h : unit'.records.Perm unit.records) :
    parentOf unit' = parentOf unit := by
  funext x
  refine Option.ext fun y => ?_
  simp only [parentOf_eq_some, h.mem_iff]

/-- The node of a record: every declaration has one of its own, and nothing else has one. -/
structure Numbered (unit : SemanticUnit) (node : ℕ → Option ℕ) : Prop where
  isSome_iff : ∀ id, (node id).isSome ↔ HasNode unit id
  injective : ∀ x y n, node x = some n → node y = some n → x = y

/-- The numbers given so far are below the next one, and differ. -/
structure Fresh (b : GraphBuilder) : Prop where
  lt : ∀ x n, b.irToGraphNode x = some n → n < b.nextNodeId
  injective : ∀ x y n, b.irToGraphNode x = some n → b.irToGraphNode y = some n → x = y

variable {b : GraphBuilder} {x d : ℕ} {records : List Record}

theorem declare_of_new (unit : SemanticUnit) {rec : Record} (hdeclared : Declared rec)
    (hnew : b.irToGraphNode rec.id = none) :
    (declare unit b rec).irToGraphNode =
        Function.update b.irToGraphNode rec.id (some b.nextNodeId) ∧
      (declare unit b rec).nextNodeId = b.nextNodeId + 1 := by
  rw [declare, if_pos hdeclared, addGraphNode, if_neg (by simp [hnew])]
  exact ⟨rfl, rfl⟩

theorem declare_of_not_new (unit : SemanticUnit) {rec : Record}
    (h : ¬ (Declared rec ∧ b.irToGraphNode rec.id = none)) : declare unit b rec = b := by
  rw [declare]
  split_ifs with hdeclared
  · rw [addGraphNode, if_pos (Option.isSome_iff_ne_none.mpr fun hnone => h ⟨hdeclared, hnone⟩)]
  · rfl

theorem Fresh.declare (h : Fresh b) (unit : SemanticUnit) (rec : Record) :
    Fresh (declare unit b rec) := by
  by_cases hrec : Declared rec ∧ b.irToGraphNode rec.id = none
  · obtain ⟨hnode, hnext⟩ := declare_of_new unit hrec.1 hrec.2
    constructor
    · intro x n hx
      rw [hnode] at hx
      rw [hnext]
      by_cases hxr : x = rec.id
      · rw [hxr, Function.update_self, Option.some.injEq] at hx
        omega
      · rw [Function.update_of_ne hxr] at hx
        exact Nat.lt_succ_of_lt (h.lt x n hx)
    · intro x y n hx hy
      rw [hnode] at hx hy
      by_cases hxr : x = rec.id <;> by_cases hyr : y = rec.id
      · rw [hxr, hyr]
      · rw [hxr, Function.update_self, Option.some.injEq] at hx
        rw [Function.update_of_ne hyr] at hy
        exact absurd (h.lt y n hy) (by omega)
      · rw [Function.update_of_ne hxr] at hx
        rw [hyr, Function.update_self, Option.some.injEq] at hy
        exact absurd (h.lt x n hx) (by omega)
      · rw [Function.update_of_ne hxr] at hx
        rw [Function.update_of_ne hyr] at hy
        exact h.injective x y n hx hy
  · rw [declare_of_not_new unit hrec]
    exact h

theorem isSome_declare (unit : SemanticUnit) (b : GraphBuilder) (rec : Record) (id : ℕ) :
    ((declare unit b rec).irToGraphNode id).isSome ↔
      (b.irToGraphNode id).isSome ∨ (rec.id = id ∧ Declared rec) := by
  by_cases hrec : Declared rec ∧ b.irToGraphNode rec.id = none
  · rw [(declare_of_new unit hrec.1 hrec.2).1]
    by_cases hid : rec.id = id
    · subst hid
      simp [hrec.1]
    · simp [Function.update_of_ne (Ne.symm hid), hid]
  · rw [declare_of_not_new unit hrec]
    constructor
    · exact .inl
    · intro h
      rcases h with h | ⟨rfl, hdeclared⟩
      · exact h
      · exact Option.isSome_iff_ne_none.mpr fun hnone => hrec ⟨hdeclared, hnone⟩

theorem foldl_declare (unit : SemanticUnit) (records : List Record) (b : GraphBuilder)
    (hfresh : Fresh b) :
    Fresh (records.foldl (declare unit) b) ∧
      ∀ id, ((records.foldl (declare unit) b).irToGraphNode id).isSome ↔
        (b.irToGraphNode id).isSome ∨ ∃ r ∈ records, r.id = id ∧ Declared r := by
  induction records generalizing b with
  | nil => exact ⟨hfresh, by simp⟩
  | cons rec rest ih =>
      obtain ⟨hfresh', hnodes⟩ := ih (declare unit b rec) (hfresh.declare unit rec)
      refine ⟨hfresh', fun id => ?_⟩
      rw [List.foldl_cons, hnodes, isSome_declare, or_assoc]
      simp

/-- **Pass 1 numbers the declarations.** -/
theorem numbered_declarations (unit : SemanticUnit) (b : GraphBuilder) :
    Numbered unit (unit.records.foldl (declare unit) b.reset).irToGraphNode := by
  have hreset : Fresh b.reset := ⟨by simp [GraphBuilder.reset], by simp [GraphBuilder.reset]⟩
  obtain ⟨hfresh, hnodes⟩ := foldl_declare unit unit.records b.reset hreset
  refine ⟨fun id => ?_, hfresh.injective⟩
  rw [hnodes]
  simp [GraphBuilder.reset, HasNode]

/-! ## Edges -/

@[simp] theorem addGraphEdge_irToGraphNode (src tgt : ℕ) (type : EdgeType) (b : GraphBuilder) :
    (addGraphEdge src tgt type b).irToGraphNode = b.irToGraphNode := by
  simp only [addGraphEdge]
  split_ifs <;> rfl

@[simp] theorem addGraphEdge_parentCache (src tgt : ℕ) (type : EdgeType) (b : GraphBuilder) :
    (addGraphEdge src tgt type b).parentCache = b.parentCache := by
  simp only [addGraphEdge]
  split_ifs <;> rfl

@[simp] theorem addGraphEdge_graphType (src tgt : ℕ) (type : EdgeType) (b : GraphBuilder) :
    (addGraphEdge src tgt type b).currentGraph.graphType = b.currentGraph.graphType := by
  simp only [addGraphEdge]
  split_ifs <;> rfl

/-- The keys of the edges so far. -/
def GraphBuilder.keys (b : GraphBuilder) : List (ℕ × ℕ × EdgeType × Str) :=
  b.currentGraph.edges.map GraphEdge.key

theorem keys_addGraphEdge (src tgt : ℕ) (type : EdgeType) (b : GraphBuilder) :
    (addGraphEdge src tgt type b).keys =
      if (src, tgt, type, b.currentGraph.graphType) ∈ b.keys then b.keys
      else b.keys ++ [(src, tgt, type, b.currentGraph.graphType)] := by
  unfold addGraphEdge
  by_cases h : (src, tgt, type, b.currentGraph.graphType) ∈ b.keys
  · rw [if_pos h]
    exact congrArg GraphBuilder.keys (if_pos h)
  · rw [if_neg h]
    refine (congrArg GraphBuilder.keys (if_neg h)).trans ?_
    simp [GraphBuilder.keys, GraphEdge.key]

theorem mem_keys_addGraphEdge (src tgt : ℕ) (type : EdgeType) (b : GraphBuilder)
    (key : ℕ × ℕ × EdgeType × Str) :
    key ∈ (addGraphEdge src tgt type b).keys ↔
      key ∈ b.keys ∨ key = (src, tgt, type, b.currentGraph.graphType) := by
  rw [keys_addGraphEdge]
  split_ifs with h
  · exact ⟨.inl, fun hkey => hkey.elim (fun hold => hold) fun hnew => hnew ▸ h⟩
  · simp

theorem nodup_keys_addGraphEdge (src tgt : ℕ) (type : EdgeType) (h : b.keys.Nodup) :
    (addGraphEdge src tgt type b).keys.Nodup := by
  rw [keys_addGraphEdge]
  split_ifs with hmem
  · exact h
  · exact List.nodup_append.mpr ⟨h, by simp, by
      intro a ha c hc heq
      rw [List.mem_singleton.mp hc] at heq
      exact hmem (heq ▸ ha)⟩

theorem declare_parentCache (unit : SemanticUnit) (b : GraphBuilder) (rec : Record) :
    (declare unit b rec).parentCache = b.parentCache := by
  simp only [declare, addGraphNode]
  split_ifs <;> rfl

theorem declare_keys (unit : SemanticUnit) (b : GraphBuilder) (rec : Record) :
    (declare unit b rec).keys = b.keys := by
  simp only [declare, addGraphNode]
  split_ifs <;> rfl

theorem foldl_declare_parentCache (unit : SemanticUnit) (records : List Record) (b : GraphBuilder) :
    (records.foldl (declare unit) b).parentCache = b.parentCache := by
  induction records generalizing b with
  | nil => rfl
  | cons rec rest ih => rw [List.foldl_cons, ih, declare_parentCache]

theorem foldl_declare_keys (unit : SemanticUnit) (records : List Record) (b : GraphBuilder) :
    (records.foldl (declare unit) b).keys = b.keys := by
  induction records generalizing b with
  | nil => rfl
  | cons rec rest ih => rw [List.foldl_cons, ih, declare_keys]

/-! ## What every step keeps -/

/-- The state between two records: the numbers of pass 1, a cache that answers as a fresh search,
    and no edge twice. -/
structure Ready (unit : SemanticUnit) (node : ℕ → Option ℕ) (b : GraphBuilder) : Prop where
  node_eq : b.irToGraphNode = node
  cache_sound : Sound (parentOf unit) (fun id => (node id).isSome = true) b.parentCache
  keys_nodup : b.keys.Nodup

/-- The container a search with the numbers of pass 1 finds. -/
def Container (unit : SemanticUnit) (node : ℕ → Option ℕ) (rec : Record) (d : ℕ) : Prop :=
  First (parentOf unit) (fun id => (node id).isSome = true) rec.parentId d

variable {unit : SemanticUnit} {node : ℕ → Option ℕ} {b : GraphBuilder}

theorem Ready.addGraphEdge (h : Ready unit node b) (src tgt : ℕ) (type : EdgeType) :
    Ready unit node (addGraphEdge src tgt type b) where
  node_eq := by rw [addGraphEdge_irToGraphNode, h.node_eq]
  cache_sound := by
    rw [addGraphEdge_parentCache]
    exact h.cache_sound
  keys_nodup := nodup_keys_addGraphEdge src tgt type h.keys_nodup

theorem parentOf_mem_ids {y : ℕ} (h : parentOf unit x = some y) :
    x ∈ unit.records.map Record.id := by
  obtain ⟨r, hr, hid, _⟩ := (parentOf_eq_some unit x y).mp h
  exact List.mem_map.mpr ⟨r, hr, hid⟩

theorem not_container_of_root (hnode : Numbered unit node) {rec : Record} (hroot : rec.parentId = 0)
    (d : ℕ) : ¬ Container unit node rec d := by
  unfold Container
  rw [hroot]
  refine AncestorSearch.not_first_of_end ?_ ?_
  · intro hzero
    obtain ⟨r, hr, hid, _⟩ := (hnode.isSome_iff 0).mp hzero
    exact unit.ids_ne_zero r hr hid
  · cases hparent : parentOf unit 0 with
    | none => rfl
    | some y =>
        obtain ⟨r, hr, hid, _⟩ := (parentOf_eq_some unit 0 y).mp hparent
        exact absurd hid (unit.ids_ne_zero r hr)

/-- **A cached look-up answers as a fresh walk**, and it terminates. -/
theorem findContainingFunction_spec (hnode : Numbered unit node) (h : Ready unit node b)
    (rec : Record) :
    ∃ found cache, findContainingFunction unit b rec = some (found, { b with parentCache := cache }) ∧
      Ready unit node { b with parentCache := cache } ∧
      ∀ d, found = some d ↔ Container unit node rec d := by
  unfold findContainingFunction
  by_cases hroot : rec.parentId = 0
  · exact ⟨none, b.parentCache, by rw [if_pos hroot], h, fun d =>
      ⟨by simp, fun hd => absurd hd (not_container_of_root hnode hroot d)⟩⟩
  rw [if_neg hroot]
  cases hknown : b.parentCache rec.parentId with
  | some found => exact ⟨found, b.parentCache, rfl, h, h.cache_sound _ found hknown⟩
  | none =>
      obtain ⟨found, hfound, hfirst⟩ := AncestorSearch.search_spec h.cache_sound
        (fun x y => parentOf_mem_ids) (unit.records.length + 1) [] rec.parentId (by simp) (by simp)
        (by simp)
      refine ⟨found, Function.update b.parentCache rec.parentId (some found), ?_, ?_, hfirst⟩
      · simp only [h.node_eq]
        rw [hfound]
        rfl
      · refine ⟨h.node_eq, fun x r hx => ?_, h.keys_nodup⟩
        by_cases hxp : x = rec.parentId
        · subst hxp
          simp only [Function.update_self, Option.some.injEq] at hx
          exact hx ▸ hfirst
        · simp only [Function.update_of_ne hxp] at hx
          exact h.cache_sound x r hx

theorem Ready.contain (hnode : Numbered unit node) (h : Ready unit node b) (rec : Record) :
    ∃ b', contain unit b rec = some b' ∧ Ready unit node b' := by
  unfold Graph.contain
  by_cases hroot : rec.parentId = 0
  · exact ⟨b, by rw [if_pos hroot], h⟩
  rw [if_neg hroot]
  cases hchild : b.irToGraphNode rec.id with
  | none => exact ⟨b, rfl, h⟩
  | some child =>
      obtain ⟨found, cache, hfind, hready, _⟩ := findContainingFunction_spec hnode h rec
      refine ⟨_, by rw [hfind]; rfl, ?_⟩
      cases found with
      | none => exact hready
      | some ancestorId =>
          dsimp only
          split_ifs
          · exact hready
          · split
            · exact hready
            · split_ifs
              · exact hready
              · exact hready.addGraphEdge _ _ _

theorem Ready.foldlM_contain (hnode : Numbered unit node) (h : Ready unit node b)
    (records : List Record) :
    ∃ b', records.foldlM (Graph.contain unit) b = some b' ∧ Ready unit node b' := by
  induction records generalizing b with
  | nil => exact ⟨b, rfl, h⟩
  | cons rec rest ih =>
      obtain ⟨b₁, hstep, hready⟩ := h.contain hnode rec
      obtain ⟨b₂, hrun, hready'⟩ := ih hready
      refine ⟨b₂, ?_, hready'⟩
      rw [List.foldlM_cons, hstep]
      exact hrun

/-- **`buildSymbolGraph` terminates** and numbers the declarations. -/
theorem buildSymbolGraph_spec (unit : SemanticUnit) (b : GraphBuilder) :
    ∃ b' node, buildSymbolGraph unit b = some b' ∧ Numbered unit node ∧ Ready unit node b' := by
  have hnode := numbered_declarations unit b
  have hready : Ready unit (unit.records.foldl (declare unit) b.reset).irToGraphNode
      (unit.records.foldl (declare unit) b.reset) := by
    refine ⟨rfl, ?_, ?_⟩
    · rw [foldl_declare_parentCache]
      intro x r hx
      simp [GraphBuilder.reset] at hx
    · rw [foldl_declare_keys]
      exact List.nodup_nil
  obtain ⟨b', hrun, hready'⟩ := hready.foldlM_contain hnode unit.records
  exact ⟨b', _, hrun, hnode, hready'⟩

/-! ## The run over the calls -/

theorem foldl_addGraphEdge (caller : ℕ) (targets : List ℕ) (h : Ready unit node b) :
    let b' := targets.foldl (fun b target => addGraphEdge caller target .calls b) b
    Ready unit node b' ∧ b'.currentGraph.graphType = b.currentGraph.graphType ∧
      ∀ key, key ∈ b'.keys ↔ key ∈ b.keys ∨
        ∃ target ∈ targets, key = (caller, target, .calls, b.currentGraph.graphType) := by
  induction targets generalizing b with
  | nil => exact ⟨h, rfl, by simp⟩
  | cons target rest ih =>
      obtain ⟨hready, htype, hkeys⟩ := ih (h.addGraphEdge caller target .calls)
      refine ⟨hready, htype.trans (addGraphEdge_graphType ..), fun key => ?_⟩
      rw [List.foldl_cons, hkeys, mem_keys_addGraphEdge, addGraphEdge_graphType, or_assoc]
      simp only [List.exists_mem_cons_iff]

/-- The pair of nodes an edge of a call joins. -/
def Yields (unit : SemanticUnit) (node : ℕ → Option ℕ) (call : Record) (x y : ℕ) : Prop :=
  call.kind = .callExpr ∧ ∃ d, Container unit node call d ∧ node d = some x ∧
    y ∈ calleeNodes node (buildCalleeIndex unit node) call x

theorem calleeNodes_of_silent {call : Record} (index : CalleeIndex) (caller : ℕ)
    (hname : call.name = []) (hqualified : call.qualifiedName = [])
    (href : call.refOriginalId = 0) : calleeNodes node index call caller = [] := by
  simp [calleeNodes, hname, hqualified, href]

theorem addCall_spec (hnode : Numbered unit node) (h : Ready unit node b) (rec : Record) :
    ∃ b', addCall unit (buildCalleeIndex unit node) b rec = some b' ∧ Ready unit node b' ∧
      b'.currentGraph.graphType = b.currentGraph.graphType ∧
      ∀ key, key ∈ b'.keys ↔ key ∈ b.keys ∨
        ∃ x y, Yields unit node rec x y ∧ key = (x, y, .calls, b.currentGraph.graphType) := by
  have hsame : (∀ x y, ¬ Yields unit node rec x y) → ∀ key, key ∈ b.keys ↔ key ∈ b.keys ∨
      ∃ x y, Yields unit node rec x y ∧ key = (x, y, .calls, b.currentGraph.graphType) := by
    intro hnone key
    simp [hnone]
  unfold addCall
  by_cases hkind : rec.kind = .callExpr
  swap
  · exact ⟨b, by rw [if_pos hkind], h, rfl, hsame fun x y hyields => hkind hyields.1⟩
  rw [if_neg (not_not_intro hkind)]
  by_cases hsilent : rec.name = [] ∧ rec.qualifiedName = [] ∧ rec.refOriginalId = 0
  · refine ⟨b, by rw [if_pos hsilent], h, rfl, hsame fun x y hyields => ?_⟩
    obtain ⟨_, d, _, _, hy⟩ := hyields
    rw [calleeNodes_of_silent _ _ hsilent.1 hsilent.2.1 hsilent.2.2] at hy
    exact List.not_mem_nil hy
  rw [if_neg hsilent]
  obtain ⟨found, cache, hfind, hready, hfound⟩ := findContainingFunction_spec hnode h rec
  refine ⟨_, by rw [hfind]; rfl, ?_⟩
  cases found with
  | none =>
      refine ⟨hready, rfl, hsame fun x y hyields => ?_⟩
      obtain ⟨_, d, hd, _⟩ := hyields
      exact absurd ((hfound d).mpr hd) (by simp)
  | some d =>
      have hd : Container unit node rec d := (hfound d).mp rfl
      have hstop := First.stop_of hd
      obtain ⟨x, hx⟩ := Option.isSome_iff_exists.mp hstop
      have hlookup : (some d).bind b.irToGraphNode = some x := by
        rw [h.node_eq]
        exact hx
      dsimp only
      rw [hlookup]
      obtain ⟨hready', htype, hkeys⟩ := foldl_addGraphEdge x
        (calleeNodes node (buildCalleeIndex unit node) rec x) hready
      have hresolve : resolveCallEdges (buildCalleeIndex unit node) rec x
          { b with parentCache := cache } =
          (calleeNodes node (buildCalleeIndex unit node) rec x).foldl
            (fun b target => addGraphEdge x target .calls b) { b with parentCache := cache } := by
        rw [resolveCallEdges, hready.node_eq]
      dsimp only
      rw [hresolve]
      refine ⟨hready', htype, fun key => (hkeys key).trans (or_congr_right ?_)⟩
      constructor
      · rintro ⟨y, hy, rfl⟩
        exact ⟨x, y, ⟨hkind, d, hd, hx, hy⟩, rfl⟩
      · rintro ⟨x', y, ⟨_, d', hd', hx', hy⟩, rfl⟩
        have hsame : d' = d := First.unique hd' hd
        rw [hsame, hx, Option.some.injEq] at hx'
        subst hx'
        exact ⟨y, hy, rfl⟩

theorem foldlM_addCall (hnode : Numbered unit node) (h : Ready unit node b)
    (records : List Record) :
    ∃ b', records.foldlM (addCall unit (buildCalleeIndex unit node)) b = some b' ∧
      Ready unit node b' ∧ ∀ key, key ∈ b'.keys ↔ key ∈ b.keys ∨ ∃ call ∈ records, ∃ x y,
        Yields unit node call x y ∧ key = (x, y, .calls, b.currentGraph.graphType) := by
  induction records generalizing b with
  | nil => exact ⟨b, rfl, h, by simp⟩
  | cons rec rest ih =>
      obtain ⟨b₁, hstep, hready, htype, hkeys⟩ := addCall_spec hnode h rec
      obtain ⟨b₂, hrun, hready', hkeys'⟩ := ih hready
      refine ⟨b₂, ?_, hready', fun key => ?_⟩
      · rw [List.foldlM_cons, hstep]
        exact hrun
      · rw [hkeys', hkeys, htype, or_assoc]
        simp only [List.exists_mem_cons_iff]

/-- **`buildCallGraph` terminates**; its edges are what the calls yield, each once. -/
theorem buildCallGraph_spec (unit : SemanticUnit) (b : GraphBuilder) :
    ∃ b₁ b₂, buildSymbolGraph unit b = some b₁ ∧ buildCallGraph unit b₁ = some b₂ ∧
      Numbered unit b₁.irToGraphNode ∧ b₂.keys.Nodup ∧
      ∀ key, key ∈ b₂.keys ↔ ∃ call ∈ unit.records, ∃ x y,
        Yields unit b₁.irToGraphNode call x y ∧ key = (x, y, .calls, str "call_graph") := by
  obtain ⟨b₁, node, hsymbol, hnode, hready⟩ := buildSymbolGraph_spec unit b
  obtain rfl := hready.node_eq
  have hstart : Ready unit b₁.irToGraphNode { b₁ with
      nextEdgeId := 1, currentGraph := emptyGraph (str "call-graph") (str "call_graph") } :=
    ⟨rfl, hready.cache_sound, List.nodup_nil⟩
  obtain ⟨b₂, hrun, hready', hkeys⟩ := foldlM_addCall hnode hstart unit.records
  refine ⟨b₁, b₂, hsymbol, hrun, hnode, hready'.keys_nodup, fun key => ?_⟩
  rw [hkeys]
  simp [GraphBuilder.keys, emptyGraph]

/-! ## Layers -/

theorem Numbered.declared_iff (hnode : Numbered unit node) {t : Record} (ht : t ∈ unit.records) :
    Declared t ↔ (node t.id).isSome := by
  rw [hnode.isSome_iff]
  constructor
  · intro hdeclared
    exact ⟨t, ht, rfl, hdeclared⟩
  · rintro ⟨r, hr, hid, hdeclared⟩
    exact List.inj_on_of_nodup_map unit.ids_nodup hr ht hid ▸ hdeclared

theorem Numbered.other_iff (hnode : Numbered unit node) {t : Record} (ht : t ∈ unit.records)
    (hx : node d = some x) : (Declared t ∧ t.id ≠ d) ↔ ∃ y, node t.id = some y ∧ y ≠ x := by
  rw [hnode.declared_iff ht, Option.isSome_iff_exists]
  constructor
  · rintro ⟨⟨y, hy⟩, hne⟩
    exact ⟨y, hy, fun hyx => hne (hnode.injective _ _ y hy (hyx ▸ hx))⟩
  · rintro ⟨y, hy, hne⟩
    refine ⟨⟨y, hy⟩, fun hid => hne ?_⟩
    rw [hid, hx, Option.some.injEq] at hy
    exact hy.symm

theorem mem_equalRange {α : Type} (entries : List (Str × α)) (key : Str) (a : α) :
    a ∈ equalRange entries key ↔ (key, a) ∈ entries := by
  simp [equalRange]

theorem mem_byQualifiedName (key : Str) (y : ℕ) :
    (key, y) ∈ (buildCalleeIndex unit node).byQualifiedName ↔
      ∃ t ∈ unit.records, t.name ≠ [] ∧ t.qualifiedName ≠ [] ∧ t.qualifiedName = key ∧
        node t.id = some y := by
  simp only [buildCalleeIndex, List.mem_filterMap]
  refine exists_congr fun t => and_congr_right fun _ => ?_
  by_cases hname : t.name = [] <;> by_cases hqualified : t.qualifiedName = [] <;>
    simp [hname, hqualified, and_comm]

theorem mem_byName (key : Str) (cand : CalleeCandidate) :
    (key, cand) ∈ (buildCalleeIndex unit node).byName ↔
      ∃ t ∈ unit.records, t.name ≠ [] ∧ t.name = key ∧ node t.id = some cand.graphNodeId ∧
        t.arity = cand.arity := by
  simp only [buildCalleeIndex, List.mem_filterMap]
  refine exists_congr fun t => and_congr_right fun _ => ?_
  by_cases hname : t.name = []
  · simp [hname]
  · rw [if_neg hname]
    cases cand with
    | mk arity graphNodeId =>
        simp only [Option.map_eq_some_iff, Prod.mk.injEq, CalleeCandidate.mk.injEq, ne_eq, hname,
          not_false_eq_true, true_and]
        constructor
        · rintro ⟨n, hn, hkey, harity, rfl⟩
          exact ⟨hkey, hn, harity⟩
        · rintro ⟨hkey, hn, harity⟩
          exact ⟨graphNodeId, hn, hkey, harity, rfl⟩

/-- The nodes are those of the records. -/
def NodesOf (node : ℕ → Option ℕ) (nodes : List ℕ) (records : List Record) : Prop :=
  ∀ y, y ∈ nodes ↔ ∃ t ∈ records, node t.id = some y

/-- The candidates are the records, with their arities. -/
def CandidatesOf (node : ℕ → Option ℕ) (cands : List CalleeCandidate) (records : List Record) :
    Prop :=
  ∀ cand, cand ∈ cands ↔
    ∃ t ∈ records, node t.id = some cand.graphNodeId ∧ t.arity = cand.arity

theorem NodesOf.eq_nil_iff {nodes : List ℕ} (h : NodesOf node nodes records)
    (hall : ∀ t ∈ records, (node t.id).isSome) : nodes = [] ↔ records = [] := by
  constructor
  · rintro rfl
    refine List.eq_nil_iff_forall_not_mem.mpr fun t ht => ?_
    obtain ⟨y, hy⟩ := Option.isSome_iff_exists.mp (hall t ht)
    exact List.not_mem_nil ((h y).mpr ⟨t, ht, hy⟩)
  · rintro rfl
    exact List.eq_nil_iff_forall_not_mem.mpr fun y hy => by simpa using (h y).mp hy

theorem CandidatesOf.nodes {cands : List CalleeCandidate} (h : CandidatesOf node cands records) :
    NodesOf node (cands.map CalleeCandidate.graphNodeId) records := by
  intro y
  simp only [List.mem_map, h _]
  constructor
  · rintro ⟨cand, ⟨t, ht, hn, _⟩, rfl⟩
    exact ⟨t, ht, hn⟩
  · rintro ⟨t, ht, hn⟩
    exact ⟨⟨t.arity, y⟩, ⟨t, ht, hn, rfl⟩, rfl⟩

theorem CandidatesOf.filter {cands : List CalleeCandidate} (h : CandidatesOf node cands records)
    (arity : Int) :
    CandidatesOf node (cands.filter fun cand => cand.arity = arity)
      (records.filter fun t => t.arity = arity) := by
  intro cand
  simp only [List.mem_filter, h cand, decide_eq_true_eq]
  constructor
  · rintro ⟨⟨t, ht, hn, harity⟩, hcand⟩
    exact ⟨t, ⟨ht, harity.trans hcand⟩, hn, harity⟩
  · rintro ⟨t, ⟨ht, hcand⟩, hn, harity⟩
    exact ⟨⟨t, ht, hn, harity⟩, harity.symm.trans hcand⟩

/-- The declared records besides the caller, those that a layer chooses from. -/
def others (unit : SemanticUnit) (caller : ℕ) : List Record :=
  unit.records.filter fun t => Declared t ∧ t.id ≠ caller

theorem mem_others (hnode : Numbered unit node) (hx : node d = some x) (t : Record) :
    t ∈ others unit d ↔ t ∈ unit.records ∧ ∃ y, node t.id = some y ∧ y ≠ x := by
  rw [others, List.mem_filter, decide_eq_true_eq]
  exact and_congr_right fun ht => hnode.other_iff ht hx

theorem isSome_of_mem_others (hnode : Numbered unit node) {t : Record} (ht : t ∈ others unit d) :
    (node t.id).isSome := by
  obtain ⟨hmem, hdeclared⟩ := List.mem_filter.mp ht
  exact (hnode.declared_iff hmem).mp (of_decide_eq_true hdeclared).1

theorem nodesOf_resolved (hnode : Numbered unit node) (hx : node d = some x) (id : ℕ) :
    NodesOf node ((node id).toList.filter fun target => target ≠ x)
      ((others unit d).filter fun t => t.id = id) := by
  intro y
  simp only [List.mem_filter, Option.mem_toList, decide_eq_true_eq,
    mem_others hnode hx]
  constructor
  · rintro ⟨hy, hne⟩
    obtain ⟨t, ht, rfl, _⟩ := (hnode.isSome_iff id).mp (by rw [hy]; rfl)
    exact ⟨t, ⟨⟨ht, y, hy, hne⟩, rfl⟩, hy⟩
  · rintro ⟨t, ⟨⟨_, y', hy', hne⟩, rfl⟩, hy⟩
    rw [hy, Option.some.injEq] at hy'
    exact ⟨hy, hy' ▸ hne⟩

theorem nodesOf_qualified (hnode : Numbered unit node) (hx : node d = some x) (key : Str)
    (hkey : key ≠ []) :
    NodesOf node
      ((equalRange (buildCalleeIndex unit node).byQualifiedName key).filter fun target =>
        target ≠ x)
      (((others unit d).filter fun t => t.name ≠ []).filter fun t => t.qualifiedName = key) := by
  intro y
  simp only [List.mem_filter, mem_equalRange, mem_byQualifiedName, decide_eq_true_eq,
    mem_others hnode hx]
  constructor
  · rintro ⟨⟨t, ht, hname, _, hqualified, hy⟩, hne⟩
    exact ⟨t, ⟨⟨⟨ht, y, hy, hne⟩, hname⟩, hqualified⟩, hy⟩
  · rintro ⟨t, ⟨⟨⟨ht, y', hy', hne⟩, hname⟩, hqualified⟩, hy⟩
    rw [hy, Option.some.injEq] at hy'
    exact ⟨⟨t, ht, hname, hqualified ▸ hkey, hqualified, hy⟩, hy' ▸ hne⟩

theorem candidatesOf_named (hnode : Numbered unit node) (hx : node d = some x) (key : Str) :
    CandidatesOf node
      ((equalRange (buildCalleeIndex unit node).byName key).filter fun cand =>
        cand.graphNodeId ≠ x)
      (((others unit d).filter fun t => t.name ≠ []).filter fun t => t.name = key) := by
  intro cand
  simp only [List.mem_filter, mem_equalRange, mem_byName, decide_eq_true_eq, mem_others hnode hx]
  constructor
  · rintro ⟨⟨t, ht, hname, hkey, hy, harity⟩, hne⟩
    exact ⟨t, ⟨⟨⟨ht, _, hy, hne⟩, hname⟩, hkey⟩, hy, harity⟩
  · rintro ⟨t, ⟨⟨⟨ht, y', hy', hne⟩, hname⟩, hkey⟩, hy, harity⟩
    rw [hy, Option.some.injEq] at hy'
    exact ⟨⟨t, ht, hname, hkey, hy, harity⟩, hy' ▸ hne⟩

theorem layerTargets_eq (unit : SemanticUnit) (call : Record) (caller : ℕ) :
    layerTargets unit call caller =
      if call.refOriginalId ≠ 0 then
        (others unit caller).filter fun t => t.id = call.refOriginalId
      else
        let candidates := (others unit caller).filter fun t => t.name ≠ []
        let qualified := candidates.filter fun t => t.qualifiedName = call.qualifiedName
        if call.qualifiedName ≠ [] ∧ qualified ≠ [] then qualified
        else
          let named := candidates.filter fun t => t.name = call.name
          if call.arity = 0 then named
          else
            let sameArity := named.filter fun t => t.arity = call.arity
            if sameArity ≠ [] then sameArity else named.filter fun t => t.arity = 0 := rfl

/-- **The code's layers are the documented ones.** -/
theorem nodesOf_layerTargets (hnode : Numbered unit node) (hx : node d = some x) (call : Record) :
    NodesOf node (calleeNodes node (buildCalleeIndex unit node) call x)
      (layerTargets unit call d) := by
  rw [layerTargets_eq, calleeNodes]
  by_cases href : call.refOriginalId ≠ 0
  · rw [if_pos href, if_pos href]
    exact nodesOf_resolved hnode hx _
  rw [if_neg href, if_neg href]
  dsimp only
  have hnamed := candidatesOf_named hnode hx call.name
  have hall : ∀ t ∈ (others unit d).filter fun t => t.name ≠ [], (node t.id).isSome :=
    fun t ht => isSome_of_mem_others hnode (List.mem_of_mem_filter ht)
  generalize (equalRange (buildCalleeIndex unit node).byName call.name).filter
    (fun cand => decide (cand.graphNodeId ≠ x)) = cands at hnamed ⊢
  by_cases hmatched : call.qualifiedName ≠ [] ∧
      ((others unit d).filter fun t => t.name ≠ []).filter
        (fun t => t.qualifiedName = call.qualifiedName) ≠ []
  · have hnodes := nodesOf_qualified hnode hx _ hmatched.1
    have hempty := hnodes.eq_nil_iff fun t ht => hall t (List.mem_of_mem_filter ht)
    rw [if_pos hmatched, if_pos ⟨hmatched.1, fun h => hmatched.2 (hempty.mp h)⟩]
    exact hnodes
  have hunmatched : ¬ (call.qualifiedName ≠ [] ∧
      (equalRange (buildCalleeIndex unit node).byQualifiedName call.qualifiedName).filter
        (fun target => target ≠ x) ≠ []) := by
    rintro ⟨hqualified, hmem⟩
    have hnodes := nodesOf_qualified hnode hx _ hqualified
    have hempty := hnodes.eq_nil_iff fun t ht => hall t (List.mem_of_mem_filter ht)
    exact hmatched ⟨hqualified, fun h => hmem (hempty.mpr h)⟩
  rw [if_neg hmatched, if_neg hunmatched]
  by_cases hname : call.name = []
  · -- no declaration in the index is nameless
    have hnone : ((others unit d).filter fun t => t.name ≠ []).filter
        (fun t => t.name = call.name) = [] := by
      rw [List.filter_filter, List.filter_eq_nil_iff, hname]
      simp
    rw [if_pos hname, hnone]
    intro y
    simp
  rw [if_neg hname]
  by_cases harity : call.arity = 0
  · rw [if_neg (not_not_intro harity), if_pos harity]
    exact hnamed.nodes
  rw [if_pos harity, if_neg harity]
  have hsame := hnamed.filter call.arity
  have hempty := hsame.nodes.eq_nil_iff fun t ht =>
    hall t (List.mem_of_mem_filter (List.mem_of_mem_filter ht))
  rw [List.map_eq_nil_iff] at hempty
  by_cases hnone : cands.filter (fun cand => cand.arity = call.arity) = []
  · rw [if_pos hnone, if_neg (not_not_intro (hempty.mp hnone))]
    exact (hnamed.filter 0).nodes
  · rw [if_neg hnone, if_pos fun h => hnone (hempty.mpr h)]
    exact hsame.nodes

/-! ## The result -/

theorem container_iff (hnode : Numbered unit node) (rec : Record) (d : ℕ) :
    Container unit node rec d ↔ Holder unit rec d := by
  have hstop : (fun id => (node id).isSome = true) = HasNode unit :=
    funext fun id => propext (hnode.isSome_iff id)
  rw [Container, Holder, hstop]

theorem exists_yields_iff (hnode : Numbered unit node) (x y : ℕ) :
    (∃ call ∈ unit.records, Yields unit node call x y) ↔
      ∃ f t, HeldCall unit f t ∧ node f = some x ∧ node t = some y := by
  constructor
  · rintro ⟨call, hcall, hkind, d, hd, hx, hy⟩
    obtain ⟨target, htarget, hty⟩ := (nodesOf_layerTargets hnode hx call y).mp hy
    exact ⟨d, target.id, ⟨call, hcall, hkind, (container_iff hnode call d).mp hd, target, htarget,
      rfl⟩, hx, hty⟩
  · rintro ⟨f, t, ⟨call, hcall, hkind, hf, target, htarget, rfl⟩, hx, hy⟩
    exact ⟨call, hcall, hkind, f, (container_iff hnode call f).mpr hf, hx,
      (nodesOf_layerTargets hnode hx call y).mpr ⟨target, htarget, hy⟩⟩

theorem IsFunction.hasNode {f : ℕ} (h : IsFunction unit f) : HasNode unit f := by
  obtain ⟨r, hr, hid, hkind⟩ := h
  refine ⟨r, hr, hid, ?_, ?_⟩
  · rcases hkind with hkind | hkind <;> rw [hkind] <;> rfl
  · rintro ⟨hvariable, _⟩
    rcases hkind with hkind | hkind <;> simp [hkind] at hvariable

theorem hasNode_of_mem_layerTargets {call t : Record} {f : ℕ}
    (ht : t ∈ layerTargets unit call f) : HasNode unit t.id := by
  have hothers : t ∈ others unit f := by
    rw [layerTargets_eq] at ht
    dsimp only at ht
    split_ifs at ht <;> simp only [List.mem_filter] at ht <;> tauto
  obtain ⟨hmem, hdeclared⟩ := List.mem_filter.mp hothers
  exact ⟨t, hmem, rfl, (of_decide_eq_true hdeclared).1⟩

theorem HeldCall.hasNode {f t : ℕ} (h : HeldCall unit f t) : HasNode unit f ∧ HasNode unit t := by
  obtain ⟨call, _, _, hholder, target, htarget, rfl⟩ := h
  exact ⟨First.stop_of hholder, hasNode_of_mem_layerTargets htarget⟩

theorem DocumentedCall.hasNode {f t : ℕ} (h : DocumentedCall unit f t) :
    HasNode unit f ∧ HasNode unit t := by
  obtain ⟨call, _, _, hinnermost, target, htarget, rfl, _⟩ := h
  exact ⟨(First.stop_of hinnermost).hasNode, hasNode_of_mem_layerTargets htarget⟩

/-! ### The order of the records -/

section

variable {unit' : SemanticUnit} (hperm : unit'.records.Perm unit.records)

include hperm

theorem hasNode_perm : HasNode unit' = HasNode unit := by
  funext id
  simp only [HasNode, hperm.mem_iff]

theorem layerTargets_perm (call : Record) (f : ℕ) :
    (layerTargets unit' call f).Perm (layerTargets unit call f) := by
  have hothers : (others unit' f).Perm (others unit f) := hperm.filter _
  have hnil : ∀ p : Record → Bool, ((others unit' f).filter p = []) ↔
      ((others unit f).filter p = []) := by
    intro p
    have hfilter := hothers.filter p
    exact ⟨fun h => List.perm_nil.mp (h ▸ hfilter).symm, fun h => List.perm_nil.mp (h ▸ hfilter)⟩
  simp only [layerTargets_eq, List.filter_filter, ne_eq, hnil]
  split_ifs <;> exact hothers.filter _

theorem heldCall_perm (f t : ℕ) : HeldCall unit' f t ↔ HeldCall unit f t := by
  simp only [HeldCall, Holder, parentOf_perm hperm, hasNode_perm hperm, hperm.mem_iff,
    (layerTargets_perm hperm _ f).mem_iff]

end

/-- What the code makes and what is documented are compared on the records. -/
theorem documented_iff_held (unit : SemanticUnit) :
    CallEdgesDocumented unit ↔ ∀ f t, HeldCall unit f t ↔ DocumentedCall unit f t := by
  constructor
  · intro h f t
    obtain ⟨b₁, b₂, hsymbol, hcalls, _, hkeys⟩ := h unit (.refl _) (.start 1)
    obtain ⟨b₁', b₂', hsymbol', hcalls', hnode, _, hkeys'⟩ :=
      buildCallGraph_spec unit (.start 1)
    obtain rfl : b₁' = b₁ := Option.some.inj (hsymbol'.symm.trans hsymbol)
    obtain rfl : b₂' = b₂ := Option.some.inj (hcalls'.symm.trans hcalls)
    constructor
    · intro hheld
      obtain ⟨x, hx⟩ := Option.isSome_iff_exists.mp ((hnode.isSome_iff f).mpr hheld.hasNode.1)
      obtain ⟨y, hy⟩ := Option.isSome_iff_exists.mp ((hnode.isSome_iff t).mpr hheld.hasNode.2)
      obtain ⟨call, hcall, hyields⟩ := (exists_yields_iff hnode x y).mpr ⟨f, t, hheld, hx, hy⟩
      obtain ⟨f', t', x', y', hdoc, hf', ht', hsame⟩ :=
        (hkeys _).mp ((hkeys' _).mpr ⟨call, hcall, x, y, hyields, rfl⟩)
      simp only [Prod.mk.injEq, and_true] at hsame
      obtain ⟨rfl, rfl⟩ := hsame
      rw [hnode.injective f f' x hx hf', hnode.injective t t' y hy ht']
      exact hdoc
    · intro hdoc
      obtain ⟨x, hx⟩ := Option.isSome_iff_exists.mp ((hnode.isSome_iff f).mpr hdoc.hasNode.1)
      obtain ⟨y, hy⟩ := Option.isSome_iff_exists.mp ((hnode.isSome_iff t).mpr hdoc.hasNode.2)
      obtain ⟨call, hcall, x', y', hyields, hsame⟩ :=
        (hkeys' _).mp ((hkeys _).mpr ⟨f, t, x, y, hdoc, hx, hy, rfl⟩)
      simp only [Prod.mk.injEq, and_true] at hsame
      obtain ⟨rfl, rfl⟩ := hsame
      obtain ⟨f', t', hheld, hf', ht'⟩ := (exists_yields_iff hnode x y).mp ⟨call, hcall, hyields⟩
      rw [hnode.injective f f' x hx hf', hnode.injective t t' y hy ht']
      exact hheld
  · intro h unit' hperm b
    obtain ⟨b₁, b₂, hsymbol, hcalls, hnode, hnodup, hkeys⟩ := buildCallGraph_spec unit' b
    refine ⟨b₁, b₂, hsymbol, hcalls, hnodup, fun key => (hkeys key).trans ?_⟩
    constructor
    · rintro ⟨call, hcall, x, y, hyields, hkey⟩
      obtain ⟨f, t, hheld, hx, hy⟩ := (exists_yields_iff hnode x y).mp ⟨call, hcall, hyields⟩
      exact ⟨f, t, x, y, (h f t).mp ((heldCall_perm hperm f t).mp hheld), hx, hy, hkey⟩
    · rintro ⟨f, t, x, y, hdoc, hx, hy, hkey⟩
      obtain ⟨call, hcall, hyields⟩ := (exists_yields_iff hnode x y).mpr
        ⟨f, t, (heldCall_perm hperm f t).mpr ((h f t).mpr hdoc), hx, hy⟩
      exact ⟨call, hcall, x, y, hyields, hkey⟩

/-- **The call edges are the documented ones if and only if** a call right inside a declaration
    that is not a function has no target from there, and what it has from the function around is
    a target of some call right inside that function; and a target whose arity does not fit a call
    is a fitting one of another call in the same function. -/
theorem call_edges_documented_iff (unit : SemanticUnit) :
    CallEdgesDocumented unit ↔
      ∀ call ∈ unit.records, call.kind = .callExpr → ∀ d, Holder unit call d →
        (¬ IsFunction unit d → layerTargets unit call d = [] ∧
          ∀ f, Innermost unit call f → ∀ t ∈ layerTargets unit call f, ArityFits call t →
            HeldCall unit f t.id) ∧
        (IsFunction unit d → ∀ t ∈ layerTargets unit call d, ¬ ArityFits call t →
          DocumentedCall unit d t.id) := by
  rw [documented_iff_held]
  constructor
  · intro h call hcall hkind d hd
    have hheld : ∀ t ∈ layerTargets unit call d, HeldCall unit d t.id :=
      fun t ht => ⟨call, hcall, hkind, hd, t, ht, rfl⟩
    refine ⟨fun hnot => ⟨?_, fun f hf t ht hfits => ?_⟩, fun _ t ht _ => (h _ _).mp (hheld t ht)⟩
    · refine List.eq_nil_iff_forall_not_mem.mpr fun t ht => hnot ?_
      obtain ⟨_, _, _, hinnermost, _⟩ := (h _ _).mp (hheld t ht)
      exact First.stop_of hinnermost
    · exact (h _ _).mpr ⟨call, hcall, hkind, hf, t, ht, rfl, hfits⟩
  · intro h f t
    constructor
    · rintro ⟨call, hcall, hkind, hholder, target, htarget, rfl⟩
      obtain ⟨hstray, harity⟩ := h call hcall hkind f hholder
      by_cases hfun : IsFunction unit f
      · by_cases hfits : ArityFits call target
        · have hinnermost : Innermost unit call f :=
            First.narrow (fun _ hx => IsFunction.hasNode hx) hholder hfun
          exact ⟨call, hcall, hkind, hinnermost, target, htarget, rfl, hfits⟩
        · exact harity hfun target htarget hfits
      · rw [(hstray hfun).1] at htarget
        exact absurd htarget List.not_mem_nil
    · rintro ⟨call, hcall, hkind, hinnermost, target, htarget, rfl, hfits⟩
      -- the declaration that holds the call is this function, or is not a function
      obtain ⟨d, hd, hsame⟩ := First.weaken (fun _ hx => IsFunction.hasNode hx) hinnermost
      by_cases hfun : IsFunction unit d
      · rw [hsame hfun] at hd
        exact ⟨call, hcall, hkind, hd, target, htarget, rfl⟩
      · exact ((h call hcall hkind d hd).1 hfun).2 f hinnermost target htarget hfits

/-! ## A call in an initializer -/

private def record (id : ℕ) (kind : RecordKind) (name : Str) (parentId : ℕ) : Record :=
  { id := id, kind := kind, name := name, qualifiedName := [], parentId := parentId,
    refOriginalId := 0, arity := 0, isStatic := false, typeName := [], callKind := 0,
    resolveStrategy := [], visibility := 0, startRow := 0, startCol := 0, endRow := 0, endCol := 0,
    language := [], qualifiedTarget := [], receiverText := [], receiverType := [],
    importAlias := [] }

/-- A variable of `main` is initialized with a call of `helper`. -/
def initializerUnit : SemanticUnit where
  filePath := []
  records := [record 1 .function (str "main") 0, record 2 .variable (str "x") 1,
    record 3 .callExpr (str "helper") 2, record 4 .function (str "helper") 0]
  ids_nodup := by decide
  ids_ne_zero := by decide

/-- **The edge starts at the variable.** -/
theorem variable_calls_helper : ¬ CallEdgesDocumented initializerUnit := by
  rw [documented_iff_held]
  intro h
  have hheld : HeldCall initializerUnit 2 4 := by
    refine ⟨record 3 .callExpr (str "helper") 2, by decide, rfl, .here ?_,
      record 4 .function (str "helper") 0, by decide, rfl⟩
    exact ⟨record 2 .variable (str "x") 1, by decide, rfl, by decide⟩
  obtain ⟨_, _, _, hinnermost, _⟩ := (h 2 4).mp hheld
  obtain ⟨r, hr, hid, hkind⟩ := First.stop_of hinnermost
  have hnot : ∀ r ∈ initializerUnit.records, r.id = 2 →
      ¬ (r.kind = .function ∨ r.kind = .method) := by decide
  exact hnot r hr hid hkind

end CodeScope.Graph
