import CodeScope.Library.BreadthFirst
import CodeScope.Library.LimitedSearch
import CodeScope.Query.MultiHop
import CodeScope.Query.NameQueries
import CodeScope.Query.ShortestPath

/-! # Two ways to ask for a path

`traceCallChain` searches the names of the entities that call each other, `tracePathImpl` the packed
adjacency of their ids. The first takes entities of one name for one, so that a chain can change from
one of them to another; what it finds is a path of calls where every chain of names is one. -/

namespace CodeScope.Query

open Text (Str str)
open Walks
open LimitedSearch (Arrangement)

/-! ## The two tools -/

section Tools

variable (db : QueryDb) (project : ℕ)

/-- `bareNameCandidates`: the entities that share the name, if there are several. -/
def bareNameCandidates (name : Str) : List Entity :=
  if name.isEmpty then []
  else
    let named := db.entities.rows.filter (isNamed project name)
    if named.length < 2 then [] else named.mergeSort fun e e' => decide (e.id ≤ e'.id)

/-- The rows of the statement of `traceCallChain`: the names at the two ends of each call. -/
def nameRows : List (Str × Str) :=
  (db.relations.filter fun r => r.projectId = project && r.type = 1).flatMap fun r =>
    (db.entities.rows.filter fun e => e.id = r.sourceId).flatMap fun e₁ =>
      (db.entities.rows.filter fun e => e.id = r.targetId).map fun e₂ => (e₁.name, e₂.name)

/-- `adj`, which has no empty names. -/
def nameCallees (rows : List (Str × Str)) (name : Str) : List Str :=
  (rows.filter fun row => row.1 = name && !row.1.isEmpty && !row.2.isEmpty).map Prod.snd

/-- The search of `traceCallChain`: the round for each name that is queued. -/
def searchNames (rows : List (Str × Str)) (fromFunction toFunction : Str) :
    Option (Option (List Str)) :=
  BreadthFirst.trace (nameCallees rows) [] (rows.length + 1) fromFunction toFunction

/-- What `traceCallChain` answers. -/
inductive ChainAnswer where
  | error (message : Str)
  | ambiguous (candidates : List Entity)
  | found (path : List Str)
  | notFound

/-- `chain` of an answer, in one text. -/
def chainText : List Str → Str
  | [] => []
  | [name] => name
  | name :: rest => name ++ str "→" ++ chainText rest

/-- `traceCallChain`, when the database gives its rows in the given order. -/
def traceCallChain (order : Arrangement (Str × Str)) (fromFunction toFunction : Str) :
    Option ChainAnswer :=
  if fromFunction.isEmpty || toFunction.isEmpty then some (.error (str "empty function name"))
  else if !(bareNameCandidates db project fromFunction).isEmpty then
    some (.ambiguous (bareNameCandidates db project fromFunction))
  else if !(bareNameCandidates db project toFunction).isEmpty then
    some (.ambiguous (bareNameCandidates db project toFunction))
  else
    (searchNames (order.1 (nameRows db project)) fromFunction toFunction).map fun path =>
      match path with
      | none => .notFound
      | some path => .found path

/-- An element of the path that `tracePathImpl` answers with. -/
structure PathNode where
  name : Str
  file : Str
deriving DecidableEq

/-- What `tracePathImpl` answers. -/
inductive TraceAnswer where
  | error (message : Str)
  | ambiguous (candidates : List Entity)
  | path (nodes : List PathNode)

/-- `resolveName`: the first id with that name. -/
def resolveName (name : Str) : Option ℕ :=
  ((db.entities.rows.filter fun e => e.projectId = project && e.name = name).map (·.id)).min?

def Entity.pathNode (e : Entity) : PathNode := ⟨e.name, e.filePath⟩

/-- An id of the path with what the entity table has of it. -/
def hydrate (id : ℕ) : PathNode :=
  match db.entities.rows.find? fun e => e.projectId = project && e.id = id with
  | some e => e.pathNode
  | none => ⟨str "?", []⟩

/-- `tracePathImpl`, with `fuel` rounds for the way back of `findShortestPath`. -/
def tracePathImpl (fuel : ℕ) (fromName toName : Str) : Option TraceAnswer :=
  if fromName.isEmpty || toName.isEmpty then some (.error (str "empty symbol name"))
  else if !(bareNameCandidates db project fromName).isEmpty then
    some (.ambiguous (bareNameCandidates db project fromName))
  else if !(bareNameCandidates db project toName).isEmpty then
    some (.ambiguous (bareNameCandidates db project toName))
  else
    match resolveName db project fromName, resolveName db project toName with
    | some fromId, some toId =>
      (findShortestPath fuel (some db.graph) fromId toId).map fun r =>
        if r.found && !r.path.isEmpty then .path (r.path.map (hydrate db project))
        else .error (str "no path found")
    | _, _ => some (.error (str "symbol not found"))

end Tools

/-! ## When they agree -/

section Agreement

variable (db : QueryDb) (project : ℕ)

/-- The entities of a project that an id calls, in the relation table. -/
def relationCallees (id : ℕ) : List ℕ :=
  (db.relations.filter fun r => r.projectId = project && r.type = 1 && r.sourceId = id).map
    (·.targetId)

/-- Every call of the project joins two of its entities. -/
def CallsJoinEntities : Prop :=
  ∀ r ∈ db.relations, r.projectId = project → r.type = 1 →
    (∃ e ∈ db.entities.rows, e.id = r.sourceId ∧ e.projectId = project) ∧
      ∃ e ∈ db.entities.rows, e.id = r.targetId ∧ e.projectId = project

/-- Entities of the project from one to another, each joined to the next by a call. -/
structure CallPath (x y : Entity) (path : List Entity) : Prop where
  entities : ∀ e ∈ path, e ∈ db.entities.rows ∧ e.projectId = project
  calls : IsPath (relationCallees db project) x.id y.id (path.map (·.id))

/-- The length of the shortest call path. -/
def CallDistance (x y : Entity) (n : ℕ) : Prop :=
  IsDistance (relationCallees db project) {x.id} n y.id

/-- No call path exists. -/
def Unconnected (x y : Entity) : Prop := ∀ n, ¬ Walk (relationCallees db project) n x.id y.id

/-- The rounds of the way back that always suffice. -/
def wayBack : ℕ := kShortestPathMaxDepth + 1

/-- Both tools report a call path of the least length if that is within the bound, and both report
    that there is none if there is none. -/
structure ToolsAgree (a b : Str) (x y : Entity) : Prop where
  near : ∀ order n, n ≤ kShortestPathMaxDepth → CallDistance db project x y n →
    (∃ path, CallPath db project x y path ∧ path.length = n + 1 ∧
      traceCallChain db project order a b = some (.found (path.map (·.name)))) ∧
    ∃ path, CallPath db project x y path ∧ path.length = n + 1 ∧
      tracePathImpl db project wayBack a b = some (.path (path.map Entity.pathNode))
  none : ∀ order, Unconnected db project x y →
    traceCallChain db project order a b = some .notFound ∧
      tracePathImpl db project wayBack a b = some (.error (str "no path found"))

/-- A chain of names, each of which calls the next. -/
def NameChain (a b : Str) (chain : List Str) : Prop :=
  IsPath (nameCallees (nameRows db project)) a b chain

/-- The names that are asked for are the names of the entities, not their qualified names. -/
structure BareNames (a b : Str) (x y : Entity) : Prop where
  source : x.name = a
  target : y.name = b
  source_ne : a ≠ []
  target_ne : b ≠ []

/-- The entities differ, some chain of names is as long as the shortest call path, and every chain
    of names that is no longer runs along calls of entities; where no call path exists there is no
    chain of names. -/
structure NamesSuffice (a b : Str) (x y : Entity) : Prop where
  near : ∀ n ≤ kShortestPathMaxDepth, CallDistance db project x y n →
    BareNames a b x y ∧ x ≠ y ∧
      (∃ chain, NameChain db project a b chain ∧ chain.length = n + 1) ∧
      ∀ chain, NameChain db project a b chain → chain.length ≤ n + 1 →
        ∃ path, CallPath db project x y path ∧ path.map (·.name) = chain
  none : Unconnected db project x y →
    BareNames a b x y ∧ ∀ chain, ¬ NameChain db project a b chain

end Agreement

/-! ## Chains of names -/

section Chains

variable {db : QueryDb} {project : ℕ} {a b : Str}

theorem mem_nameCallees {rows : List (Str × Str)} {name name' : Str} :
    name' ∈ nameCallees rows name ↔ (name, name') ∈ rows ∧ name ≠ [] ∧ name' ≠ [] := by
  simp only [nameCallees, List.mem_map, List.mem_filter, Bool.and_eq_true, decide_eq_true_eq,
    Bool.not_eq_true', List.isEmpty_eq_false_iff]
  constructor
  · rintro ⟨row, ⟨hrow, ⟨hname, hne⟩, hne'⟩, heq⟩
    subst hname heq
    exact ⟨hrow, hne, hne'⟩
  · exact fun ⟨hrow, hne, hne'⟩ => ⟨(name, name'), ⟨hrow, ⟨rfl, hne⟩, hne'⟩, rfl⟩

theorem nameChain_iff (order : Arrangement (Str × Str)) (chain : List Str) :
    IsPath (nameCallees (order.1 (nameRows db project))) a b chain ↔
      NameChain db project a b chain := by
  have hcallees : ∀ x y, y ∈ nameCallees (order.1 (nameRows db project)) x ↔
      y ∈ nameCallees (nameRows db project) x := fun x y => by
    rw [mem_nameCallees, mem_nameCallees, (order.2 _).mem_iff]
  constructor
  · exact fun h => ⟨h.head, h.last, h.steps.imp fun x y hxy => (hcallees x y).mp hxy⟩
  · exact fun h => ⟨h.head, h.last, h.steps.imp fun x y hxy => (hcallees x y).mpr hxy⟩

/-- The search among names ends, with a shortest chain if there is a chain. -/
theorem trace_names (order : Arrangement (Str × Str)) (hne : a ≠ b) :
    ∃ r, searchNames (order.1 (nameRows db project)) a b = some r ∧
      (∀ path, r = some path → NameChain db project a b path ∧
        ∀ chain, NameChain db project a b chain → path.length ≤ chain.length) ∧
      (r = none → ∀ chain, ¬ NameChain db project a b chain) := by
  have hall : ∀ v, ∀ w ∈ nameCallees (order.1 (nameRows db project)) v,
      w ∈ (order.1 (nameRows db project)).map Prod.snd := fun v w hw =>
    List.mem_map.mpr ⟨(v, w), (mem_nameCallees.mp hw).1, rfl⟩
  have hfuel : ((order.1 (nameRows db project)).map Prod.snd).length <
      (order.1 (nameRows db project)).length + 1 := by simp
  obtain ⟨r, hr, hfound, hmissed⟩ := BreadthFirst.trace_spec [] hall hfuel hne
  refine ⟨r, hr, fun path hpath => ?_, fun hnone chain hchain => ?_⟩
  · obtain ⟨hispath, hdistance⟩ := hfound path hpath
    refine ⟨(nameChain_iff order path).mp hispath, fun chain hchain => ?_⟩
    have hother := (nameChain_iff order chain).mpr hchain
    have hleast := hdistance.least (chain.length - 1) ⟨a, rfl, hother.walk⟩
    have hpos := List.length_pos_of_ne_nil hother.ne_nil
    omega
  · exact hmissed hnone _ ((nameChain_iff order chain).mpr hchain).walk

theorem searchNames_self (rows : List (Str × Str)) (a : Str) :
    searchNames rows a a = some none := by
  have hall : ∀ v, ∀ w ∈ nameCallees rows v, w ∈ rows.map Prod.snd := fun v w hw =>
    List.mem_map.mpr ⟨(v, w), (mem_nameCallees.mp hw).1, rfl⟩
  exact BreadthFirst.trace_self [] hall (Nat.lt_succ_of_le (List.length_map _).le)

/-- The rows with the steps of a chain before all others. -/
def stepsFirst (chain : List Str) : Arrangement (Str × Str) :=
  Arrangement.last fun row => !(chain.zip chain.tail).contains row

/-- The rows that come first lead from each name of a chain without repetitions to the next one. -/
theorem nameCallees_stepsFirst {c : ℕ → Str} {k : ℕ}
    (hsteps : ∀ j < k, c (j + 1) ∈ nameCallees (nameRows db project) (c j))
    (hinj : ∀ i ≤ k, ∀ j ≤ k, c i = c j → i = j) {j : ℕ} (hj : j < k) :
    ∃ rest, nameCallees ((stepsFirst ((List.range (k + 1)).map c)).1 (nameRows db project)) (c j) =
      c (j + 1) :: rest := by
  have hzip : ∀ x y, (x, y) ∈ ((List.range (k + 1)).map c).zip ((List.range (k + 1)).map c).tail ↔
      ∃ i < k, c i = x ∧ c (i + 1) = y := by
    intro x y
    rw [List.mem_iff_getElem]
    constructor
    · rintro ⟨i, hi, heq⟩
      have hi' : i < k := by simpa using hi
      refine ⟨i, hi', ?_⟩
      simpa using heq
    · rintro ⟨i, hi, rfl, rfl⟩
      exact ⟨i, by simpa using hi, by simp⟩
  generalize ((List.range (k + 1)).map c) = chain at hzip
  let steps := (nameRows db project).filter fun row => (chain.zip chain.tail).contains row
  have hfirst : (stepsFirst chain).1 (nameRows db project) = steps ++
      (nameRows db project).filter fun row => !(chain.zip chain.tail).contains row := by
    simp only [stepsFirst, LimitedSearch.Arrangement.last, Bool.not_not, steps]
  rw [hfirst, nameCallees, List.filter_append, List.map_append]
  show ∃ rest, nameCallees steps (c j) ++ _ = c (j + 1) :: rest
  have hmem : ∀ y, y ∈ nameCallees steps (c j) ↔ y = c (j + 1) := by
    intro y
    rw [mem_nameCallees, List.mem_filter, List.contains_iff_mem, hzip]
    constructor
    · rintro ⟨⟨-, i, hi, heq, rfl⟩, -⟩
      rw [hinj i (by omega) j (by omega) heq]
    · rintro rfl
      obtain ⟨hrow, hne, hne'⟩ := mem_nameCallees.mp (hsteps j hj)
      exact ⟨⟨hrow, j, hj, rfl, rfl⟩, hne, hne'⟩
  cases hcallees : nameCallees steps (c j) with
  | nil =>
      have hin := (hmem (c (j + 1))).mpr rfl
      rw [hcallees] at hin
      exact absurd hin List.not_mem_nil
  | cons y rest =>
      obtain rfl := (hmem y).mp (by rw [hcallees]; exact List.mem_cons_self)
      exact ⟨_, List.cons_append⟩

/-- **Every shortest chain of names is found in some order of the rows.** -/
theorem trace_stepsFirst {chain : List Str} (hchain : NameChain db project a b chain)
    (hshortest : ∀ other, NameChain db project a b other → chain.length ≤ other.length)
    (hne : a ≠ b) :
    searchNames ((stepsFirst chain).1 (nameRows db project)) a b = some (some chain) := by
  obtain ⟨k, hk⟩ : ∃ k, chain.length = k + 1 :=
    Nat.exists_eq_succ_of_ne_zero (Nat.ne_of_gt (List.length_pos_of_ne_nil hchain.ne_nil))
  let c : ℕ → Str := fun j => chain.getD j []
  have heq : chain = (List.range (k + 1)).map c := by
    refine List.ext_getElem (by simp [hk]) fun i hi _ => ?_
    simp [c, List.getElem?_eq_getElem hi]
  have hzero : c 0 = a := by
    have hhead := hchain.head
    rw [List.head?_eq_getElem?] at hhead
    simp [c, hhead]
  have hlast : c k = b := by
    have hend := hchain.last
    rw [List.getLast?_eq_getElem?, hk] at hend
    simp only [Nat.add_sub_cancel] at hend
    simp [c, hend]
  have hpos : 0 < k := by
    rcases Nat.eq_zero_or_pos k with rfl | hpos
    · exact absurd (hzero.symm.trans hlast) hne
    · exact hpos
  have hsteps : ∀ j < k, c (j + 1) ∈ nameCallees (nameRows db project) (c j) := by
    intro j hj
    have hstep := List.isChain_iff_getElem.mp hchain.steps j (by omega)
    have hj₁ : j < chain.length := by omega
    have hj₂ : j + 1 < chain.length := by omega
    simpa only [c, List.getD_eq_getElem _ _ hj₁, List.getD_eq_getElem _ _ hj₂] using hstep
  have hdistance : IsDistance (nameCallees (nameRows db project)) {c 0} k (c k) := by
    refine ⟨⟨c 0, rfl, ?_⟩, fun m hm => ?_⟩
    · have hwalk := BreadthFirst.walk_part hsteps (Nat.zero_add k).le
      rwa [Nat.zero_add] at hwalk
    · obtain ⟨v, hv, hwalk⟩ := hm
      obtain rfl := Set.mem_singleton_iff.mp hv
      obtain ⟨path, hpath, hlength⟩ := hwalk.path
      rw [hzero, hlast] at hpath
      have hle := hshortest path hpath
      omega
  have hinj : ∀ i ≤ k, ∀ j ≤ k, c i = c j → i = j := by
    intro i hi j hj hij
    have hdi := BreadthFirst.distance_part hsteps hdistance hi
    rw [hij] at hdi
    exact hdi.unique (BreadthFirst.distance_part hsteps hdistance hj)
  have hcallees : ∀ x y, y ∈ nameCallees ((stepsFirst chain).1 (nameRows db project)) x ↔
      y ∈ nameCallees (nameRows db project) x := fun x y => by
    rw [mem_nameCallees, mem_nameCallees, ((stepsFirst chain).2 _).mem_iff]
  have hdistance' : IsDistance (nameCallees ((stepsFirst chain).1 (nameRows db project))) {c 0} k
      (c k) := by
    obtain ⟨⟨v, hv, hwalk⟩, hleast⟩ := hdistance
    refine ⟨⟨v, hv, hwalk.congr fun x y => (hcallees x y).mpr⟩, fun m hm => ?_⟩
    obtain ⟨v, hv, hwalk⟩ := hm
    exact hleast m ⟨v, hv, hwalk.congr fun x y => (hcallees x y).mp⟩
  have hall : ∀ v, ∀ w ∈ nameCallees ((stepsFirst chain).1 (nameRows db project)) v,
      w ∈ ((stepsFirst chain).1 (nameRows db project)).map Prod.snd := fun v w hw =>
    List.mem_map.mpr ⟨(v, w), (mem_nameCallees.mp hw).1, rfl⟩
  have hfirst : ∀ j < k, ∃ rest,
      nameCallees ((stepsFirst chain).1 (nameRows db project)) (c j) = c (j + 1) :: rest := by
    intro j hj
    obtain ⟨rest, hrest⟩ := nameCallees_stepsFirst hsteps hinj hj
    exact ⟨rest, by rwa [← heq] at hrest⟩
  have htrace := BreadthFirst.trace_first [] hall
    (Nat.lt_succ_of_le (List.length_map _).le) hpos hfirst hdistance'
  rwa [hzero, hlast, ← heq] at htrace

end Chains

/-! ## Paths of calls -/

section Paths

variable {db : QueryDb} {project : ℕ} {x y : Entity}

variable {id : ℕ} {path : List Entity}

theorem mem_relationCallees {target : ℕ} : target ∈ relationCallees db project id ↔
    ∃ r ∈ db.relations, r.projectId = project ∧ r.type = 1 ∧ r.sourceId = id ∧
      r.targetId = target := by
  simp [relationCallees, and_assoc]

theorem graph_step (hx : x ∈ db.entities.rows ∧ x.projectId = project) {target : ℕ} :
    target ∈ db.graph.getCalleeIds x.id ↔
      x.id ≠ target ∧ target ∈ relationCallees db project x.id := by
  rw [db.in_step x hx.1, mem_relationCallees, hx.2]

theorem callee_entity (h : CallsJoinEntities db project) {target : ℕ}
    (hstep : target ∈ relationCallees db project id) :
    ∃ e ∈ db.entities.rows, e.id = target ∧ e.projectId = project := by
  obtain ⟨r, hr, hproject, htype, -, rfl⟩ := mem_relationCallees.mp hstep
  exact (h r hr hproject htype).2

theorem walk_entity (h : CallsJoinEntities db project)
    (hx : x ∈ db.entities.rows ∧ x.projectId = project) {n : ℕ}
    (hwalk : Walk (relationCallees db project) n x.id id) :
    ∃ e, (e ∈ db.entities.rows ∧ e.projectId = project) ∧ e.id = id := by
  cases hwalk with
  | nil => exact ⟨x, hx, rfl⟩
  | snoc _ step =>
      obtain ⟨e, he, hid, hproject⟩ := callee_entity h step
      exact ⟨e, ⟨he, hproject⟩, hid⟩

theorem relation_walk (h : CallsJoinEntities db project)
    (hx : x ∈ db.entities.rows ∧ x.projectId = project) {n : ℕ}
    (hwalk : Walk db.graph.getCalleeIds n x.id id) :
    Walk (relationCallees db project) n x.id id := by
  generalize hstart : x.id = start at hwalk
  induction hwalk with
  | nil => exact .nil _
  | snoc _ step ih =>
      subst hstart
      have hback := ih rfl
      obtain ⟨e, he, rfl⟩ := walk_entity h hx hback
      exact .snoc hback ((graph_step he).mp step).2

theorem graph_walk (h : CallsJoinEntities db project)
    (hx : x ∈ db.entities.rows ∧ x.projectId = project) {n : ℕ}
    (hwalk : Walk (relationCallees db project) n x.id id) :
    ∃ m ≤ n, Walk db.graph.getCalleeIds m x.id id := by
  generalize hstart : x.id = start at hwalk
  induction hwalk with
  | nil => exact ⟨0, le_rfl, .nil _⟩
  | @snoc n start id target walk step ih =>
      subst hstart
      obtain ⟨m, hm, hback⟩ := ih rfl
      obtain ⟨e, he, rfl⟩ := walk_entity h hx walk
      by_cases hself : e.id = target
      · exact ⟨m, by omega, hself ▸ hback⟩
      · exact ⟨m + 1, by omega, .snoc hback ((graph_step he).mpr ⟨hself, step⟩)⟩

/-- A path of ids is one of entities. -/
theorem callPath_of_ids (h : CallsJoinEntities db project)
    (hx : x ∈ db.entities.rows ∧ x.projectId = project) {ids : List ℕ}
    (hpath : IsPath (relationCallees db project) x.id y.id ids) :
    ∃ path, CallPath db project x y path ∧ path.map (·.id) = ids := by
  suffices hlift : ∃ path : List Entity,
      (∀ e ∈ path, e ∈ db.entities.rows ∧ e.projectId = project) ∧ path.map (·.id) = ids by
    obtain ⟨path, hentities, hids⟩ := hlift
    exact ⟨path, ⟨hentities, by rwa [hids]⟩, hids⟩
  have hmem : ∀ id ∈ ids, ∃ e, (e ∈ db.entities.rows ∧ e.projectId = project) ∧ e.id = id := by
    intro id hid
    obtain ⟨i, hi, rfl⟩ := List.mem_iff_getElem.mp hid
    exact walk_entity h hx (hpath.walk_getElem hi)
  clear hpath
  induction ids with
  | nil => exact ⟨[], by simp, rfl⟩
  | cons id ids ih =>
      obtain ⟨e, he, rfl⟩ := hmem _ List.mem_cons_self
      obtain ⟨path, hentities, hids⟩ := ih fun id hid => hmem id (List.mem_cons_of_mem _ hid)
      refine ⟨e :: path, fun e' he' => ?_, by rw [List.map_cons, hids]⟩
      rcases List.mem_cons.mp he' with rfl | he'
      · exact he
      · exact hentities e' he'

theorem CallPath.length_pos (h : CallPath db project x y path) : 0 < path.length := by
  have hpos := List.length_pos_of_ne_nil h.calls.ne_nil
  rwa [List.length_map] at hpos

theorem CallPath.walk (h : CallPath db project x y path) :
    Walk (relationCallees db project) (path.length - 1) x.id y.id := by
  have hwalk := h.calls.walk
  rwa [List.length_map] at hwalk

theorem CallPath.ends (h : CallPath db project x y path) (hx : x ∈ db.entities.rows)
    (hy : y ∈ db.entities.rows) : path.head? = some x ∧ path.getLast? = some y := by
  have hhead := h.calls.head
  have hlast := h.calls.last
  rw [List.head?_map, Option.map_eq_some_iff] at hhead
  rw [List.getLast?_map, Option.map_eq_some_iff] at hlast
  obtain ⟨e, he, heq⟩ := hhead
  obtain ⟨e', he', heq'⟩ := hlast
  rw [he, he', db.entities.eq_of_id (h.entities e (List.mem_of_mem_head? he)).1 hx heq,
    db.entities.eq_of_id (h.entities e' (List.mem_of_getLast? he')).1 hy heq']
  exact ⟨rfl, rfl⟩

theorem hydrate_id {e : Entity} (he : e ∈ db.entities.rows ∧ e.projectId = project) :
    hydrate db project e.id = e.pathNode := by
  have hfind : (db.entities.rows.find? fun e' => e'.projectId = project && e'.id = e.id) =
      some e := by
    cases hfound : db.entities.rows.find? fun e' => e'.projectId = project && e'.id = e.id with
    | none =>
        have hnone := List.find?_eq_none.mp hfound e he.1
        simp [he.2] at hnone
    | some e' =>
        have htest := List.find?_some hfound
        simp only [Bool.and_eq_true, decide_eq_true_eq] at htest
        rw [db.entities.eq_of_id (List.mem_of_find?_eq_some hfound) he.1 htest.2]
  rw [hydrate, hfind]

theorem CallPath.hydrate (h : CallPath db project x y path) :
    (path.map (·.id)).map (hydrate db project) = path.map Entity.pathNode := by
  rw [List.map_map]
  exact List.map_congr_left fun e he => hydrate_id (h.entities e he)

/-- What `findShortestPath` finds is a shortest call path. -/
theorem findShortestPath_calls (h : CallsJoinEntities db project)
    (hx : x ∈ db.entities.rows ∧ x.projectId = project) :
    ∃ r, findShortestPath wayBack (some db.graph) x.id y.id = some r ∧
      (Unconnected db project x y → r.found = false) ∧
      ∀ n ≤ kShortestPathMaxDepth, CallDistance db project x y n → r.found = true ∧
        ∃ path, CallPath db project x y path ∧ path.length = n + 1 ∧
          r.path = path.map (·.id) := by
  obtain ⟨r, hr, ⟨htrue, ⟨m, -, hreached⟩, hshortest⟩ | ⟨hfalse, hnone⟩⟩ :=
    findShortestPath_cases db.graph x.id y.id
  · refine ⟨r, hr wayBack (Nat.lt_succ_self _), fun hnone => ?_, fun n hn hdistance => ?_⟩
    · exact absurd (relation_walk h hx hreached) (hnone m)
    obtain ⟨⟨v, hv, hwalk⟩, hleast⟩ := hdistance
    obtain rfl := Set.mem_singleton_iff.mp hv
    obtain ⟨k, hk, hgraph⟩ := graph_walk h hx hwalk
    have hpath := hshortest.path
    have hids : IsPath (relationCallees db project) x.id y.id r.path := by
      refine ⟨hpath.head, hpath.last, List.isChain_iff_getElem.mpr fun i hi => ?_⟩
      have hstep := List.isChain_iff_getElem.mp hpath.steps i hi
      obtain ⟨e, he, hid⟩ := walk_entity h hx
        (relation_walk h hx (hpath.walk_getElem (Nat.lt_of_succ_lt hi)))
      rw [← hid] at hstep ⊢
      exact ((graph_step he).mp hstep).2
    obtain ⟨path, hcalls, hmap⟩ := callPath_of_ids h hx hids
    refine ⟨htrue, path, hcalls, ?_, hmap.symm⟩
    have hlength : path.length = r.path.length := by rw [← hmap, List.length_map]
    obtain ⟨other, hother, hlength'⟩ := hgraph.path
    have hle := hshortest.shortest other hother
    have hge := hleast _ ⟨x.id, rfl, hcalls.walk⟩
    have hpos := hcalls.length_pos
    omega
  · refine ⟨r, hr wayBack (Nat.lt_succ_self _), fun _ => hfalse, fun n hn hdistance => ?_⟩
    obtain ⟨⟨v, hv, hwalk⟩, -⟩ := hdistance
    obtain rfl := Set.mem_singleton_iff.mp hv
    obtain ⟨k, hk, hgraph⟩ := graph_walk h hx hwalk
    exact absurd ⟨k, hk.trans hn, hgraph⟩ hnone

end Paths

/-! ## What the tools answer -/

section Answers

variable {db : QueryDb} {project : ℕ} {a b : Str} {x y : Entity}

/-- Exactly one entity is asked for. -/
structure Names (db : QueryDb) (project : ℕ) (a : Str) (x : Entity) : Prop where
  entity : x ∈ db.entities.rows ∧ x.projectId = project
  unique : ∀ e ∈ db.entities.rows, e.projectId = project → e.name = a → e = x
  unambiguous : bareNameCandidates db project a = []

theorem names_of_filter (h : db.entities.rows.filter (isNamed project a) = [x]) :
    Names db project a x := by
  have hmem : x ∈ db.entities.rows.filter (isNamed project a) := by
    rw [h]
    exact List.mem_singleton_self x
  obtain ⟨hrow, hnamed⟩ := List.mem_filter.mp hmem
  simp only [isNamed, Bool.and_eq_true, decide_eq_true_eq] at hnamed
  refine ⟨⟨hrow, hnamed.1⟩, fun e he hproject hname => ?_, ?_⟩
  · have he' : e ∈ db.entities.rows.filter (isNamed project a) :=
      List.mem_filter.mpr ⟨he, by simp [isNamed, hproject, hname]⟩
    rw [h] at he'
    exact List.mem_singleton.mp he'
  · rw [bareNameCandidates, h]
    split_ifs <;> simp

theorem traceCallChain_eq (hx : Names db project a x) (hy : Names db project b y)
    (ha : a ≠ []) (hb : b ≠ []) (order : Arrangement (Str × Str)) :
    traceCallChain db project order a b =
      (searchNames (order.1 (nameRows db project)) a b).map fun path =>
        match path with
        | none => .notFound
        | some path => .found path := by
  rw [traceCallChain, hx.unambiguous, hy.unambiguous, if_neg (by simp [ha, hb]),
    if_neg (by simp), if_neg (by simp)]

variable {order : Arrangement (Str × Str)}

theorem traceCallChain_searched {answer : ChainAnswer}
    (h : traceCallChain db project order a b = some answer)
    (hanswer : ∀ message, answer ≠ .error message) : a ≠ [] ∧ b ≠ [] := by
  by_contra hempty
  have htest : (a.isEmpty || b.isEmpty) = true := by
    simp only [Bool.or_eq_true, List.isEmpty_iff]
    tauto
  rw [traceCallChain, if_pos htest] at h
  exact hanswer _ (Option.some.inj h).symm

/-- What the chain tool answers is what the search among names found. -/
theorem searchNames_of_trace (hx : Names db project a x) (hy : Names db project b y)
    (result : Option (List Str))
    (h : traceCallChain db project order a b = some (result.elim .notFound .found)) :
    searchNames (order.1 (nameRows db project)) a b = some result := by
  obtain ⟨ha, hb⟩ := traceCallChain_searched h (by cases result <;> simp)
  rw [traceCallChain_eq hx hy ha hb, Option.map_eq_some_iff] at h
  obtain ⟨other, hother, heq⟩ := h
  cases result <;> cases other <;> simp_all

theorem resolveName_eq (hx : Names db project a x) (hname : x.name = a) :
    resolveName db project a = some x.id := by
  have hfilter : ∀ e, e ∈ (db.entities.rows.filter fun e => e.projectId = project && e.name = a) ↔
      e = x := by
    intro e
    simp only [List.mem_filter, Bool.and_eq_true, decide_eq_true_eq]
    constructor
    · exact fun ⟨he, hproject, heq⟩ => hx.unique e he hproject heq
    · rintro rfl
      exact ⟨hx.entity.1, hx.entity.2, hname⟩
  rw [resolveName, List.min?_eq_some_iff]
  constructor
  · exact List.mem_map.mpr ⟨x, (hfilter x).mpr rfl, rfl⟩
  · intro id hid
    obtain ⟨e, he, rfl⟩ := List.mem_map.mp hid
    rw [(hfilter e).mp he]

theorem name_of_resolveName (hx : Names db project a x) {id : ℕ}
    (h : resolveName db project a = some id) : x.name = a := by
  have hmem : id ∈ (db.entities.rows.filter fun e =>
      e.projectId = project && e.name = a).map (·.id) := List.min?_mem h
  obtain ⟨e, he, -⟩ := List.mem_map.mp hmem
  simp only [List.mem_filter, Bool.and_eq_true, decide_eq_true_eq] at he
  rw [← hx.unique e he.1 he.2.1 he.2.2]
  exact he.2.2

theorem tracePathImpl_eq (hx : Names db project a x) (hy : Names db project b y)
    (h : BareNames a b x y) (fuel : ℕ) :
    tracePathImpl db project fuel a b =
      (findShortestPath fuel (some db.graph) x.id y.id).map fun r =>
        if r.found && !r.path.isEmpty then .path (r.path.map (hydrate db project))
        else .error (str "no path found") := by
  rw [tracePathImpl, hx.unambiguous, hy.unambiguous, if_neg (by simp [h.source_ne, h.target_ne]),
    if_neg (by simp), if_neg (by simp), resolveName_eq hx h.source, resolveName_eq hy h.target]

/-- The search among ids was made. -/
theorem bareNames_of_tracePathImpl (hx : Names db project a x) (hy : Names db project b y)
    {fuel : ℕ} {answer : TraceAnswer} (h : tracePathImpl db project fuel a b = some answer)
    (hempty : answer ≠ .error (str "empty symbol name"))
    (hmissing : answer ≠ .error (str "symbol not found")) : BareNames a b x y := by
  rw [tracePathImpl, hx.unambiguous, hy.unambiguous] at h
  by_cases htest : (a.isEmpty || b.isEmpty) = true
  · rw [if_pos htest] at h
    exact absurd (Option.some.inj h).symm hempty
  · rw [if_neg htest, if_neg (by simp), if_neg (by simp)] at h
    simp only [Bool.or_eq_true, List.isEmpty_iff, not_or] at htest
    cases hfrom : resolveName db project a with
    | none =>
        rw [hfrom] at h
        exact absurd (Option.some.inj h).symm hmissing
    | some fromId =>
        cases hto : resolveName db project b with
        | none =>
            rw [hfrom, hto] at h
            exact absurd (Option.some.inj h).symm hmissing
        | some toId =>
            exact ⟨name_of_resolveName hx hfrom, name_of_resolveName hy hto, htest.1, htest.2⟩

end Answers

/-! ## When they agree: the proof -/

section

variable {db : QueryDb} {project : ℕ} {a b : Str} {x y : Entity}

/-- Chains of names that all come from calls are found as such. -/
theorem toolsAgree_of_suffice (h : CallsJoinEntities db project) (hx : Names db project a x)
    (hy : Names db project b y) (hnames : NamesSuffice db project a b x y) :
    ToolsAgree db project a b x y := by
  have hdiffer : BareNames a b x y → x ≠ y → a ≠ b := by
    intro hbare hne heq
    exact hne (hy.unique x hx.entity.1 hx.entity.2 (hbare.source.trans heq))
  constructor
  · intro order n hn hdistance
    obtain ⟨hbare, hne, ⟨chain, hchain, hlength⟩, hreal⟩ := hnames.near n hn hdistance
    constructor
    · obtain ⟨r, hr, hfound, hmissed⟩ := trace_names order (hdiffer hbare hne)
      rw [traceCallChain_eq hx hy hbare.source_ne hbare.target_ne, hr]
      cases r with
      | none => exact absurd hchain (hmissed rfl chain)
      | some names =>
          obtain ⟨hnamechain, hleast⟩ := hfound names rfl
          have hle := hleast chain hchain
          obtain ⟨path, hpath, rfl⟩ := hreal names hnamechain (by omega)
          refine ⟨path, hpath, ?_, rfl⟩
          have hge := hdistance.least _ ⟨x.id, rfl, hpath.walk⟩
          have hpos := hpath.length_pos
          rw [List.length_map] at hle
          omega
    · obtain ⟨r, hr, -, hfound⟩ := findShortestPath_calls (y := y) h hx.entity
      obtain ⟨htrue, path, hpath, hlength, heq⟩ := hfound n hn hdistance
      refine ⟨path, hpath, hlength, ?_⟩
      have hpos := hpath.length_pos
      have htest : (r.found && !r.path.isEmpty) = true := by
        rw [htrue, heq]
        simpa [List.isEmpty_iff, ← List.length_eq_zero_iff] using hpos.ne'
      rw [tracePathImpl_eq hx hy hbare, hr, Option.map_some, if_pos htest, heq, hpath.hydrate]
  · intro order hnone
    obtain ⟨hbare, hchains⟩ := hnames.none hnone
    have hne : x ≠ y := by
      rintro rfl
      exact hnone 0 (.nil _)
    constructor
    · obtain ⟨r, hr, hfound, -⟩ := trace_names order (hdiffer hbare hne)
      rw [traceCallChain_eq hx hy hbare.source_ne hbare.target_ne, hr]
      cases r with
      | none => rfl
      | some names => exact absurd (hfound names rfl).1 (hchains names)
    · obtain ⟨r, hr, hfalse, -⟩ := findShortestPath_calls (y := y) h hx.entity
      rw [tracePathImpl_eq hx hy hbare, hr, Option.map_some, hfalse hnone]
      rfl

/-- What is found in every order of the rows comes from calls. -/
theorem suffice_of_toolsAgree (hx : Names db project a x) (hy : Names db project b y)
    (hsame : a = b → x = y) (hagree : ToolsAgree db project a b x y) :
    NamesSuffice db project a b x y := by
  have hfound : ∀ (order : Arrangement (Str × Str)) {n}, n ≤ kShortestPathMaxDepth →
      CallDistance db project x y n →
      ∃ path, CallPath db project x y path ∧ path.length = n + 1 ∧
        searchNames (order.1 (nameRows db project)) a b = some (some (path.map (·.name))) := by
    intro order n hn hdistance
    obtain ⟨⟨path, hpath, hlength, htrace⟩, -⟩ := hagree.near order n hn hdistance
    exact ⟨path, hpath, hlength, searchNames_of_trace hx hy (some _) htrace⟩
  have hnames := @trace_names db project a b .stored
  constructor
  · intro n hn hdistance
    obtain ⟨path, hpath, hlength, hsearch⟩ := hfound .stored hn hdistance
    have hne : a ≠ b := by
      rintro rfl
      rw [searchNames_self] at hsearch
      exact absurd hsearch (by simp)
    obtain ⟨r, hr, hchain, -⟩ := hnames hne
    obtain rfl := Option.some.inj (hr.symm.trans hsearch)
    obtain ⟨hnamechain, hleast⟩ := hchain _ rfl
    obtain ⟨-, path', -, -, htools⟩ := hagree.near .stored n hn hdistance
    refine ⟨bareNames_of_tracePathImpl hx hy htools (by simp) (by simp), ?_, ?_, ?_⟩
    · rintro rfl
      obtain ⟨hhead, hlast⟩ := hpath.ends hx.entity.1 hx.entity.1
      have hfirst := hnamechain.head
      have hend := hnamechain.last
      rw [List.head?_map, hhead] at hfirst
      rw [List.getLast?_map, hlast] at hend
      exact hne ((Option.some.inj hfirst).symm.trans (Option.some.inj hend))
    · exact ⟨_, hnamechain, by rw [List.length_map, hlength]⟩
    · intro chain hother hshort
      -- it is a shortest one, so that some order of the rows leads to it
      have hshortest : ∀ other, NameChain db project a b other → chain.length ≤ other.length := by
        intro other h
        have hle := hleast other h
        rw [List.length_map] at hle
        omega
      obtain ⟨path'', hpath'', -, hsearch''⟩ := hfound (stepsFirst chain) hn hdistance
      rw [trace_stepsFirst hother hshortest hne] at hsearch''
      exact ⟨path'', hpath'', (Option.some.inj (Option.some.inj hsearch'')).symm⟩
  · intro hnone
    obtain ⟨htrace, htools⟩ := hagree.none .stored hnone
    have hne : a ≠ b := by
      intro heq
      exact hnone 0 (hsame heq ▸ .nil _)
    obtain ⟨r, hr, -, hmissed⟩ := hnames hne
    obtain rfl := Option.some.inj (hr.symm.trans (searchNames_of_trace hx hy none htrace))
    refine ⟨bareNames_of_tracePathImpl hx hy htools ?_ ?_, hmissed rfl⟩
    · exact fun heq => absurd (TraceAnswer.error.inj heq) (by decide)
    · exact fun heq => absurd (TraceAnswer.error.inj heq) (by decide)

/-- **The tools agree exactly when names suffice.** -/
theorem toolsAgree_iff (h : CallsJoinEntities db project)
    (hx : db.entities.rows.filter (isNamed project a) = [x])
    (hy : db.entities.rows.filter (isNamed project b) = [y]) :
    ToolsAgree db project a b x y ↔ NamesSuffice db project a b x y := by
  constructor
  · refine suffice_of_toolsAgree (names_of_filter hx) (names_of_filter hy) ?_
    rintro rfl
    exact List.singleton_inj.mp (hx.symm.trans hy)
  · exact toolsAgree_of_suffice h (names_of_filter hx) (names_of_filter hy)

end

/-- Of three functions in a row, both tools find the call from the first to the second. -/
theorem toolsAgree_line :
    ToolsAgree lineDb 1 (str "a") (str "b") ⟨1, 1, 0, str "a", [], [], []⟩
      ⟨2, 1, 0, str "b", [], [], []⟩ := by
  have hjoin : CallsJoinEntities lineDb 1 := by
    unfold CallsJoinEntities
    decide +kernel
  have hcall : CallPath lineDb 1 ⟨1, 1, 0, str "a", [], [], []⟩ ⟨2, 1, 0, str "b", [], [], []⟩
      [⟨1, 1, 0, str "a", [], [], []⟩, ⟨2, 1, 0, str "b", [], [], []⟩] :=
    ⟨by decide +kernel, rfl, rfl, List.isChain_pair.mpr (by decide)⟩
  refine (toolsAgree_iff hjoin (by decide +kernel) (by decide +kernel)).mpr ⟨fun n _ hn => ?_,
    fun hnone => absurd (Walk.one (by decide)) (hnone 1)⟩
  have hone : n = 1 := by
    have hle := hn.least 1 ⟨1, rfl, .one (by decide)⟩
    rcases Nat.eq_zero_or_pos n with rfl | hpos
    · obtain ⟨s, hs, hwalk⟩ := hn.reaches
      rw [Set.mem_singleton_iff.mp hs] at hwalk
      exact absurd (walk_zero_iff.mp hwalk) (by decide)
    · omega
  subst hone
  refine ⟨⟨rfl, rfl, by decide, by decide⟩, by decide, ⟨[str "a", str "b"], ⟨rfl, rfl, ?_⟩, rfl⟩,
    fun chain hchain hlength => ⟨_, hcall, ?_⟩⟩
  · exact List.isChain_pair.mpr (by decide +kernel)
  · match chain, hchain.head, hchain.last, hlength with
    | [name], hhead, hlast, _ =>
        exact absurd ((Option.some.inj hhead).symm.trans (Option.some.inj hlast)) (by decide)
    | [name, name'], hhead, hlast, _ =>
        obtain rfl : name = str "a" := Option.some.inj hhead
        obtain rfl : name' = str "b" := Option.some.inj hlast
        rfl

/-! ## Two functions of one name -/

theorem homonym_transpose {a b : ℕ} :
    b ∈ (if a = 1 then [2] else if a = 3 then [4] else [] : List ℕ) ↔
      a ∈ (if b = 2 then [1] else if b = 4 then [3] else [] : List ℕ) := by
  split_ifs <;> simp <;> omega

theorem homonym_callee {a b : ℕ}
    (hb : b ∈ (if a = 1 then [2] else if a = 3 then [4] else [] : List ℕ)) :
    b ∈ ({2, 4} : Finset ℕ) := by
  split_ifs at hb <;> simp_all

/-- `a` calls one `m`, and another `m` calls `b`. -/
def homonymGraph : CallGraph where
  getCalleeIds n := if n = 1 then [2] else if n = 3 then [4] else []
  getCallerIds n := if n = 2 then [1] else if n = 4 then [3] else []
  transpose := homonym_transpose
  nodes := {2, 4}
  callee_mem := homonym_callee

theorem homonym_in_step : ∀ e ∈ ([⟨1, 1, 0, str "a", [], [], []⟩, ⟨2, 1, 0, str "m", [], [], []⟩,
      ⟨3, 1, 0, str "m", [], [], []⟩, ⟨4, 1, 0, str "b", [], [], []⟩] : List Entity), ∀ b : ℕ,
    b ∈ homonymGraph.getCalleeIds e.id ↔ e.id ≠ b ∧
      ∃ r ∈ ([⟨1, 1, 1, 2, 1⟩, ⟨2, 1, 3, 4, 1⟩] : List Relation),
        r.projectId = e.projectId ∧ r.type = 1 ∧ r.sourceId = e.id ∧ r.targetId = b := by
  intro e he b
  simp only [List.mem_cons, List.not_mem_nil, or_false] at he
  rcases he with rfl | rfl | rfl | rfl
  · simp [homonymGraph]
    omega
  · simp [homonymGraph]
  · simp [homonymGraph]
    omega
  · simp [homonymGraph]

def homonymDb : QueryDb where
  entities := {
    rows := [⟨1, 1, 0, str "a", [], [], []⟩, ⟨2, 1, 0, str "m", [], [], []⟩,
      ⟨3, 1, 0, str "m", [], [], []⟩, ⟨4, 1, 0, str "b", [], [], []⟩]
    ids_nodup := by decide }
  relations := [⟨1, 1, 1, 2, 1⟩, ⟨2, 1, 3, 4, 1⟩]
  graph := homonymGraph
  in_step := homonym_in_step

theorem homonym_unconnected :
    Unconnected homonymDb 1 ⟨1, 1, 0, str "a", [], [], []⟩ ⟨4, 1, 0, str "b", [], [], []⟩ := by
  intro n hwalk
  have hends : ∀ {m s t}, Walk (relationCallees homonymDb 1) m s t → s = 1 → t = 1 ∨ t = 2 := by
    intro m s t h hs
    induction h with
    | nil => exact Or.inl hs
    | snoc _ step ih =>
        rcases ih hs with rfl | rfl
        · have hmem : _ ∈ [2] := step
          exact Or.inr (List.mem_singleton.mp hmem)
        · have hmem : _ ∈ ([] : List ℕ) := step
          exact absurd hmem List.not_mem_nil
  exact absurd (hends hwalk rfl) (by decide)

/-- **A chain of names can change from one function to another**: `traceCallChain` answers with
    `a→m→b`, although there is no path of calls. -/
theorem chain_across_homonyms :
    ¬ ∀ (db : QueryDb) (project : ℕ) (a b : Str) (x y : Entity), CallsJoinEntities db project →
      db.entities.rows.filter (isNamed project a) = [x] →
      db.entities.rows.filter (isNamed project b) = [y] → ToolsAgree db project a b x y := by
  intro hall
  have hjoin : CallsJoinEntities homonymDb 1 := by
    unfold CallsJoinEntities
    decide +kernel
  have hx : homonymDb.entities.rows.filter (isNamed 1 (str "a")) =
      [⟨1, 1, 0, str "a", [], [], []⟩] := by decide +kernel
  have hy : homonymDb.entities.rows.filter (isNamed 1 (str "b")) =
      [⟨4, 1, 0, str "b", [], [], []⟩] := by decide +kernel
  have hagree := hall homonymDb 1 (str "a") (str "b") _ _ hjoin hx hy
  have hmissed := searchNames_of_trace (names_of_filter hx) (names_of_filter hy) none
    (hagree.none .stored homonym_unconnected).1
  have hfound : searchNames (nameRows homonymDb 1) (str "a") (str "b") =
      some (some [str "a", str "m", str "b"]) := by
    decide +kernel
  exact absurd (hfound.symm.trans hmissed) (by simp)

end CodeScope.Query
