import CodeScope.Library.TopGroups
import CodeScope.Model.Plugins

/-! # Calls between modules

`DeadCodeInspector::findArchitectureDrift` reports the pairs of modules with the most calls, twice:
the drift findings join the Calls relations with the module scopes, the coupling findings join the
rows that `ArchitecturePlugin` wrote, one for every call, with the relations once more. So in the
second count every call stands as often as there are relations from the caller's side into its
target, and in both it stands once for every two scopes of the names. -/

namespace CodeScope.Verify.ModuleCoupling

open Text (Str str lower contains)
open SqlText
open Store (EntityRow)
open Model.Plugins (ArchitectureEdgeRow Build ModelContext crossModuleCalls matchScopes
  pathStartsWithCI populateModelContext)
open TopGroups

/-! ## The rows of the two queries -/

/-- The `substr` tests: one name begins with the other. -/
def overlap (a b : Str) : Bool := b.isPrefixOf a || a.isPrefixOf b

/-- The entity with an id, of whatever project: a join on the primary key. -/
def entityAt (db : Facts) (id : Int) : Option EntityRow := db.entity.rows.find? fun e => e.id = id

/-- `scope … kind = 1` of the project. -/
def modulesOf (db : Facts) (project : ℕ) : List Scope :=
  db.scope.filter fun s => s.project = project && s.kind = 1

/-- The pairs of modules that the first query joins with a relation. -/
def joinedModules (db : Facts) (project : ℕ) (src tgt : EntityRow) : List (Str × Str) :=
  ((modulesOf db project).filter fun m => like none (m.name ++ ['%']) src.filePath).flatMap fun s =>
    (((modulesOf db project).filter fun m => like none (m.name ++ ['%']) tgt.filePath).filter
      fun t => s.id ≠ t.id && !overlap s.name t.name).map fun t => (s.name, t.name)

/-- The rows of the first query that come from one relation. -/
def driftRowsOf (db : Facts) (project : ℕ) (r : Relation) : List (Str × Str) :=
  match entityAt db r.sourceId, entityAt db r.targetId with
  | some src, some tgt => joinedModules db project src tgt
  | _, _ => []

/-- The rows of the first query before they are grouped. -/
def driftRows (db : Facts) (project : ℕ) : List (Str × Str) :=
  (db.callsOf project).flatMap (driftRowsOf db project)

/-- The relations of any type into an entity from one whose path has the name of the module in it. -/
def relationsFrom (db : Facts) (project : ℕ) (caller : Str) (target : Int) : List Relation :=
  (db.relationsOf project).filter fun r => r.targetId = target &&
    (entityAt db r.sourceId).any fun e => like none (str "%" ++ caller ++ str "%") e.filePath

/-- The rows of the second query that come from one row of `architecture_edge`. -/
def coupledRows (db : Facts) (project : ℕ) (ae : ArchitectureEdgeRow) : List (Str × Str) :=
  if ae.project = project && ae.calleeModule ≠ ae.callerModule &&
      !overlap ae.calleeModule ae.callerModule &&
      (entityAt db ae.entityId).any fun e =>
        like none (str "%" ++ ae.calleeModule ++ str "%") e.filePath then
    (relationsFrom db project ae.callerModule ae.entityId).map fun _ =>
      (ae.callerModule, ae.calleeModule)
  else []

/-- The rows of the second query before they are grouped. -/
def couplingRows (db : Facts) (project : ℕ) (edges : List ArchitectureEdgeRow) : List (Str × Str) :=
  edges.flatMap (coupledRows db project)

/-! ## The findings -/

structure Finding where
  type : Str
  description : Str
  confidence : Str

/-- A pair of modules with its number of calls. -/
abbrev Coupled := (Str × Str) × ℕ

def driftFinding (row : Coupled) : Finding where
  type := str "ArchitectureDrift"
  description := str "Module '" ++ row.1.1 ++ str "' calls '" ++ row.1.2 ++ str "' " ++
    (Nat.repr row.2).toList ++ str " times — potential architecture drift."
  confidence := str "0.85"

def couplingFinding (row : Coupled) : Finding where
  type := str "ModuleCoupling"
  description := str "Module coupling: '" ++ row.1.1 ++ str "' calls '" ++ row.1.2 ++ str "' " ++
    (Nat.repr row.2).toList ++
    str " times across a module boundary — a dependency, not a layer violation."
  confidence := str "0.90"

/-- `findArchitectureDrift` on the rows that the plugin wrote; equal groups stand in the order in
    which they were found. -/
def findArchitectureDrift (b : Build) : List Finding :=
  (top 15 (driftRows b.db b.project)).map driftFinding ++
    (top 10 (couplingRows b.db b.project
      (crossModuleCalls b.project (populateModelContext b)))).map couplingFinding

/-! ## The calls between two modules -/

/-- The entity of the project with an id. -/
def memberAt (b : Build) (id : Int) : Option EntityRow :=
  (entityAt b.db id).filter fun e => e.project = b.project

/-- A call leads from an entity whose path begins with one name to one whose path begins with the
    other. -/
def leads (b : Build) (caller callee : Str) (r : Relation) : Bool :=
  (memberAt b r.sourceId).any (fun e => caller.isPrefixOf e.filePath) &&
    (memberAt b r.targetId).any fun e => callee.isPrefixOf e.filePath

/-- The number of calls between two modules. -/
def callsBetween (b : Build) (pair : Str × Str) : ℕ :=
  (b.db.callsOf b.project).countP (leads b pair.1 pair.2)

/-- How many module scopes of the project have a name. -/
def nameCount (b : Build) (name : Str) : ℕ :=
  (modulesOf b.db b.project).countP fun m => m.name = name

/-- In a pair whose number the drift finding gets right each name is that of one scope, and where
    the names match the ends of a call as patterns they begin the paths of entities of the
    project. -/
structure DriftClean (b : Build) (pair : Str × Str) : Prop where
  caller : nameCount b pair.1 = 1
  callee : nameCount b pair.2 = 1
  literal : ∀ r ∈ b.db.callsOf b.project, ∀ src tgt, entityAt b.db r.sourceId = some src →
    entityAt b.db r.targetId = some tgt → InitialLike pair.1 src.filePath →
    InitialLike pair.2 tgt.filePath → leads b pair.1 pair.2 r = true

/-- In a pair whose number the coupling finding gets right each name is that of one scope, and a call
    whose ends begin with the names up to case does so literally and is the only relation of any
    type into its target from a path with the caller's name in it. -/
structure CouplingClean (b : Build) (pair : Str × Str) : Prop where
  caller : nameCount b pair.1 = 1
  callee : nameCount b pair.2 = 1
  single : ∀ r ∈ b.db.callsOf b.project, ∀ src tgt, memberAt b r.sourceId = some src →
    memberAt b r.targetId = some tgt → pathStartsWithCI src.filePath pair.1 = true →
    pathStartsWithCI tgt.filePath pair.2 = true → leads b pair.1 pair.2 r = true ∧
      relationsFrom b.db b.project pair.1 r.targetId = [r]

/-! ## Entities -/

theorem entityAt_eq_some {db : Facts} {id : Int} {e : EntityRow} :
    entityAt db id = some e ↔ e ∈ db.entity.rows ∧ e.id = id := by
  constructor
  · intro h
    exact ⟨List.mem_of_find?_eq_some h, by simpa using List.find?_some h⟩
  · rintro ⟨he, rfl⟩
    cases hfind : entityAt db e.id with
    | none => exact absurd (List.find?_eq_none.mp hfind e he) (by simp)
    | some e' =>
        have hmem := List.mem_of_find?_eq_some hfind
        have hid : e'.id = e.id := by simpa using List.find?_some hfind
        rw [List.inj_on_of_nodup_map db.entity.ids hmem he hid]

theorem memberAt_eq_some {b : Build} {id : Int} {e : EntityRow} :
    memberAt b id = some e ↔ entityAt b.db id = some e ∧ e.project = b.project := by
  rw [memberAt, Option.filter_eq_some_iff, decide_eq_true_eq]

/-- The plugin looks the entities of the project up. -/
theorem entityById_eq (b : Build) (id : Int) :
    (populateModelContext b).entityById id = memberAt b id := by
  cases hmember : memberAt b id with
  | some e =>
      obtain ⟨hat, hproject⟩ := memberAt_eq_some.mp hmember
      obtain ⟨hrow, hid⟩ := entityAt_eq_some.mp hat
      have hin : e ∈ b.db.entitiesOf b.project := List.mem_filter.mpr ⟨hrow, by simpa using hproject⟩
      cases hfind : (populateModelContext b).entityById id with
      | none => exact absurd (List.find?_eq_none.mp hfind e hin) (by simpa using hid)
      | some e' =>
          have hrow' := (List.mem_filter.mp (List.mem_of_find?_eq_some hfind)).1
          have hid' : e'.id = id := by simpa using List.find?_some hfind
          rw [List.inj_on_of_nodup_map b.db.entity.ids hrow' hrow (hid'.trans hid.symm)]
  | none =>
      refine List.find?_eq_none.mpr fun e he hid => ?_
      obtain ⟨hrow, hproject⟩ := List.mem_filter.mp he
      have hsome := memberAt_eq_some.mpr
        ⟨entityAt_eq_some.mpr ⟨hrow, of_decide_eq_true hid⟩, of_decide_eq_true hproject⟩
      rw [hmember] at hsome
      exact absurd hsome (by simp)

theorem leads_iff {b : Build} {caller callee : Str} {r : Relation} :
    leads b caller callee r = true ↔ ∃ src tgt, memberAt b r.sourceId = some src ∧
      memberAt b r.targetId = some tgt ∧ caller <+: src.filePath ∧ callee <+: tgt.filePath := by
  rw [leads, Bool.and_eq_true, Option.any_eq_true, Option.any_eq_true]
  simp only [List.isPrefixOf_iff_prefix]
  constructor
  · intro ⟨⟨src, hsrc, hcaller⟩, tgt, htgt, hcallee⟩
    exact ⟨src, tgt, hsrc, htgt, hcaller, hcallee⟩
  · intro ⟨src, tgt, hsrc, htgt, hcaller, hcallee⟩
    exact ⟨⟨src, hsrc, hcaller⟩, tgt, htgt, hcallee⟩

/-! ## The two counts -/

section Counts

variable (b : Build) (caller callee : Str)

/-- What a call adds to the drift count of a pair. -/
def driftTerm (r : Relation) : ℕ :=
  match entityAt b.db r.sourceId, entityAt b.db r.targetId with
  | some src, some tgt =>
    if InitialLike caller src.filePath ∧ InitialLike callee tgt.filePath then
      nameCount b caller * nameCount b callee
    else 0
  | _, _ => 0

/-- What a call adds to the coupling count of a pair: its rows of `architecture_edge`, each as often
    as relations lead from the caller's side into the target. -/
def couplingTerm (r : Relation) : ℕ :=
  match memberAt b r.sourceId, memberAt b r.targetId with
  | some src, some tgt =>
    if pathStartsWithCI src.filePath caller = true ∧ pathStartsWithCI tgt.filePath callee = true then
      nameCount b caller * nameCount b callee *
        (relationsFrom b.db b.project caller r.targetId).length
    else 0
  | _, _ => 0

variable {b} {caller callee}

theorem countP_matching (p : Str → Bool) (name : Str) :
    ((modulesOf b.db b.project).filter fun m => p m.name).countP (fun m => m.name = name)
      = if p name = true then nameCount b name else 0 := by
  rw [List.countP_filter]
  by_cases hp : p name = true
  · rw [if_pos hp, nameCount]
    refine List.countP_congr fun m _ => ?_
    rw [Bool.and_eq_true, decide_eq_true_eq]
    exact and_iff_left_of_imp fun heq => heq ▸ hp
  · rw [if_neg hp]
    refine List.countP_eq_zero.mpr fun m _ => ?_
    rw [Bool.and_eq_true, decide_eq_true_eq]
    intro ⟨heq, hm⟩
    exact hp (heq ▸ hm)

theorem id_ne_of_overlap {s t : Scope} (hs : s ∈ modulesOf b.db b.project)
    (ht : t ∈ modulesOf b.db b.project) (hover : overlap s.name t.name = false) : s.id ≠ t.id := by
  intro heq
  have hsame := List.inj_on_of_nodup_map b.db.scopeIds (List.mem_filter.mp hs).1
    (List.mem_filter.mp ht).1 heq
  have hself : t.name.isPrefixOf t.name = true := List.isPrefixOf_iff_prefix.mpr List.prefix_rfl
  rw [hsame, overlap, hself] at hover
  exact absurd hover (by simp)

theorem size_driftRows (hover : overlap caller callee = false) :
    size (driftRows b.db b.project) (caller, callee)
      = ((b.db.callsOf b.project).map (driftTerm b caller callee)).sum := by
  rw [driftRows, size_flatMap]
  congr 1
  refine List.map_congr_left fun r _ => ?_
  show size (driftRowsOf b.db b.project r) (caller, callee) = _
  unfold driftRowsOf driftTerm
  cases hsrc : entityAt b.db r.sourceId with
  | none => rfl
  | some src =>
      cases htgt : entityAt b.db r.targetId with
      | none => rfl
      | some tgt =>
          show size (joinedModules b.db b.project src tgt) (caller, callee) = _
          rw [joinedModules, size_join]
          · rw [countP_matching (fun name => like none (name ++ ['%']) src.filePath),
              countP_matching (fun name => like none (name ++ ['%']) tgt.filePath)]
            rw [ite_zero_mul_ite_zero]
            simp only [like_plain_any]
          · rintro s hs t ht rfl rfl
            have hne := id_ne_of_overlap (List.mem_filter.mp hs).1 (List.mem_filter.mp ht).1 hover
            rw [hover]
            simpa using hne

/-- The plugin's rows for a call. -/
def edgeRowsOf (b : Build) (r : Relation) : List ArchitectureEdgeRow :=
  match memberAt b r.sourceId, memberAt b r.targetId with
  | some src, some tgt =>
    (matchScopes (populateModelContext b) src).flatMap fun s =>
      ((matchScopes (populateModelContext b) tgt).filter fun t => s.id ≠ t.id).map fun t =>
        ⟨b.project, s.name, t.name, tgt.id⟩
  | _, _ => []

theorem crossModuleCalls_eq (b : Build) :
    crossModuleCalls b.project (populateModelContext b)
      = (b.db.callsOf b.project).flatMap (edgeRowsOf b) := by
  unfold crossModuleCalls edgeRowsOf
  simp only [entityById_eq]
  rfl

theorem contains_of_prefix {name path : Str} (h : pathStartsWithCI path name = true) :
    contains (lower name) (lower path) = true := by
  rw [pathStartsWithCI, Bool.and_eq_true, decide_eq_true_eq] at h
  have hprefix : lower name <+: lower path := by
    rw [← of_decide_eq_true h.2]
    exact (List.take_prefix name.length path).map Char.toLower
  exact Text.contains_iff_infix.mpr hprefix.isInfix

theorem modulesOf_eq (b : Build) : (populateModelContext b).scopeModules = modulesOf b.db b.project :=
  rfl

/-- The rows of one `architecture_edge` row, for the pair of its own modules. -/
theorem size_coupledRows {s t : Str} {tgt : EntityRow} (hover : overlap caller callee = false)
    (hat : entityAt b.db tgt.id = some tgt) (htgt : pathStartsWithCI tgt.filePath t = true) :
    size (coupledRows b.db b.project ⟨b.project, s, t, tgt.id⟩) (caller, callee)
      = if (s, t) = (caller, callee) then (relationsFrom b.db b.project caller tgt.id).length
        else 0 := by
  by_cases hkey : (s, t) = (caller, callee)
  · obtain ⟨rfl, rfl⟩ := Prod.mk.inj hkey
    have hlike : like none (str "%" ++ t ++ str "%") tgt.filePath = true :=
      like_any_of_contains ( contains_of_prefix htgt)
    have hne : t ≠ s := by
      rintro rfl
      have hself : t.isPrefixOf t = true := List.isPrefixOf_iff_prefix.mpr List.prefix_rfl
      rw [overlap, hself] at hover
      exact absurd hover (by simp)
    have hover' : overlap t s = false := by
      rw [overlap, Bool.or_comm]
      exact hover
    rw [coupledRows, if_pos, size_map_const, if_pos rfl]
    simpa [hne, hover', hat] using hlike
  · rw [if_neg hkey, coupledRows]
    split
    · rw [size_map_const, if_neg hkey]
    · rfl

theorem size_edgeRowsOf (hover : overlap caller callee = false) (r : Relation) :
    size ((edgeRowsOf b r).flatMap (coupledRows b.db b.project)) (caller, callee)
      = couplingTerm b caller callee r := by
  unfold edgeRowsOf couplingTerm
  cases hsrc : memberAt b r.sourceId with
  | none => rfl
  | some src =>
      cases htgt : memberAt b r.targetId with
      | none => rfl
      | some tgt =>
          have hid := (entityAt_eq_some.mp (memberAt_eq_some.mp htgt).1).2
          have hat : entityAt b.db tgt.id = some tgt := by
            rw [hid]
            exact (memberAt_eq_some.mp htgt).1
          show size (List.flatMap _ (List.flatMap _ _)) _ = _
          rw [size_flatMap_key _ (fun ae => (ae.callerModule, ae.calleeModule)) _ _
            (relationsFrom b.db b.project caller tgt.id).length]
          · rw [List.map_flatMap]
            simp only [List.map_map, Function.comp_def]
            rw [size_join]
            · rw [matchScopes, matchScopes, modulesOf_eq, countP_matching (pathStartsWithCI src.filePath),
                countP_matching (pathStartsWithCI tgt.filePath), hid]
              rw [ite_zero_mul_ite_zero, ite_mul, zero_mul]
            · rintro s hs t ht rfl rfl
              exact decide_eq_true (id_ne_of_overlap (List.mem_filter.mp hs).1
                (List.mem_filter.mp ht).1 hover)
          · intro ae hae
            obtain ⟨s, hs, hae⟩ := List.mem_flatMap.mp hae
            obtain ⟨t, ht, rfl⟩ := List.mem_map.mp hae
            exact size_coupledRows hover hat (List.mem_filter.mp (List.mem_filter.mp ht).1).2

theorem size_couplingRows (hover : overlap caller callee = false) :
    size (couplingRows b.db b.project (crossModuleCalls b.project (populateModelContext b)))
        (caller, callee)
      = ((b.db.callsOf b.project).map (couplingTerm b caller callee)).sum := by
  rw [couplingRows, crossModuleCalls_eq, List.flatMap_assoc, size_flatMap]
  exact congrArg List.sum (List.map_congr_left fun r _ => size_edgeRowsOf hover r)

/-! ## When a count is right -/

theorem nameCount_pos {name : Str} (h : ∃ m ∈ modulesOf b.db b.project, m.name = name) :
    0 < nameCount b name := by
  obtain ⟨m, hm, hname⟩ := h
  exact List.countP_pos_iff.mpr ⟨m, hm, decide_eq_true hname⟩

theorem callsBetween_eq_sum (b : Build) (caller callee : Str) :
    callsBetween b (caller, callee) = ((b.db.callsOf b.project).map fun r =>
      if leads b caller callee r = true then 1 else 0).sum :=
  countP_eq_sum (leads b caller callee) (b.db.callsOf b.project)

theorem leads_le_driftTerm (hcaller : 0 < nameCount b caller) (hcallee : 0 < nameCount b callee)
    (r : Relation) :
    (if leads b caller callee r = true then 1 else 0) ≤ driftTerm b caller callee r := by
  split
  · rename_i hleads
    obtain ⟨src, tgt, hsrc, htgt, hsrcPrefix, htgtPrefix⟩ := leads_iff.mp hleads
    unfold driftTerm
    rw [(memberAt_eq_some.mp hsrc).1, (memberAt_eq_some.mp htgt).1]
    show 1 ≤ if _ then _ else _
    rw [if_pos ⟨initialLike_of_initial (hsrcPrefix.map Char.toLower),
      initialLike_of_initial (htgtPrefix.map Char.toLower)⟩]
    exact Nat.mul_pos hcaller hcallee
  · exact Nat.zero_le _

theorem pathStartsWithCI_of_prefix {path name : Str} (h : name <+: path) :
    pathStartsWithCI path name = true := by
  rw [pathStartsWithCI, ← List.prefix_iff_eq_take.mp h]
  simpa using h.length_le

theorem mem_relationsFrom {r : Relation} {src : EntityRow} (hr : r ∈ b.db.callsOf b.project)
    (hsrc : entityAt b.db r.sourceId = some src)
    (hcaller : pathStartsWithCI src.filePath caller = true) :
    r ∈ relationsFrom b.db b.project caller r.targetId := by
  refine List.mem_filter.mpr ⟨(List.mem_filter.mp hr).1, ?_⟩
  rw [hsrc]
  simpa using like_any_of_contains ( contains_of_prefix hcaller)

theorem leads_le_couplingTerm (hcaller : 0 < nameCount b caller) (hcallee : 0 < nameCount b callee)
    {r : Relation} (hr : r ∈ b.db.callsOf b.project) :
    (if leads b caller callee r = true then 1 else 0) ≤ couplingTerm b caller callee r := by
  split
  · rename_i hleads
    obtain ⟨src, tgt, hsrc, htgt, hsrcPrefix, htgtPrefix⟩ := leads_iff.mp hleads
    have hstarts := pathStartsWithCI_of_prefix hsrcPrefix
    have hmem := mem_relationsFrom hr (memberAt_eq_some.mp hsrc).1 hstarts
    unfold couplingTerm
    rw [hsrc, htgt]
    show 1 ≤ if _ then _ else _
    rw [if_pos ⟨hstarts, pathStartsWithCI_of_prefix htgtPrefix⟩]
    exact Nat.mul_pos (Nat.mul_pos hcaller hcallee) (List.length_pos_of_mem hmem)
  · exact Nat.zero_le _

/-- A call adds nothing to the drift count, or its ends match and it adds one for every two scopes
    of the names. -/
theorem driftTerm_cases (b : Build) (caller callee : Str) (r : Relation) :
    driftTerm b caller callee r = 0 ∨
      ∃ src tgt, entityAt b.db r.sourceId = some src ∧ entityAt b.db r.targetId = some tgt ∧
        InitialLike caller src.filePath ∧ InitialLike callee tgt.filePath ∧
        driftTerm b caller callee r = nameCount b caller * nameCount b callee := by
  unfold driftTerm
  split
  · rename_i src tgt hsrc htgt
    by_cases hboth : InitialLike caller src.filePath ∧ InitialLike callee tgt.filePath
    · rw [if_pos hboth]
      exact Or.inr ⟨src, tgt, hsrc, htgt, hboth.1, hboth.2, rfl⟩
    · rw [if_neg hboth]
      exact Or.inl rfl
  · exact Or.inl rfl

/-- Likewise for the coupling count, with the relations from the caller's side into the target. -/
theorem couplingTerm_cases (b : Build) (caller callee : Str) (r : Relation) :
    couplingTerm b caller callee r = 0 ∨
      ∃ src tgt, memberAt b r.sourceId = some src ∧ memberAt b r.targetId = some tgt ∧
        pathStartsWithCI src.filePath caller = true ∧ pathStartsWithCI tgt.filePath callee = true ∧
        couplingTerm b caller callee r = nameCount b caller * nameCount b callee *
          (relationsFrom b.db b.project caller r.targetId).length := by
  unfold couplingTerm
  split
  · rename_i src tgt hsrc htgt
    by_cases hboth : pathStartsWithCI src.filePath caller = true ∧
        pathStartsWithCI tgt.filePath callee = true
    · rw [if_pos hboth]
      exact Or.inr ⟨src, tgt, hsrc, htgt, hboth.1, hboth.2, rfl⟩
    · rw [if_neg hboth]
      exact Or.inl rfl
  · exact Or.inl rfl

/-- **The drift count of a pair that occurs is right exactly if the pair is clean.** -/
theorem size_driftRows_eq_iff (hover : overlap caller callee = false)
    (hmem : (caller, callee) ∈ driftRows b.db b.project) :
    size (driftRows b.db b.project) (caller, callee) = callsBetween b (caller, callee) ↔
      DriftClean b (caller, callee) := by
  -- Some call is counted, so both names are those of scopes.
  obtain ⟨r₀, hr₀, hpos⟩ : ∃ r ∈ b.db.callsOf b.project, 0 < driftTerm b caller callee r := by
    have hsize := size_pos.mpr hmem
    rw [size_driftRows hover] at hsize
    obtain ⟨n, hn, hpos⟩ := List.exists_mem_ne_zero_of_sum_ne_zero hsize.ne'
    obtain ⟨r, hr, rfl⟩ := List.mem_map.mp hn
    exact ⟨r, hr, Nat.pos_of_ne_zero hpos⟩
  have hterm₀ : driftTerm b caller callee r₀ = nameCount b caller * nameCount b callee := by
    rcases driftTerm_cases b caller callee r₀ with hzero | hfull
    · omega
    · obtain ⟨_, _, _, _, _, _, hterm⟩ := hfull
      exact hterm
  rw [hterm₀] at hpos
  have hcaller := Nat.pos_of_mul_pos_right hpos
  have hcallee := Nat.pos_of_mul_pos_left hpos
  rw [size_driftRows hover, callsBetween_eq_sum,
    sum_map_eq_iff fun r _ => leads_le_driftTerm hcaller hcallee r]
  constructor
  · intro hterms
    have hone : nameCount b caller * nameCount b callee = 1 := by
      have h₀ := hterms r₀ hr₀
      rw [hterm₀] at h₀
      split at h₀
      · exact h₀
      · omega
    refine ⟨Nat.eq_one_of_mul_eq_one_right hone, Nat.eq_one_of_mul_eq_one_left hone,
      fun r hr src tgt hsrc htgt hsrcLike htgtLike => ?_⟩
    have hterm := hterms r hr
    rw [driftTerm, hsrc, htgt] at hterm
    simp only [if_pos (And.intro hsrcLike htgtLike), hone] at hterm
    by_contra hleads
    rw [if_neg hleads] at hterm
    omega
  · intro hclean r hr
    rcases driftTerm_cases b caller callee r with hzero | hfull
    · have hle := leads_le_driftTerm hcaller hcallee r
      omega
    · obtain ⟨src, tgt, hsrc, htgt, hsrcLike, htgtLike, hterm⟩ := hfull
      rw [hterm, hclean.caller, hclean.callee,
        if_pos (hclean.literal r hr src tgt hsrc htgt hsrcLike htgtLike)]

/-- **The coupling count of a pair that occurs is right exactly if the pair is clean.** -/
theorem size_couplingRows_eq_iff (hover : overlap caller callee = false)
    (hmem : (caller, callee) ∈ couplingRows b.db b.project
      (crossModuleCalls b.project (populateModelContext b))) :
    size (couplingRows b.db b.project (crossModuleCalls b.project (populateModelContext b)))
        (caller, callee) = callsBetween b (caller, callee) ↔
      CouplingClean b (caller, callee) := by
  obtain ⟨r₀, hr₀, hpos⟩ : ∃ r ∈ b.db.callsOf b.project, 0 < couplingTerm b caller callee r := by
    have hsize := size_pos.mpr hmem
    rw [size_couplingRows hover] at hsize
    obtain ⟨n, hn, hpos⟩ := List.exists_mem_ne_zero_of_sum_ne_zero hsize.ne'
    obtain ⟨r, hr, rfl⟩ := List.mem_map.mp hn
    exact ⟨r, hr, Nat.pos_of_ne_zero hpos⟩
  obtain ⟨src₀, tgt₀, _, _, _, _, hterm₀⟩ :=
    (couplingTerm_cases b caller callee r₀).resolve_left (by omega)
  rw [hterm₀] at hpos
  have hnames := Nat.pos_of_mul_pos_right hpos
  have hcaller := Nat.pos_of_mul_pos_right hnames
  have hcallee := Nat.pos_of_mul_pos_left hnames
  rw [size_couplingRows hover, callsBetween_eq_sum,
    sum_map_eq_iff fun r hr => leads_le_couplingTerm hcaller hcallee hr]
  constructor
  · intro hterms
    have hone : nameCount b caller * nameCount b callee = 1 := by
      have h₀ := hterms r₀ hr₀
      rw [hterm₀] at h₀
      split at h₀
      · exact Nat.eq_one_of_mul_eq_one_right h₀
      · omega
    refine ⟨Nat.eq_one_of_mul_eq_one_right hone, Nat.eq_one_of_mul_eq_one_left hone,
      fun r hr src tgt hsrc htgt hsrcStarts htgtStarts => ?_⟩
    have hself : r ∈ relationsFrom b.db b.project caller r.targetId :=
      mem_relationsFrom hr (memberAt_eq_some.mp hsrc).1 hsrcStarts
    have hlength := List.length_pos_of_mem hself
    have hterm := hterms r hr
    rw [couplingTerm, hsrc, htgt] at hterm
    simp only [if_pos (And.intro hsrcStarts htgtStarts), hone, Nat.one_mul] at hterm
    by_cases hleads : leads b caller callee r = true
    · rw [if_pos hleads] at hterm
      obtain ⟨r', hsingle⟩ := List.length_eq_one_iff.mp hterm
      rw [hsingle, List.mem_singleton] at hself
      exact ⟨hleads, by rw [hsingle, hself]⟩
    · rw [if_neg hleads] at hterm
      omega
  · intro hclean r hr
    rcases couplingTerm_cases b caller callee r with hzero | hfull
    · have hle := leads_le_couplingTerm hcaller hcallee hr
      omega
    · obtain ⟨src, tgt, hsrc, htgt, hsrcStarts, htgtStarts, hterm⟩ := hfull
      obtain ⟨hleads, hsingle⟩ := hclean.single r hr src tgt hsrc htgt hsrcStarts htgtStarts
      rw [hterm, hclean.caller, hclean.callee, hsingle, if_pos hleads]
      rfl

end Counts

/-! ## The reports -/

/-- A report says of each pair of modules how many calls lead from one to the other, the pairs with
    the most calls first, and leaves out no pair with more. -/
structure CountsCalls (b : Build) (out : List Coupled) : Prop where
  exact : ∀ row ∈ out, row.2 = callsBetween b row.1
  ranked : out.Pairwise fun row row' => callsBetween b row'.1 ≤ callsBetween b row.1
  top : ∀ caller callee : Scope, caller ∈ modulesOf b.db b.project →
    callee ∈ modulesOf b.db b.project → overlap caller.name callee.name = false →
    (caller.name, callee.name) ∉ out.map (·.1) →
    ∀ row ∈ out, callsBetween b (caller.name, callee.name) ≤ callsBetween b row.1

theorem overlap_of_mem_driftRows {b : Build} {pair : Str × Str}
    (h : pair ∈ driftRows b.db b.project) : overlap pair.1 pair.2 = false := by
  obtain ⟨r, -, hr⟩ := List.mem_flatMap.mp h
  unfold driftRowsOf at hr
  split at hr
  · obtain ⟨s, -, hs⟩ := List.mem_flatMap.mp hr
    obtain ⟨t, ht, rfl⟩ := List.mem_map.mp hs
    have hcond := (List.mem_filter.mp ht).2
    rw [Bool.and_eq_true, Bool.not_eq_true'] at hcond
    exact hcond.2
  · exact absurd hr List.not_mem_nil

theorem overlap_of_mem_couplingRows {b : Build} {edges : List ArchitectureEdgeRow}
    {pair : Str × Str} (h : pair ∈ couplingRows b.db b.project edges) :
    overlap pair.1 pair.2 = false := by
  obtain ⟨ae, -, hae⟩ := List.mem_flatMap.mp h
  unfold coupledRows at hae
  split at hae
  · rename_i hcond
    obtain ⟨_, -, rfl⟩ := List.mem_map.mp hae
    simp only [Bool.and_eq_true, Bool.not_eq_true'] at hcond
    rw [overlap, Bool.or_comm]
    exact hcond.1.2
  · exact absurd hae List.not_mem_nil

/-- A report of groups that are never too small counts the calls exactly if its rows are right. -/
theorem countsCalls_iff {b : Build} {limit : ℕ} {rows : List (Str × Str)} {out : List Coupled}
    (hout : IsTop limit rows out)
    (hle : ∀ caller callee : Scope, caller ∈ modulesOf b.db b.project →
      callee ∈ modulesOf b.db b.project → overlap caller.name callee.name = false →
      callsBetween b (caller.name, callee.name) ≤ size rows (caller.name, callee.name)) :
    CountsCalls b out ↔ ∀ row ∈ out, size rows row.1 = callsBetween b row.1 := by
  constructor
  · intro h row hrow
    rw [← (hout.count_eq hrow).2]
    exact h.exact row hrow
  · intro h
    have hexact : ∀ row ∈ out, row.2 = callsBetween b row.1 := fun row hrow =>
      (hout.count_eq hrow).2.trans (h row hrow)
    refine ⟨hexact, ?_, fun caller callee hcaller hcallee hover hunlisted row hrow => ?_⟩
    · refine hout.pairwise.imp_of_mem fun {row row'} hrow hrow' hle => ?_
      rw [← hexact row hrow, ← hexact row' hrow']
      exact hle
    · rw [← hexact row hrow]
      exact (hle caller callee hcaller hcallee hover).trans (hout.le_of_unlisted hunlisted hrow)

/-- **The reports count the calls exactly if the pairs they list are clean.** -/
theorem coupling_counts_exact_iff (b : Build) (drift coupling : List Coupled)
    (hdrift : IsTop 15 (driftRows b.db b.project) drift)
    (hcoupling : IsTop 10 (couplingRows b.db b.project
      (crossModuleCalls b.project (populateModelContext b))) coupling) :
    (CountsCalls b drift ∧ CountsCalls b coupling) ↔
      (∀ row ∈ drift, DriftClean b row.1) ∧ ∀ row ∈ coupling, CouplingClean b row.1 := by
  have hdriftLe : ∀ caller callee : Scope, caller ∈ modulesOf b.db b.project →
      callee ∈ modulesOf b.db b.project → overlap caller.name callee.name = false →
      callsBetween b (caller.name, callee.name)
        ≤ size (driftRows b.db b.project) (caller.name, callee.name) := by
    intro caller callee hcaller hcallee hover
    rw [size_driftRows hover, callsBetween_eq_sum]
    exact List.sum_le_sum fun r _ => leads_le_driftTerm (nameCount_pos ⟨caller, hcaller, rfl⟩)
      (nameCount_pos ⟨callee, hcallee, rfl⟩) r
  have hcouplingLe : ∀ caller callee : Scope, caller ∈ modulesOf b.db b.project →
      callee ∈ modulesOf b.db b.project → overlap caller.name callee.name = false →
      callsBetween b (caller.name, callee.name) ≤ size (couplingRows b.db b.project
        (crossModuleCalls b.project (populateModelContext b))) (caller.name, callee.name) := by
    intro caller callee hcaller hcallee hover
    rw [size_couplingRows hover, callsBetween_eq_sum]
    exact List.sum_le_sum fun r hr => leads_le_couplingTerm (nameCount_pos ⟨caller, hcaller, rfl⟩)
      (nameCount_pos ⟨callee, hcallee, rfl⟩) hr
  rw [countsCalls_iff hdrift hdriftLe, countsCalls_iff hcoupling hcouplingLe]
  refine and_congr (forall₂_congr fun row hrow => ?_) (forall₂_congr fun row hrow => ?_)
  · have hmem := (hdrift.count_eq hrow).1
    exact size_driftRows_eq_iff (overlap_of_mem_driftRows hmem) hmem
  · have hmem := (hcoupling.count_eq hrow).1
    exact size_couplingRows_eq_iff (overlap_of_mem_couplingRows hmem) hmem

/-! ## Two callers of one function -/

def functionIn (id : Int) (path : String) : EntityRow where
  id := id
  project := 1
  kind := 0
  name := str "run"
  qualifiedName := []
  filePath := str path
  language := str "c"
  startRow := 1
  startCol := 0
  endRow := 2
  endCol := 0
  modulePath := []
  visibility := 0
  arity := 0

/-- Two modules, and calls of the first function of the second from functions of the first. -/
def callersBuild (callers : List Int) (hcallers : callers.Nodup) : Build where
  db :=
    { entity :=
        { rows := [functionIn 1 "/app/a.c", functionIn 2 "/app/b.c", functionIn 3 "/lib/c.c"]
          ids := by decide }
      relation := callers.map fun id => ⟨id, 1, id, 3, 1⟩
      scope := [⟨1, 1, 1, str "/app/"⟩, ⟨2, 1, 1, str "/lib/"⟩]
      capability := []
      contract := []
      architectureEdge := []
      relationIds := by
        rw [List.map_map]
        exact (List.map_id callers).symm ▸ hcallers
      scopeIds := by decide }
  document := []
  project := 1

theorem isTop_of_groups {limit : ℕ} {rows : List (Str × Str)} {row : Coupled}
    (h : groups rows = [row]) (hlimit : 0 < limit) : IsTop limit rows [row] :=
  ⟨[row], by rw [h], List.pairwise_singleton _ _,
    (List.take_of_length_le (Nat.succ_le_of_lt hlimit)).symm⟩

/-- Two calls of one function are counted as four. -/
theorem two_callers_counted_four :
    ¬ ∀ (b : Build) (drift coupling : List Coupled), IsTop 15 (driftRows b.db b.project) drift →
      IsTop 10 (couplingRows b.db b.project
        (crossModuleCalls b.project (populateModelContext b))) coupling →
      CountsCalls b drift ∧ CountsCalls b coupling := by
  intro hall
  have hgroups : groups (couplingRows (callersBuild [1, 2] (by decide)).db 1
      (crossModuleCalls 1 (populateModelContext (callersBuild [1, 2] (by decide)))))
        = [((str "/app/", str "/lib/"), 4)] := by decide +kernel
  have hcounts := (hall (callersBuild [1, 2] (by decide)) _ _ (isTop_top 15 _)
    (isTop_of_groups hgroups (by decide))).2
  exact absurd (hcounts.exact _ List.mem_cons_self) (by decide +kernel)

theorem one_caller_counted_once :
    CountsCalls (callersBuild [1] (by decide)) [((str "/app/", str "/lib/"), 1)] ∧
      CountsCalls (callersBuild [1] (by decide)) [((str "/app/", str "/lib/"), 1)] := by
  have hcalls : (callersBuild [1] (by decide)).db.callsOf 1 = [⟨1, 1, 1, 3, 1⟩] := by decide +kernel
  refine (coupling_counts_exact_iff (callersBuild [1] (by decide)) _ _
    (isTop_of_groups (by decide +kernel) (by decide))
    (isTop_of_groups (by decide +kernel) (by decide))).mpr ⟨fun row hrow => ?_, fun row hrow => ?_⟩
  · obtain rfl := List.mem_singleton.mp hrow
    refine ⟨by decide +kernel, by decide +kernel, fun r hr _ _ _ _ _ _ => ?_⟩
    obtain rfl := List.mem_singleton.mp (hcalls ▸ hr)
    decide +kernel
  · obtain rfl := List.mem_singleton.mp hrow
    refine ⟨by decide +kernel, by decide +kernel, fun r hr _ _ _ _ _ _ => ?_⟩
    obtain rfl := List.mem_singleton.mp (hcalls ▸ hr)
    decide +kernel

end CodeScope.Verify.ModuleCoupling
