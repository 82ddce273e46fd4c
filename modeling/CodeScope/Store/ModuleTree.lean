import CodeScope.Library.ParentForest
import CodeScope.Library.Ranking
import CodeScope.Library.Text
import CodeScope.Util.JsonTree

/-! # The table of modules and its tree

`insertModule` adds a row unless the project has one with the path. `getModuleTreeJson` groups the
rows of a project by their parents and writes them from the roots down. -/

namespace CodeScope.Store

open Text JsonText Util CallTree ParentForest

structure ModuleRow where
  id : ℕ
  project : ℕ
  parentId : Option ℕ
  name : Str
  path : Str
  language : Str
  fileCount : Int
deriving DecidableEq

abbrev ModuleTable := List ModuleRow

/-- The id that `AUTOINCREMENT` gives next. -/
def nextModuleId (t : ModuleTable) : ℕ := (t.map ModuleRow.id).foldr max 0 + 1

def findModule (t : ModuleTable) (project : ℕ) (path : Str) : Option ModuleRow :=
  t.find? fun r => r.project = project && r.path = path

/-- The row that `insertModule` adds; a parent of 0 is stored as `NULL`. -/
def newModule (t : ModuleTable) (project parentId : ℕ) (name path language : Str) : ModuleRow where
  id := nextModuleId t
  project := project
  parentId := if 0 < parentId then some parentId else none
  name := name
  path := path
  language := language
  fileCount := 0

/-- The table after the call and the id it returns. -/
def insertModule (t : ModuleTable) (project parentId : ℕ) (name path language : Str) :
    ModuleTable × ℕ :=
  match findModule t project path with
  | some r => (t, r.id)
  | none => (t ++ [newModule t project parentId name path language], nextModuleId t)

/-! ## The text -/

/-- `parent_id`, with 0 for `NULL`. -/
def ModuleRow.parentKey (m : ModuleRow) : ℕ := m.parentId.getD 0

def projectModules (t : ModuleTable) (project : ℕ) : List ModuleRow :=
  t.filter fun r => r.project = project

/-- `SELECT … FROM modules WHERE project_id = ? ORDER BY path` -/
def modulesOf (t : ModuleTable) (project : ℕ) : List ModuleRow :=
  Ranking.sorted ModuleRow.path (projectModules t project)

/-- `children_of[id]` -/
def childIds (modules : List ModuleRow) (id : ℕ) : List ℕ :=
  (modules.filter fun m => m.parentKey = id).map ModuleRow.id

/-- The members of a module's element, up to `file_count`. -/
def moduleFields (m : ModuleRow) (depth : ℕ) : Bytes :=
  lit "\x7b\"id\":" ++ integerText m.id ++
    lit ",\"parent_id\":" ++ integerText m.parentKey ++
    lit ",\"depth\":" ++ integerText depth ++
    lit ",\"name\":\"" ++ jsonEscapeString (textBytes m.name) ++ lit "\"" ++
    lit ",\"path\":\"" ++ jsonEscapeString (textBytes m.path) ++ lit "\"" ++
    lit ",\"language\":\"" ++ jsonEscapeString (textBytes m.language) ++ lit "\"" ++
    lit ",\"file_count\":" ++ integerText m.fileCount

/-- `outMod`: what has been written, and whether the next element is the first of its array. The
    recursion ends at the given depth, which no chain of modules exceeds. -/
def outMod (modules : List ModuleRow) : ℕ → ℕ → Bytes × Bool → ℕ → Bytes × Bool
  | 0, _, out, _ => out
  | fuel + 1, depth, (json, first), id =>
    match modules.find? fun m => m.id = id with
    | none => (json, first)
    | some m =>
      let json := json ++ (if first then [] else [comma]) ++ moduleFields m depth
      let json :=
        if childIds modules id = [] then json
        else ((childIds modules id).foldl (outMod modules fuel (depth + 1))
          (json ++ lit ",\"children\":[", true)).1 ++ lit "]"
      (json ++ lit "\x7d", false)

def getModuleTreeJson (t : ModuleTable) (project : ℕ) : Bytes :=
  let modules := modulesOf t project
  if modules = [] then lit "\x7b\"modules\":[]\x7d"
  else (((modules.filter fun m => m.parentKey = 0).map ModuleRow.id).foldl
    (outMod modules (modules.length + 1) 0) (lit "\x7b\"modules\":[", true)).1 ++ lit "]\x7d"

/-! ## The forest it stands for -/

def moduleMembers (m : ModuleRow) (depth : ℕ) : List (Bytes × CallTree) :=
  [(lit "id", .scalar (.integer m.id)), (lit "parent_id", .scalar (.integer m.parentKey)),
    (lit "depth", .scalar (.integer depth)), (lit "name", .scalar (.string (textBytes m.name))),
    (lit "path", .scalar (.string (textBytes m.path))),
    (lit "language", .scalar (.string (textBytes m.language))),
    (lit "file_count", .scalar (.integer m.fileCount))]

mutual

/-- The element of a module and of the modules below it. -/
def moduleElement (depth : ℕ) : RoseTree ModuleRow → CallTree
  | .node m cs => .object (moduleMembers m depth ++
      if cs.isEmpty then [] else [(lit "children", .array (moduleElements (depth + 1) cs))])

def moduleElements (depth : ℕ) : List (RoseTree ModuleRow) → List CallTree
  | [] => []
  | t :: ts => moduleElement depth t :: moduleElements depth ts

end

/-- The document with the modules. -/
def moduleDocument (forest : List (RoseTree ModuleRow)) : CallTree :=
  .object [(lit "modules", .array (moduleElements 0 forest))]

/-- The document has every row once, below its parent. -/
structure RendersForest (rows : List ModuleRow) (forest : List (RoseTree ModuleRow)) : Prop where
  once : (forest.flatMap RoseTree.values).Perm rows
  roots : ∀ t ∈ forest, t.value.parentId = none
  nested : ∀ t ∈ forest, Nested ModuleRow.id ModuleRow.parentId t

/-! ## The text is the text of the forest -/

theorem renderItems_cons (t : CallTree) (ts : List CallTree) :
    renderItems (t :: ts) = render t ++ ts.flatMap fun u => comma :: render u := by
  induction ts generalizing t with
  | nil =>
      show render t ++ [] = _
      rfl
  | cons u ts ih =>
      show render t ++ comma :: renderItems (u :: ts) = _
      rw [ih, List.flatMap_cons]
      rfl

theorem moduleElements_eq (depth : ℕ) (ts : List (RoseTree ModuleRow)) :
    moduleElements depth ts = ts.map (moduleElement depth) := by
  induction ts with
  | nil => rfl
  | cons t ts ih =>
      show moduleElement depth t :: moduleElements depth ts = _
      rw [ih, List.map_cons]

/-- The members in the order in which they are written. -/
theorem render_members (m : ModuleRow) (depth : ℕ) (more : List (Bytes × CallTree)) :
    render (.object (moduleMembers m depth ++ more)) =
      moduleFields m depth ++ (if more.isEmpty then [] else comma :: renderMembers more) ++
        lit "\x7d" := by
  have hid : lit "\x7b\"id\":" = openBrace :: (JsonWriter.escapedString (lit "id") ++ [colon]) := by
    decide
  have hparent : lit ",\"parent_id\":" =
      comma :: (JsonWriter.escapedString (lit "parent_id") ++ [colon]) := by decide
  have hdepth : lit ",\"depth\":" =
      comma :: (JsonWriter.escapedString (lit "depth") ++ [colon]) := by decide
  have hname : lit ",\"name\":\"" =
      comma :: (JsonWriter.escapedString (lit "name") ++ [colon, quote]) := by decide
  have hpath : lit ",\"path\":\"" =
      comma :: (JsonWriter.escapedString (lit "path") ++ [colon, quote]) := by decide
  have hlanguage : lit ",\"language\":\"" =
      comma :: (JsonWriter.escapedString (lit "language") ++ [colon, quote]) := by decide
  have hcount : lit ",\"file_count\":" =
      comma :: (JsonWriter.escapedString (lit "file_count") ++ [colon]) := by decide
  have hquote : lit "\"" = [quote] := by decide
  have hclose : lit "\x7d" = [closeBrace] := by decide
  rw [moduleFields, hid, hparent, hdepth, hname, hpath, hlanguage, hcount, hquote, hclose]
  cases more with
  | nil | cons kt more =>
      simp [moduleMembers, render, renderMembers, Scalar.text, JsonWriter.escapedString]

section

variable {modules : List ModuleRow}

/-- The modules of a project as a forest whose ids are no `NULL`. -/
structure ModulesLinked (modules : List ModuleRow) : Prop where
  linked : Linked ModuleRow.id ModuleRow.parentId modules
  ids_pos : ∀ m ∈ modules, 0 < m.id

variable (h : ModulesLinked modules)

include h

theorem ModulesLinked.parent_pos {m : ModuleRow} (hm : m ∈ modules) {p : ℕ}
    (hp : m.parentId = some p) : 0 < p := by
  obtain ⟨_, q, hq, rfl⟩ := h.linked.parent_before m hm p hp
  exact h.ids_pos q hq

theorem ModulesLinked.find_id {m : ModuleRow} (hm : m ∈ modules) :
    modules.find? (fun r => r.id = m.id) = some m := by
  have hsome : (modules.find? fun r => r.id = m.id).isSome = true :=
    List.find?_isSome.mpr ⟨m, hm, by simp⟩
  obtain ⟨r, hr⟩ := Option.isSome_iff_exists.mp hsome
  have hid : r.id = m.id := by simpa using List.find?_some hr
  rw [hr, h.linked.eq_of_key (List.mem_of_find?_eq_some hr) hm hid]

theorem ModulesLinked.childIds_eq {m : ModuleRow} (hm : m ∈ modules) :
    childIds modules m.id =
      (childrenOf ModuleRow.id ModuleRow.parentId modules m).map ModuleRow.id := by
  rw [childIds, childrenOf]
  congr 1
  refine List.filter_congr fun c hc => decide_eq_decide.mpr ?_
  have hpos := h.ids_pos m hm
  rw [ModuleRow.parentKey]
  cases hp : c.parentId with
  | none => simp [hpos.ne]
  | some p => simp

theorem ModulesLinked.rootIds_eq :
    (modules.filter fun m => m.parentKey = 0) = modules.filter fun m => m.parentId = none := by
  refine List.filter_congr fun m hm => decide_eq_decide.mpr ?_
  rw [ModuleRow.parentKey]
  cases hp : m.parentId with
  | none => simp
  | some p => simp [(h.parent_pos hm hp).ne']

omit h in
theorem foldl_elements {f : Bytes × Bool → ℕ → Bytes × Bool} {g : ModuleRow → CallTree}
    {cs : List ModuleRow} (hf : ∀ c ∈ cs, ∀ json first, f (json, first) c.id =
      (json ++ (if first then [] else [comma]) ++ render (g c), false)) (json : Bytes) :
    ((cs.map ModuleRow.id).foldl f (json, false)).1 =
      json ++ cs.flatMap fun c => comma :: render (g c) := by
  induction cs generalizing json with
  | nil => exact (List.append_nil json).symm
  | cons c cs ih =>
      rw [List.map_cons, List.foldl_cons, hf c List.mem_cons_self,
        ih fun d hd => hf d (List.mem_cons_of_mem _ hd), List.flatMap_cons]
      simp

omit h in
theorem foldl_array {f : Bytes × Bool → ℕ → Bytes × Bool} {g : ModuleRow → CallTree}
    {cs : List ModuleRow} (hf : ∀ c ∈ cs, ∀ json first, f (json, first) c.id =
      (json ++ (if first then [] else [comma]) ++ render (g c), false)) (json : Bytes) :
    ((cs.map ModuleRow.id).foldl f (json, true)).1 = json ++ renderItems (cs.map g) := by
  cases cs with
  | nil => exact (List.append_nil json).symm
  | cons c cs =>
      rw [List.map_cons, List.foldl_cons, hf c List.mem_cons_self,
        foldl_elements (fun d hd => hf d (List.mem_cons_of_mem _ hd)), List.map_cons,
        renderItems_cons, List.flatMap_map]
      simp

/-- **`outMod` writes the tree below a module**, when the depth is enough. -/
theorem ModulesLinked.outMod_eq (n : ℕ) {m : ModuleRow} (hm : m ∈ modules)
    (hn : behind ModuleRow.id modules m ≤ n) (depth : ℕ) (json : Bytes) (first : Bool) :
    outMod modules (n + 1) depth (json, first) m.id =
      (json ++ (if first then [] else [comma]) ++
        render (moduleElement depth (subtree ModuleRow.id ModuleRow.parentId modules n m)),
        false) := by
  induction n generalizing m depth json first with
  | zero =>
      have hnone : childrenOf ModuleRow.id ModuleRow.parentId modules m = [] := by
        refine List.eq_nil_iff_forall_not_mem.mpr fun c hc => ?_
        have hlt := h.linked.behind_lt ((mem_childrenOf hm c).mp hc)
        omega
      rw [outMod, h.find_id hm]
      simp only [h.childIds_eq hm, hnone, List.map_nil, if_true]
      have hrender := render_members m depth []
      rw [List.append_nil] at hrender
      show (_, false) = (json ++ _ ++ render (.object (moduleMembers m depth ++ [])), false)
      rw [List.append_nil, hrender]
      simp
  | succ n ih =>
      have hchildren : ∀ c ∈ childrenOf ModuleRow.id ModuleRow.parentId modules m,
          ∀ json first, outMod modules (n + 1) (depth + 1) (json, first) c.id =
            (json ++ (if first then [] else [comma]) ++ render (moduleElement (depth + 1)
              (subtree ModuleRow.id ModuleRow.parentId modules n c)), false) := by
        intro c hc json first
        have hchild := (mem_childrenOf hm c).mp hc
        have hlt := h.linked.behind_lt hchild
        exact ih hchild.mem (by omega) (depth + 1) json first
      rw [outMod, h.find_id hm]
      simp only [h.childIds_eq hm]
      rw [subtree, moduleElement, render_members, List.isEmpty_map]
      cases hcs : childrenOf ModuleRow.id ModuleRow.parentId modules m with
      | nil => simp
      | cons c cs =>
          rw [hcs] at hchildren
          have harray := foldl_array hchildren
          simp only [List.map_cons] at harray ⊢
          have hopen : lit ",\"children\":[" =
              comma :: (JsonWriter.escapedString (lit "children") ++ [colon, openBracket]) := by
            decide
          have hclose : lit "]" = [closeBracket] := by decide
          rw [if_neg (by simp), harray, hopen, hclose, moduleElements_eq, List.map_cons,
            List.map_map]
          simp [renderMembers, render, Function.comp_def]

end

mutual

theorem wellFormed_moduleElement (depth : ℕ) :
    ∀ t : RoseTree ModuleRow, WellFormedCalls (CallTree.callsOf (moduleElement depth t))
  | .node m cs => by
    have hrec := wellFormed_moduleElements (depth + 1) cs
    by_cases hcs : cs.isEmpty = true
    · simp [moduleElement, moduleMembers, hcs, CallTree.callsOf, callsOfMembers,
        WellFormedCalls, Util.Call.WellFormed]
    · simp only [moduleElement, moduleMembers, hcs, CallTree.callsOf, callsOfMembers,
        wellFormedCalls_cons, wellFormedCalls_append, Util.Call.WellFormed, List.cons_append,
        List.nil_append, Bool.false_eq_true, if_false, true_and, hrec]
      simp [WellFormedCalls, Util.Call.WellFormed]

theorem wellFormed_moduleElements (depth : ℕ) :
    ∀ ts : List (RoseTree ModuleRow), WellFormedCalls (callsOfItems (moduleElements depth ts))
  | [] => by simp [moduleElements, callsOfItems, WellFormedCalls]
  | t :: ts => by
    rw [moduleElements, callsOfItems, wellFormedCalls_append]
    exact ⟨wellFormed_moduleElement depth t, wellFormed_moduleElements depth ts⟩

end

theorem wellFormed_moduleDocument (forest : List (RoseTree ModuleRow)) :
    WellFormedCalls (CallTree.callsOf (moduleDocument forest)) := by
  have hitems := wellFormed_moduleElements 0 forest
  simp only [moduleDocument, CallTree.callsOf, callsOfMembers, wellFormedCalls_cons,
    wellFormedCalls_append, Util.Call.WellFormed, true_and, hitems]
  simp [WellFormedCalls, Util.Call.WellFormed]

section

variable {t : ModuleTable} {project : ℕ}

/-- The forest of the modules of a project. -/
def moduleForest (t : ModuleTable) (project : ℕ) : List (RoseTree ModuleRow) :=
  forest ModuleRow.id ModuleRow.parentId (modulesOf t project)

theorem getModuleTreeJson_eq (h : ModulesLinked (modulesOf t project)) :
    getModuleTreeJson t project = render (moduleDocument (moduleForest t project)) := by
  rw [getModuleTreeJson]
  by_cases hnil : modulesOf t project = []
  · simp only [hnil, if_true, moduleForest, forest, List.filter_nil, List.map_nil]
    decide
  · have hroots : ∀ m ∈ (modulesOf t project).filter (fun m => m.parentId = none), ∀ json first,
        outMod (modulesOf t project) ((modulesOf t project).length + 1) 0 (json, first) m.id =
          (json ++ (if first then [] else [comma]) ++ render (moduleElement 0
            (subtree ModuleRow.id ModuleRow.parentId (modulesOf t project)
              (modulesOf t project).length m)), false) :=
      fun m hm json first =>
        h.outMod_eq _ (List.mem_filter.mp hm).1 List.countP_le_length 0 json first
    have hopen : lit "\x7b\"modules\":[" =
        openBrace :: (JsonWriter.escapedString (lit "modules") ++ [colon, openBracket]) := by decide
    have hclose : lit "]\x7d" = [closeBracket, closeBrace] := by decide
    simp only [if_neg hnil, h.rootIds_eq, foldl_array hroots, hopen, hclose]
    simp [moduleDocument, render, renderMembers, moduleElements_eq, moduleForest, forest,
      Function.comp_def]

/-- **The modules of a project are written once each, below their parents**, as valid JSON. -/
theorem module_tree_rendered (h : ModulesLinked (modulesOf t project)) :
    RendersForest (projectModules t project) (moduleForest t project) ∧
      getModuleTreeJson t project = render (moduleDocument (moduleForest t project)) ∧
      parse (getModuleTreeJson t project) =
        some (toValue (moduleDocument (moduleForest t project))) := by
  have htext := getModuleTreeJson_eq h
  obtain ⟨honce, hnested⟩ := h.linked.forest_exact
  refine ⟨⟨?_, fun u hu => (hnested u hu).1, fun u hu => (hnested u hu).2⟩, htext, ?_⟩
  · exact honce.trans (Ranking.sorted_perm _ _)
  · rw [htext]
    exact parse_render (wellFormed_moduleDocument _)

end

/-! ## Sound tables -/

/-- The table that `insertModule` makes: ids are distinct, parents are older rows of the same
    project, and a project has one row per path. -/
structure SoundModules (t : ModuleTable) : Prop where
  ids_nodup : (t.map ModuleRow.id).Nodup
  ids_pos : ∀ r ∈ t, 0 < r.id
  parents : ∀ r ∈ t, ∀ i, r.parentId = some i →
    i < r.id ∧ ∃ s ∈ t, s.id = i ∧ s.project = r.project
  paths : ∀ project, ((projectModules t project).map ModuleRow.path).Nodup

variable {t : ModuleTable} {project : ℕ}

theorem mem_projectModules {r : ModuleRow} :
    r ∈ projectModules t project ↔ r ∈ t ∧ r.project = project := by
  rw [projectModules, List.mem_filter, decide_eq_true_eq]

theorem mem_modulesOf {r : ModuleRow} : r ∈ modulesOf t project ↔ r ∈ t ∧ r.project = project := by
  rw [modulesOf, (Ranking.sorted_perm _ _).mem_iff, mem_projectModules]

theorem SoundModules.linked (h : SoundModules t) (project : ℕ) :
    ModulesLinked (modulesOf t project) := by
  refine ⟨⟨?_, fun r hr p hp => ?_⟩, fun m hm => h.ids_pos m (mem_modulesOf.mp hm).1⟩
  · have hsub : ((projectModules t project).map ModuleRow.id).Nodup :=
      h.ids_nodup.sublist (List.filter_sublist.map _)
    exact (((Ranking.sorted_perm _ _).map _).nodup_iff).mpr hsub
  · obtain ⟨hmem, hproject⟩ := mem_modulesOf.mp hr
    obtain ⟨hlt, s, hs, rfl, hsame⟩ := h.parents r hmem p hp
    exact ⟨hlt, s, mem_modulesOf.mpr ⟨hs, hsame.trans hproject⟩, rfl⟩

theorem id_lt_nextModuleId {r : ModuleRow} (hr : r ∈ t) : r.id < nextModuleId t := by
  rw [nextModuleId]
  induction t with
  | nil => exact absurd hr List.not_mem_nil
  | cons s t ih =>
      rw [List.map_cons, List.foldr_cons]
      rcases List.mem_cons.mp hr with rfl | hr
      · omega
      · have hlt := ih hr
        omega

/-- The row of the path is there already, or it is added. -/
theorem insertModule_cases (t : ModuleTable) (project parentId : ℕ) (name path language : Str) :
    (∃ r ∈ t, r.project = project ∧ r.path = path ∧
        insertModule t project parentId name path language = (t, r.id)) ∨
      ((∀ r ∈ t, r.project = project → r.path ≠ path) ∧
        insertModule t project parentId name path language =
          (t ++ [newModule t project parentId name path language], nextModuleId t)) := by
  cases hfind : findModule t project path with
  | some r =>
      have hprop := List.find?_some hfind
      rw [Bool.and_eq_true, decide_eq_true_eq, decide_eq_true_eq] at hprop
      exact Or.inl ⟨r, List.mem_of_find?_eq_some hfind, hprop.1, hprop.2, by
        rw [insertModule, hfind]⟩
  | none =>
      refine Or.inr ⟨fun r hr hproject hpath => ?_, by rw [insertModule, hfind]⟩
      have hno := List.find?_eq_none.mp hfind r hr
      simp [hproject, hpath] at hno

/-- What a call of `insertModule` does: the row of the path is there, and it is the only one that
    may be new. -/
structure Inserted (t t' : ModuleTable) (project parentId : ℕ) (name path language : Str)
    (id : ℕ) : Prop where
  kept : ∀ r ∈ t, r ∈ t'
  row : ∃ r ∈ t', r.project = project ∧ r.path = path ∧ r.id = id
  new : ∀ r ∈ t', r ∈ t ∨ r = newModule t project parentId name path language
  others : ∀ q, q ≠ project → projectModules t' q = projectModules t q

theorem insertModule_inserted (t : ModuleTable) (project parentId : ℕ) (name path language : Str) :
    Inserted t (insertModule t project parentId name path language).1 project parentId name path
      language (insertModule t project parentId name path language).2 := by
  rcases insertModule_cases t project parentId name path language with
    ⟨r, hr, hproject, hpath, heq⟩ | ⟨_, heq⟩
  · rw [heq]
    exact ⟨fun _ h => h, ⟨r, hr, hproject, hpath, rfl⟩, fun _ h => Or.inl h, fun _ _ => rfl⟩
  · rw [heq]
    refine ⟨fun r hr => List.mem_append_left _ hr, ⟨_, List.mem_append_right _
      (List.mem_singleton_self _), rfl, rfl, rfl⟩, fun r hr => ?_, fun q hq => ?_⟩
    · exact (List.mem_append.mp hr).imp_right List.mem_singleton.mp
    · rw [projectModules, List.filter_append, projectModules]
      have hnone : [newModule t project parentId name path language].filter
          (fun r => r.project = q) = [] := by
        simp [newModule, hq.symm]
      rw [hnone, List.append_nil]

theorem SoundModules.insertModule (h : SoundModules t) {parentId : ℕ}
    (hparent : parentId = 0 ∨ ∃ s ∈ t, s.project = project ∧ s.id = parentId)
    (name path language : Str) :
    SoundModules (insertModule t project parentId name path language).1 := by
  rcases insertModule_cases t project parentId name path language with
    ⟨r, _, _, _, heq⟩ | ⟨hfresh, heq⟩
  · rw [heq]
    exact h
  · rw [heq]
    refine ⟨?_, fun r hr => ?_, fun r hr i hi => ?_, fun q => ?_⟩
    · rw [List.map_append, List.nodup_append]
      refine ⟨h.ids_nodup, List.nodup_singleton _, fun a ha b hb hab => ?_⟩
      obtain ⟨r, hr, rfl⟩ := List.mem_map.mp ha
      have hlt := id_lt_nextModuleId hr
      rw [hab, List.mem_singleton.mp hb] at hlt
      exact absurd hlt (Nat.lt_irrefl _)
    · rcases List.mem_append.mp hr with hr | hr
      · exact h.ids_pos r hr
      · rw [List.mem_singleton.mp hr]
        exact Nat.succ_pos _
    · rcases List.mem_append.mp hr with hr | hr
      · obtain ⟨hlt, s, hs, hid, hsame⟩ := h.parents r hr i hi
        exact ⟨hlt, s, List.mem_append_left _ hs, hid, hsame⟩
      · rw [List.mem_singleton.mp hr] at hi ⊢
        by_cases hpos : 0 < parentId
        · rcases hparent with hzero | ⟨s, hs, hsame, hid⟩
          · omega
          · have hi' : parentId = i := Option.some.inj ((if_pos hpos).symm.trans hi)
            subst hi'
            exact ⟨hid ▸ id_lt_nextModuleId hs, s, List.mem_append_left _ hs, hid, hsame⟩
        · have hnone : (none : Option ℕ) = some i := (if_neg hpos).symm.trans hi
          exact absurd hnone (by simp)
    · by_cases hq : q = project
      · subst hq
        have hsplit : projectModules (t ++ [newModule t q parentId name path language]) q =
            projectModules t q ++ [newModule t q parentId name path language] := by
          rw [projectModules, List.filter_append, projectModules]
          congr 1
          simp [newModule]
        rw [hsplit, List.map_append, List.nodup_append]
        refine ⟨h.paths q, List.nodup_singleton _, fun a ha b hb hab => ?_⟩
        obtain ⟨r, hr, rfl⟩ := List.mem_map.mp ha
        obtain ⟨hmem, hproject⟩ := mem_projectModules.mp hr
        exact hfresh r hmem hproject (hab.trans (List.mem_singleton.mp hb))
      · have hother := (insertModule_inserted t project parentId name path language).others q hq
        rw [heq] at hother
        rw [hother]
        exact h.paths q

/-- `UPDATE modules SET file_count = …, language = … WHERE id = …` -/
def setCounts (t : ModuleTable) (id : ℕ) (fileCount : Int) (language : Str) : ModuleTable :=
  t.map fun r => if r.id = id then { r with fileCount, language } else r

/-- The columns that the update does not write. -/
def ModuleRow.place (r : ModuleRow) : ℕ × ℕ × Option ℕ × Str × Str :=
  (r.id, r.project, r.parentId, r.name, r.path)

theorem map_place_setCounts (t : ModuleTable) (id : ℕ) (fileCount : Int) (language : Str) :
    (setCounts t id fileCount language).map ModuleRow.place = t.map ModuleRow.place := by
  rw [setCounts, List.map_map]
  refine List.map_congr_left fun r _ => ?_
  by_cases hid : r.id = id
  · simp [hid, ModuleRow.place]
  · simp [hid]

/-- An update of a row of another project. -/
theorem projectModules_setCounts {id : ℕ} (h : ∀ r ∈ t, r.id = id → r.project ≠ project)
    (fileCount : Int) (language : Str) :
    projectModules (setCounts t id fileCount language) project = projectModules t project := by
  induction t with
  | nil => rfl
  | cons r t ih =>
      have hrest := ih fun s hs => h s (List.mem_cons_of_mem _ hs)
      rw [projectModules, setCounts] at hrest
      rw [projectModules, setCounts, List.map_cons, projectModules]
      by_cases hid : r.id = id
      · have hother := h r List.mem_cons_self hid
        rw [if_pos hid, List.filter_cons_of_neg (by simpa using hother),
          List.filter_cons_of_neg (by simpa using hother), hrest]
        rfl
      · rw [if_neg hid]
        by_cases hproject : r.project = project
        · rw [List.filter_cons_of_pos (by simpa using hproject),
            List.filter_cons_of_pos (by simpa using hproject), hrest]
          rfl
        · rw [List.filter_cons_of_neg (by simpa using hproject),
            List.filter_cons_of_neg (by simpa using hproject), hrest]
          rfl

end CodeScope.Store
