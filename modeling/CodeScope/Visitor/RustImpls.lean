import CodeScope.Library.ScopeStack
import CodeScope.Visitor.RustCalls

/-! # The `impl` blocks of Rust files

`handleImpl` reads the trait and the self type off the kinds of the nodes in the head of a block,
without looking at their fields. A path and a reference are of no kind it knows (`readType_iff`), so
the other type of the head is taken for both, or none is found. -/

namespace CodeScope.Visitor.RustVisitor

open Text (Str str splitLast)
open SyntaxTree (Node Path inner innerAs token)
open Descent (arrive run)
open ScopeStack (stacked nameless namelessBefore)

/-! ## The receivers of calls -/

/-- The text before the last `::`; nothing when there is none. -/
def beforeColons : Str → Option Str
  | [] => none
  | c :: rest =>
    match beforeColons rest with
    | some before => some (c :: before)
    | none => if (str "::").isPrefixOf (c :: rest) then some [] else none

/-- `extractReceiverText`: what stands before the later one of the last `.` and the last `::`. -/
def extractReceiverText (qualified : Str) : Str :=
  match splitLast '.' qualified, beforeColons qualified with
  | some (beforeDot, _), some beforeColon =>
    if beforeColon.length < beforeDot.length then beforeDot else beforeColon
  | some (beforeDot, _), none => beforeDot
  | none, some beforeColon => beforeColon
  | none, none => []

/-- `self_type` of `handleImpl` -/
def implSelfType (source : Str) (n : Node) : Str :=
  if (implTypes source n).2.isEmpty then (implTypes source n).1 else (implTypes source n).2

/-- What `handleImpl` pushes onto `impl_type_stack_` before it goes through the block, and pops
    afterwards: nothing is pushed when no type was found. -/
def implScope (source : Str) (job : Job) (_ : Path) (n : Node) : Option (Option Str) :=
  match job with
  | .visitNode _ =>
    if n.kind = str "impl_item" then
      some (if (implSelfType source n).isEmpty then none else some (implSelfType source n))
    else none
  | _ => none

def currentImplType (stack : List Str) : Str := stack.headD []

/-- A call on `self` with its receiver type. -/
structure SelfCall where
  node : Path
  receiverType : Str
deriving DecidableEq

/-- A recorded call whose receiver text is `self` or `Self`. -/
def isSelfCall (source : Str) (defined : List Str) (job : Job) (n : Node) : Bool :=
  match job with
  | .visitNode _ =>
    let (qualified, name) := callee source n
    n.kind = str "call_expression" && !isFiltered defined qualified name &&
      !qualified.isEmpty && qualified ≠ name &&
      (extractReceiverText qualified = str "self" || extractReceiverText qualified = str "Self")
  | _ => false

/-- The facts that `handleCall` sets for such a call. -/
def selfCallAt (source : Str) (defined : List Str) (job : Job) (stack : List Str) (p : Path)
    (n : Node) : List SelfCall :=
  if isSelfCall source defined job n then [⟨p, currentImplType stack⟩] else []

/-- The calls that the visitor makes for the children. -/
def enter (handler : ℤ → Ctx → Path → Node → RustStep) (source : Str) (defined : List Str)
    (job : Job) (p : Path) (n : Node) : ℕ → Node → Option Job :=
  (visitor handler source defined job () p n).enter

/-- The calls on `self` below a call of the visitor, with the stack it starts with. -/
def selfCalls (handler : ℤ → Ctx → Path → Node → RustStep) (source : Str) (defined : List Str)
    (job : Job) (stack : List Str) (p : Path) (n : Node) : List SelfCall :=
  (run (stacked (enter handler source defined) (implScope source) (selfCallAt source defined)) job
    stack p n).2

/-! ## The head of a block -/

/-- The last segment of a name or a path. -/
def pathName (source : Str) (c : Node) : Str :=
  if c.kind = str "scoped_type_identifier" then
    match c.childByField (str "name") with
    | some name => name.text source
    | none => []
  else c.text source

/-- The last segment of a type without its type arguments. -/
def baseName (source : Str) (c : Node) : Str :=
  if c.kind = str "generic_type" then
    match c.childByField (str "type") with
    | some base => pathName source base
    | none => []
  else pathName source c

/-- The same for a type that may stand behind a reference. -/
def selfName (source : Str) (c : Node) : Str :=
  if c.kind = str "reference_type" then
    match c.childByField (str "type") with
    | some referent => baseName source referent
    | none => []
  else baseName source c

/-- A name, or a path with its last segment in a field. -/
structure PathType (source : Str) (c : Node) : Prop where
  kind : c.kind = str "type_identifier" ∨ c.kind = str "scoped_type_identifier"
  named : c.named = true
  name_ne : pathName source c ≠ []
  name_le : (pathName source c).length ≤ (c.text source).length

/-- A name or path with type arguments behind it. -/
structure GenericType (source : Str) (c base : Node) : Prop where
  kind : c.kind = str "generic_type"
  base_eq : c.inField (str "type") = [base]
  base_path : PathType source base
  only_base : ∀ g ∈ c.namedChildren, g.kind = str "type_identifier" → g.field = some (str "type")
  longer : (base.text source).length < (c.text source).length

def HeadType (source : Str) (c : Node) : Prop :=
  PathType source c ∨ ∃ base, GenericType source c base

def SelfType (source : Str) (c : Node) : Prop :=
  HeadType source c ∨
    c.kind = str "reference_type" ∧ ∃ referent, c.childByField (str "type") = some referent ∧
      HeadType source referent

/-- The kinds of types that may stand in the head of a block. -/
def isHeadKind (kind : Str) : Bool :=
  [str "trait_type", str "type_identifier", str "scoped_type_identifier", str "generic_type",
    str "reference_type"].contains kind

/-- The `j`-th item in the body of a block, the `i`-th child, is a function. -/
def MethodOf (n : Node) (i j : ℕ) (f : Node) : Prop :=
  ∃ body, n.children[i]? = some body ∧ body.kind = str "declaration_list" ∧ body.named = true ∧
    body.children[j]? = some f ∧ f.kind = str "function_item" ∧ f.named = true

/-- The name in the field of a function. -/
def methodName (source : Str) (f : Node) : Str :=
  match f.childByField (str "name") with
  | some name => name.text source
  | none => []

/-- `impl<..> trait for target where ..` or `impl<..> target where ..`, with whatever body. -/
structure ImplItem (source : Str) (n : Node) (trait : Option Node) (target : Node) : Prop where
  kind : n.kind = str "impl_item"
  named : n.named = true
  heads : (n.namedChildren.filter fun c => isHeadKind c.kind) = trait.toList ++ [target]
  trait_type : ∀ t ∈ trait, HeadType source t
  self_type : SelfType source target
  items : ∀ c ∈ n.namedChildren, c.kind ≠ str "function_item"
  names : ∀ i j f, MethodOf n i j f →
    extractName source f = methodName source f ∧ methodName source f ≠ []

/-- No other block lies on the way from `n` to the end of the path. -/
def OwnPath (n : Node) (r : Path) : Prop :=
  ∀ q m, q ≠ [] → q <+: r → q ≠ r → n.find q = some m → m.kind ≠ str "impl_item"

/-- What the visitor makes of a block, wherever it meets it: each function in the body is one method
    under the self type, the calls on `self` in the block have that as receiver type, and the block
    of a trait gives one implementation. -/
structure BoundToSelf (source : Str) (n : Node) (trait : Option Node) (target : Node) : Prop where
  methods : ∀ handler defined ctx p i j f, MethodOf n i j f →
    ((run (visitor handler source defined) (.visitNode ctx) () p n).2.filter fun r =>
      decide (r.kind = .method) && decide (r.node = p ++ [i, j])).map Emitted.qualifiedName =
        [selfName source target ++ str "::" ++ methodName source f]
  implements : ∀ handler defined ctx p,
    ((run (visitor handler source defined) (.visitNode ctx) () p n).2.filter fun r =>
      decide (r.kind = .interfaceImpl) && decide (r.node = p)).map
        (fun r => (r.name, r.typeName)) =
      match trait with
      | none => []
      | some t => [(selfName source target, baseName source t)]
  receivers : ∀ handler defined ctx stack p r, OwnPath n r →
    ∀ c ∈ selfCalls handler source defined (.visitNode ctx) stack p n, c.node = p ++ r →
      c.receiverType = selfName source target

/-! ## What is read off the head -/

/-- A name, or a name with type arguments. -/
def ReadType (c : Node) : Prop :=
  c.kind = str "type_identifier" ∨
    c.kind = str "generic_type" ∧ ∃ base, c.childByField (str "type") = some base ∧
      base.kind = str "type_identifier"

variable {source : Str} {n c : Node}

theorem PathType.implTypeName_eq (h : PathType source c) :
    implTypeName source c = some (pathName source c) ↔ c.kind = str "type_identifier" := by
  rcases h.kind with hkind | hkind
  · simp [implTypeName, pathName, hkind, str]
  · simp [implTypeName, hkind, str]

theorem GenericType.implTypeName_eq {base : Node} (h : GenericType source c base) :
    implTypeName source c = some (pathName source base) ↔ base.kind = str "type_identifier" := by
  have hbase : base ∈ c.namedChildren := by
    have hmem : base ∈ c.inField (str "type") := by rw [h.base_eq]; exact List.mem_singleton_self _
    exact List.mem_filter.mpr ⟨List.mem_of_mem_filter hmem, h.base_path.named⟩
  have hkind : implTypeName source c =
      some (match c.namedChildren.find? fun g => g.kind = str "type_identifier" with
        | some g => if (g.text source).isEmpty then c.text source else g.text source
        | none => c.text source) := by
    rw [implTypeName, if_neg (by simp [h.kind, str]), if_pos h.kind]
    cases c.namedChildren.find? fun g => g.kind = str "type_identifier" with
    | none => rfl
    | some g => rfl
  rw [hkind, Option.some.injEq]
  by_cases hplain : base.kind = str "type_identifier"
  · -- the name in the field is the first child of its kind
    have hname : pathName source base = base.text source := by simp [pathName, hplain, str]
    have hne := h.base_path.name_ne
    rw [hname] at hne ⊢
    cases hfind : c.namedChildren.find? fun g => g.kind = str "type_identifier" with
    | none => exact absurd (decide_eq_true hplain) (List.find?_eq_none.mp hfind base hbase)
    | some g =>
        have hg := List.mem_of_find?_eq_some hfind
        have hgkind : g.kind = str "type_identifier" := by simpa using List.find?_some hfind
        obtain rfl := Node.eq_of_inField h.base_eq (List.mem_of_mem_filter hg)
          (h.only_base g hg hgkind)
        simp [hne, hplain]
  · -- the whole text is taken, which is longer than the segment
    have hnone : (c.namedChildren.find? fun g => g.kind = str "type_identifier") = none := by
      refine List.find?_eq_none.mpr fun g hg hgkind => hplain ?_
      have hgkind : g.kind = str "type_identifier" := by simpa using hgkind
      obtain rfl := Node.eq_of_inField h.base_eq (List.mem_of_mem_filter hg)
        (h.only_base g hg hgkind)
      exact hgkind
    rw [hnone]
    have hlong := h.longer
    have hle := h.base_path.name_le
    constructor
    · intro heq
      have hlen := congrArg List.length heq
      dsimp only at hlen
      omega
    · exact fun hk => absurd hk hplain

theorem not_reference_of_head (h : HeadType source c) : c.kind ≠ str "reference_type" := by
  rcases h with h | ⟨_, h⟩
  · rcases h.kind with hkind | hkind <;> rw [hkind] <;> decide
  · rw [h.kind]
    decide

/-- **A type of the head is read right** exactly when it is no path. -/
theorem readType_iff (h : HeadType source c) :
    implTypeName source c = some (baseName source c) ↔ ReadType c := by
  rcases h with h | ⟨base, h⟩
  · have hgeneric : c.kind ≠ str "generic_type" := by
      rcases h.kind with hkind | hkind <;> rw [hkind] <;> decide
    rw [baseName, if_neg hgeneric, h.implTypeName_eq, ReadType]
    simp [hgeneric]
  · have hplain : str "generic_type" ≠ str "type_identifier" := by decide
    have hfield := Node.childByField_of_inField h.base_eq
    rw [baseName, if_pos h.kind, hfield]
    refine h.implTypeName_eq.trans ?_
    simp only [ReadType, hplain, h.kind, hfield, Option.some.injEq, true_and, false_or,
      exists_eq_left']

theorem readSelf_iff (h : SelfType source c) :
    implTypeName source c = some (selfName source c) ↔ ReadType c := by
  rcases h with h | ⟨hkind, _⟩
  · rw [selfName, if_neg (not_reference_of_head h)]
    exact readType_iff h
  · simp [implTypeName, ReadType, hkind, str]

theorem text_ne_of_head (h : HeadType source c) : c.text source ≠ [] := by
  intro hempty
  rcases h with h | ⟨base, h⟩
  · have hle := h.name_le
    rw [hempty, List.length_nil, Nat.le_zero, List.length_eq_zero_iff] at hle
    exact h.name_ne hle
  · have hlt := h.longer
    simp [hempty] at hlt

theorem implTypeName_ne (h : SelfType source c) {name : Str}
    (hname : implTypeName source c = some name) : name ≠ [] := by
  rcases h with h | ⟨hkind, _⟩
  · have htext := text_ne_of_head h
    unfold implTypeName at hname
    split at hname
    · exact Option.some.inj hname ▸ htext
    · split at hname
      · obtain rfl := Option.some.inj hname
        split_ifs with hempty
        · exact htext
        · simpa using hempty
      · exact absurd hname (by simp)
  · simp [implTypeName, hkind, str] at hname

theorem selfName_ne (h : SelfType source c) : selfName source c ≠ [] := by
  have hbase : ∀ {c : Node}, HeadType source c → baseName source c ≠ [] := by
    intro c h
    rcases h with h | ⟨base, h⟩
    · have hgeneric : c.kind ≠ str "generic_type" := by
        rcases h.kind with hkind | hkind <;> rw [hkind] <;> decide
      rw [baseName, if_neg hgeneric]
      exact h.name_ne
    · rw [baseName, if_pos h.kind, Node.childByField_of_inField h.base_eq]
      exact h.base_path.name_ne
  rcases h with h | ⟨hkind, referent, hreferent, h⟩
  · rw [selfName, if_neg (not_reference_of_head h)]
    exact hbase h
  · rw [selfName, if_pos hkind, hreferent]
    exact hbase h

/-! ## The roles -/

variable {trait : Option Node} {target : Node}

theorem isHeadKind_of_read {name : Str} (h : implTypeName source c = some name) :
    isHeadKind c.kind = true := by
  unfold implTypeName at h
  split at h
  next hkind =>
    simp only [Bool.or_eq_true, decide_eq_true_eq] at hkind
    rcases hkind with hkind | hkind <;> rw [hkind] <;> decide
  · split at h
    next hkind =>
      rw [hkind]
      decide
    · exact absurd h (by simp)

/-- The types that are read are those of the head. -/
theorem names_eq (h : ImplItem source n trait target) :
    n.namedChildren.filterMap (implTypeName source) =
      (trait.bind (implTypeName source)).toList ++ (implTypeName source target).toList := by
  have hfilter : n.namedChildren.filterMap (implTypeName source) =
      (n.namedChildren.filter fun c => isHeadKind c.kind).filterMap (implTypeName source) := by
    rw [List.filterMap_filter]
    refine List.filterMap_congr fun c _ => ?_
    cases hname : implTypeName source c with
    | none => simp
    | some name => rw [if_pos (isHeadKind_of_read hname)]
  rw [hfilter, h.heads, List.filterMap_append]
  cases trait with
  | none => cases hself : implTypeName source target <;> simp [hself]
  | some t =>
      cases htrait : implTypeName source t <;> cases hself : implTypeName source target <;>
        simp [htrait, hself]

theorem implTypes_eq (h : ImplItem source n trait target) :
    implTypes source n =
      match trait.bind (implTypeName source), implTypeName source target with
      | some t, some s => (t, s)
      | some t, none => (t, [])
      | none, some s => (s, [])
      | none, none => ([], []) := by
  rw [implTypes, names_eq h]
  cases htrait : trait.bind (implTypeName source) with
  | none => cases implTypeName source target <;> rfl
  | some t =>
      have hne : t ≠ [] := by
        obtain ⟨c, hc, hname⟩ := Option.bind_eq_some_iff.mp htrait
        exact implTypeName_ne (.inl (h.trait_type c hc)) hname
      cases implTypeName source target <;> simp [hne]

theorem implSelfType_eq (h : ImplItem source n trait target) :
    implSelfType source n =
      (implTypeName source target <|> trait.bind (implTypeName source)).getD [] := by
  rw [implSelfType, implTypes_eq h]
  cases htrait : trait.bind (implTypeName source) with
  | none => cases implTypeName source target <;> rfl
  | some t =>
      cases hself : implTypeName source target with
      | none => rfl
      | some s =>
          have hne := implTypeName_ne h.self_type hself
          simp [hne]

/-! ## The records of a block -/

section Records

variable {handler : ℤ → Ctx → Path → Node → RustStep} {defined : List Str}

/-- The kinds of records that a block gives. -/
abbrev ImplKind (kind : Store.RecordKind) : Prop := kind = .method ∨ kind = .interfaceImpl

theorem visitor_implKind (hn : RustNode source n) (hnamed : n.named = true) (job : Job)
    (w : Unit) (p : Path) : ProperFor ImplKind p (visitor handler source defined job w p n) :=
  (visitor_own hn hnamed job w p).imp fun _ hkind => by rcases hkind with rfl | rfl <;> decide

/-- The records of a block at a place below it. -/
theorem records_of_block (hrust : n.Everywhere (RustNode source)) (hnamed : n.named = true)
    (kinds : Store.RecordKind → Prop) [DecidablePred kinds] (himp : ∀ k, kinds k → ImplKind k)
    (ctx : Ctx) (p r : Path) :
    ((run (visitor handler source defined) (.visitNode ctx) () p n).2.filter fun e =>
        decide (kinds e.kind) && decide (e.node = p ++ r)) =
      ((arrive (visitor handler source defined) (.visitNode ctx) () p n r).map fun a =>
        (visitor handler source defined a.1 a.2.1 (p ++ r) a.2.2).reports.filter fun e =>
          decide (kinds e.kind) && decide (e.node = p ++ r)).getD [] := by
  have hplace : Descent.InPlace (visitor handler source defined)
      (fun q (e : Emitted) => decide (kinds e.kind) && decide (e.node = q))
      fun n => n.Everywhere (RustNode source) ∧ n.named = true := by
    refine ⟨fun hn s w p b hb q hsel => ?_, fun hn s w p i c s' hc henter => ⟨hn.1.of_mem hc, ?_⟩⟩
    · simp only [Bool.and_eq_true, decide_eq_true_eq] at hsel
      rw [← hsel.2]
      exact (visitor_implKind hn.1.self hn.2 s w p).place b hb (himp _ hsel.1)
    · by_contra hno
      rw [(visitor_implKind hn.1.self hn.2 s w p).named i c (by simpa using hno)] at henter
      exact absurd henter (by simp)
  exact Descent.reports_at hplace _ () p n ⟨hrust, hnamed⟩ r

theorem visitor_impl (hkind : n.kind = str "impl_item") (ctx : Ctx) (w : Unit) (p : Path) :
    visitor handler source defined (.visitNode ctx) w p n = handleImpl source ctx p n := by
  have hne : ∀ k, str "impl_item" ≠ k → n.kind ≠ k := fun k => Node.ne_of_kind hkind
  have hstruct : ¬ (n.kind = str "struct_item" || n.kind = str "union_item") = true := by
    simp [hne (str "struct_item") (by decide), hne (str "union_item") (by decide)]
  show visitNode handler source defined ctx p n = _
  rw [visitNode, if_neg (hne _ (by decide)), if_neg hstruct, if_neg (hne _ (by decide)),
    if_neg (hne _ (by decide)), if_pos hkind]

/-- The call that arrives at a function of the body. -/
theorem arrive_method (hkind : n.kind = str "impl_item") {i j : ℕ} {f : Node}
    (hf : MethodOf n i j f) (ctx : Ctx) (p : Path) :
    arrive (visitor handler source defined) (.visitNode ctx) () p n [i, j] =
      some (.implMethod ctx (implSelfType source n), (), f) := by
  obtain ⟨body, hbody, hlist, hbnamed, hchild, hfkind, hfnamed⟩ := hf
  have hne : str "declaration_list" ≠ str "function_item" := by decide
  rw [arrive, hbody, Option.bind_some, visitor_impl hkind]
  have henter : (handleImpl source ctx p n).enter i body =
      some (.implBody ctx (implSelfType source n)) := by
    show (if !body.named then none else if body.kind = str "function_item" then _
      else if body.kind = str "declaration_list" then _ else none) = _
    rw [hbnamed, hlist, if_neg (by decide), if_neg hne, if_pos rfl]
    rfl
  rw [henter, Option.bind_some, arrive, hchild, Option.bind_some]
  have henter' : (visitor handler source defined (.implBody ctx (implSelfType source n)) ()
      (p ++ [i]) body).enter j f = some (.implMethod ctx (implSelfType source n)) := by
    show (if f.named && f.kind = str "function_item" then _ else none) = _
    rw [hfnamed, hfkind]
    rfl
  rw [henter', Option.bind_some]
  rfl

/-- **Each function of the body gives one method**, under the self type that was found. -/
theorem methods_of_block (h : ImplItem source n trait target)
    (hrust : n.Everywhere (RustNode source)) {i j : ℕ} {f : Node} (hf : MethodOf n i j f)
    (ctx : Ctx) (p : Path) :
    ((run (visitor handler source defined) (.visitNode ctx) () p n).2.filter fun r =>
      decide (r.kind = .method) && decide (r.node = p ++ [i, j])).map Emitted.qualifiedName =
        [if (implSelfType source n).isEmpty then []
          else implSelfType source n ++ str "::" ++ methodName source f] := by
  obtain ⟨hname, hne⟩ := h.names i j f hf
  rw [records_of_block hrust h.named (· = .method) (fun _ => .inl) ctx p [i, j],
    arrive_method h.kind hf, Option.map_some, Option.getD_some]
  show List.map _ ((handleImplMethod source ctx _ _ f).reports.filter _) = _
  rw [handleImplMethod, hname]
  simp only [List.isEmpty_iff, if_neg hne]
  simp [visitBody, emit]

/-- **A block gives one implementation** if both types were found. -/
theorem implements_of_block (h : ImplItem source n trait target)
    (hrust : n.Everywhere (RustNode source)) (ctx : Ctx) (p : Path) :
    ((run (visitor handler source defined) (.visitNode ctx) () p n).2.filter fun r =>
      decide (r.kind = .interfaceImpl) && decide (r.node = p)).map
        (fun r => (r.name, r.typeName)) =
      match trait.bind (implTypeName source), implTypeName source target with
      | some t, some s => [(s, t)]
      | _, _ => [] := by
  have hrecords := @records_of_block source n handler defined hrust h.named
    (· = .interfaceImpl) inferInstance (fun _ => .inr) ctx p []
  rw [List.append_nil] at hrecords
  rw [hrecords]
  show List.map _ ((visitor handler source defined (.visitNode ctx) () p n).reports.filter _) = _
  rw [visitor_impl h.kind]
  show List.map _ ((if !(implTypes source n).1.isEmpty && !(implTypes source n).2.isEmpty then
    [{ emit .interfaceImpl (implTypes source n).2 p ctx.parentId with
      typeName := (implTypes source n).1 }] else []).filter _) = _
  rw [implTypes_eq h]
  cases htrait : trait.bind (implTypeName source) with
  | none => cases implTypeName source target <;> simp
  | some t =>
      have hne : t ≠ [] := by
        obtain ⟨c, hc, hname⟩ := Option.bind_eq_some_iff.mp htrait
        exact implTypeName_ne (.inl (h.trait_type c hc)) hname
      cases hself : implTypeName source target with
      | none => simp
      | some s => simp [hne, implTypeName_ne h.self_type hself, emit]

/-! ## The calls on `self` -/

/-- A call on `self` is reported with the top of the stack it finds. -/
theorem mem_selfCalls {job : Job} {stack : List Str} {p r : Path} {c : SelfCall} :
    (c ∈ selfCalls handler source defined job stack p n ∧ c.node = p ++ r) ↔
      ∃ job' stack' m, arrive (stacked (enter handler source defined) (implScope source)
          (selfCallAt source defined)) job stack p n r = some (job', stack', m) ∧
        isSelfCall source defined job' m = true ∧ c = ⟨p ++ r, currentImplType stack'⟩ := by
  have hplace : ∀ job stack p n, ∀ c ∈ selfCallAt source defined job stack p n, c.node = p := by
    intro job stack p n c hc
    unfold selfCallAt at hc
    split at hc
    · rw [List.mem_singleton.mp hc]
    · exact absurd hc List.not_mem_nil
  have hin := @ScopeStack.inPlace_stacked _ _ _ (enter handler source defined) (implScope source)
    _ _ hplace
  have hreports := Descent.reports_at hin job stack p n trivial r
  have hfilter : (c ∈ selfCalls handler source defined job stack p n ∧ c.node = p ++ r) ↔
      c ∈ (selfCalls handler source defined job stack p n).filter fun c =>
        decide (c.node = p ++ r) := by
    rw [List.mem_filter, decide_eq_true_eq]
  rw [hfilter, selfCalls, hreports]
  cases arrive (stacked (enter handler source defined) (implScope source)
      (selfCallAt source defined)) job stack p n r with
  | none => simp
  | some a =>
      obtain ⟨job', stack', m⟩ := a
      simp only [Option.map_some, Option.getD_some, Option.some.injEq, Prod.mk.injEq]
      rw [List.mem_filter]
      show (c ∈ selfCallAt source defined job' stack' (p ++ r) m ∧ _) ↔ _
      unfold selfCallAt
      constructor
      · intro ⟨hc, _⟩
        split_ifs at hc with hself
        · exact ⟨job', stack', m, ⟨rfl, rfl, rfl⟩, hself, List.mem_singleton.mp hc⟩
        · exact absurd hc List.not_mem_nil
      · rintro ⟨_, _, _, ⟨rfl, rfl, rfl⟩, hself, rfl⟩
        rw [if_pos hself]
        simp

/-- The blocks without a type that are visited before a place in a block. -/
def untypedBefore (handler : ℤ → Ctx → Path → Node → RustStep) (source : Str) (defined : List Str)
    (ctx : Ctx) (p : Path) (n : Node) (r : Path) : ℕ :=
  namelessBefore (enter handler source defined) (implScope source) (.visitNode ctx) p n r

/-- The visitor comes to a call on `self` at the end of a path from a block. -/
def VisitsSelfCall (handler : ℤ → Ctx → Path → Node → RustStep) (source : Str)
    (defined : List Str) (ctx : Ctx) (p : Path) (n : Node) (r : Path) : Prop :=
  ∃ job m, arrive (nameless (enter handler source defined) (implScope source)) (.visitNode ctx) ()
    p n r = some (job, (), m) ∧ isSelfCall source defined job m = true

theorem visitsSelfCall_iff {ctx : Ctx} {stack : List Str} {p r : Path} :
    VisitsSelfCall handler source defined ctx p n r ↔
      ∃ job stack' m, arrive (stacked (enter handler source defined) (implScope source)
          (selfCallAt source defined)) (.visitNode ctx) stack p n r = some (job, stack', m) ∧
        isSelfCall source defined job m = true := by
  have hmap := @ScopeStack.arrive_stacked _ _ _ (enter handler source defined) (implScope source)
    (selfCallAt source defined) (.visitNode ctx) stack p n r
  constructor
  · intro ⟨job, m, harrive, hself⟩
    rw [harrive] at hmap
    obtain ⟨⟨job', stack', m'⟩, ha, hpair⟩ := Option.map_eq_some_iff.mp hmap
    obtain ⟨rfl, rfl⟩ := Prod.mk.inj hpair
    exact ⟨job', stack', m', ha, hself⟩
  · intro ⟨job, stack', m, harrive, hself⟩
    rw [harrive] at hmap
    obtain ⟨⟨job', w, m'⟩, ha, hpair⟩ := Option.map_eq_some_iff.mp hmap.symm
    obtain ⟨rfl, rfl⟩ := Prod.mk.inj hpair
    exact ⟨job', m', ha, hself⟩

theorem implScope_none {job : Job} {p : Path} {m : Node} (h : m.kind ≠ str "impl_item") :
    implScope source job p m = none := by
  cases job with
  | visitNode ctx => exact if_neg h
  | _ => rfl

/-- A call on `self` lies in a function of the body. -/
theorem method_of_selfCall (h : ImplItem source n trait target) {ctx : Ctx} {p r : Path}
    (hcall : VisitsSelfCall handler source defined ctx p n r) :
    ∃ i j r' f, r = i :: j :: r' ∧ MethodOf n i j f := by
  obtain ⟨job, m, harrive, hself⟩ := hcall
  cases r with
  | nil =>
      obtain ⟨rfl, hpair⟩ := Prod.mk.inj (Option.some.inj harrive)
      obtain ⟨-, rfl⟩ := Prod.mk.inj hpair
      simp [isSelfCall, h.kind, str] at hself
  | cons i r =>
      obtain ⟨c, hc, harrive⟩ := Option.bind_eq_some_iff.mp harrive
      obtain ⟨s', henter, harrive⟩ := Option.bind_eq_some_iff.mp harrive
      replace henter : (visitor handler source defined (.visitNode ctx) () p n).enter i c =
        some s' := henter
      rw [visitor_impl h.kind] at henter
      replace henter : (if !c.named then none
        else if c.kind = str "function_item" then some (Job.implMethod ctx (implSelfType source n))
        else if c.kind = str "declaration_list" then some (.implBody ctx (implSelfType source n))
        else none) = some s' := henter
      split_ifs at henter with hunnamed hfunction hlist
      · exact absurd hfunction (h.items c (List.mem_filter.mpr
          ⟨List.mem_of_getElem? hc, by simpa using hunnamed⟩))
      · obtain rfl := Option.some.inj henter
        cases r with
        | nil =>
            obtain ⟨rfl, -⟩ := Prod.mk.inj (Option.some.inj harrive)
            simp [isSelfCall] at hself
        | cons j r =>
            obtain ⟨f, hf, harrive⟩ := Option.bind_eq_some_iff.mp harrive
            obtain ⟨s'', henter', -⟩ := Option.bind_eq_some_iff.mp harrive
            replace henter' : (if f.named && f.kind = str "function_item" then
              some (Job.implMethod ctx (implSelfType source n)) else none) = some s'' := henter'
            split_ifs at henter' with hitem
            simp only [Bool.and_eq_true, decide_eq_true_eq] at hitem
            exact ⟨i, j, r, f, rfl, c, hc, hlist, by simpa using hunnamed, hf, hitem.2, hitem.1⟩

theorem stack_in_block {ctx : Ctx} {stack : List Str} {p r : Path} (hr : r ≠ [])
    (hown : OwnPath n r) {a : Job × List Str × Node}
    (harrive : arrive (stacked (enter handler source defined) (implScope source)
      (selfCallAt source defined)) (.visitNode ctx) stack p n r = some a) :
    a.2.1 = (ScopeStack.pushed (implScope source (.visitNode ctx) p n) stack).drop
      (untypedBefore handler source defined ctx p n r) := by
  cases r with
  | nil => exact absurd rfl hr
  | cons i r =>
      exact ScopeStack.stack_below harrive fun q m hq hprefix hne hm _ _ =>
        implScope_none (hown q m hq hprefix hne hm)

end Records

/-- Both types of the head are read, the self type of a block without a trait only where there is a
    function. -/
def HeadRead (n : Node) (trait : Option Node) (target : Node) : Prop :=
  match trait with
  | some t => ReadType t ∧ ReadType target
  | none => ReadType target ∨ ∀ i j f, ¬ MethodOf n i j f

/-- **A block is bound to its self type if and only if** its types are names, with type arguments or
    without (the self type of a block without a trait may be another one if the block has no
    function), and no block without any such type is visited before a call on `self` in it. -/
theorem impl_binds_iff (h : ImplItem source n trait target)
    (hrust : n.Everywhere (RustNode source)) :
    BoundToSelf source n trait target ↔
      HeadRead n trait target ∧ ∀ handler defined ctx p r, OwnPath n r →
        VisitsSelfCall handler source defined ctx p n r →
          untypedBefore handler source defined ctx p n r = 0 := by
  have hne := selfName_ne h.self_type
  constructor
  · intro hbound
    constructor
    · cases trait with
      | some t =>
          have himplements := hbound.implements (fun _ _ _ _ => visitNothing () []) [] ⟨none, [], 0⟩ []
          rw [implements_of_block h hrust, Option.bind_some] at himplements
          show ReadType t ∧ ReadType target
          rw [← readType_iff (h.trait_type t rfl), ← readSelf_iff h.self_type]
          cases htrait : implTypeName source t with
          | none => simp [htrait] at himplements
          | some name =>
              cases hself : implTypeName source target with
              | none => simp [htrait, hself] at himplements
              | some self =>
                  simp only [htrait, hself, List.cons.injEq, Prod.mk.injEq, and_true]
                    at himplements
                  exact ⟨congrArg some himplements.2, congrArg some himplements.1⟩
      | none =>
          by_cases hread : ReadType target
          · exact .inl hread
          · refine .inr fun i j f hf => hread ?_
            have hmethods := hbound.methods (fun _ _ _ _ => visitNothing () []) [] ⟨none, [], 0⟩ []
              i j f hf
            rw [methods_of_block h hrust hf, implSelfType_eq h, Option.bind_none] at hmethods
            rw [← readSelf_iff h.self_type]
            cases hself : implTypeName source target with
            | none => simp [hself, str] at hmethods
            | some self =>
                have hnotnil := implTypeName_ne h.self_type hself
                simp [hself, hnotnil] at hmethods
                exact congrArg some hmethods
    · intro handler defined ctx p r hown hvisits
      obtain ⟨i, j, r', f, rfl, -⟩ := method_of_selfCall h hvisits
      -- on an empty stack only the type of the block itself can be found
      obtain ⟨job, stack', m, harrive, hself⟩ := (@visitsSelfCall_iff _ _ _ _ _ [] _ _).mp hvisits
      have hmem := mem_selfCalls.mpr ⟨job, stack', m, harrive, hself, rfl⟩
      have htype := hbound.receivers handler defined ctx [] p _ hown _ hmem.1 hmem.2
      have hstack := stack_in_block (by simp) hown harrive
      have hshort : (ScopeStack.pushed (implScope source (.visitNode ctx) p n) []).length ≤ 1 := by
        cases implScope source (.visitNode ctx) p n with
        | none => exact Nat.zero_le 1
        | some name => cases name <;> simp [ScopeStack.pushed]
      by_contra hbefore
      have hempty : stack' = [] := hstack.trans (List.drop_eq_nil_of_le (by omega))
      rw [hempty] at htype
      exact hne htype.symm
  · intro ⟨hread, hbefore⟩
    have hself : ReadType target → implTypeName source target = some (selfName source target) :=
      (readSelf_iff h.self_type).mpr
    have htype : ∀ i j f, MethodOf n i j f → implSelfType source n = selfName source target := by
      intro i j f hf
      have hreadSelf : ReadType target := by
        cases trait with
        | some t => exact hread.2
        | none => exact hread.resolve_right fun hnone => hnone i j f hf
      rw [implSelfType_eq h, hself hreadSelf]
      rfl
    refine ⟨fun handler defined ctx p i j f hf => ?_, fun handler defined ctx p => ?_,
      fun handler defined ctx stack p r hown c hc hnode => ?_⟩
    · rw [methods_of_block h hrust hf, htype i j f hf]
      simp [hne]
    · rw [implements_of_block h hrust]
      cases trait with
      | none => rfl
      | some t =>
          rw [Option.bind_some, (readType_iff (h.trait_type t rfl)).mpr hread.1, hself hread.2]
    · obtain ⟨job, stack', m, harrive, hcall, rfl⟩ := mem_selfCalls.mp ⟨hc, hnode⟩
      have hvisits := visitsSelfCall_iff.mpr ⟨job, stack', m, harrive, hcall⟩
      obtain ⟨i, j, r', f, rfl, hf⟩ := method_of_selfCall h hvisits
      have hstack := stack_in_block (by simp) hown harrive
      rw [hbefore handler defined ctx p _ hown hvisits, List.drop_zero] at hstack
      replace hstack : stack' = _ := hstack
      rw [hstack, implScope, if_pos h.kind, htype i j f hf]
      simp [hne, ScopeStack.pushed, currentImplType]

/-! ## Two blocks -/

/-- A block for a name, with a call on `self`. -/
def plainImpl : Str := str "impl T for P \x7b fn f() \x7b self.g() \x7d \x7d"

def plainImplTree : Node :=
  inner "impl_item" 0 36
    [token "impl" 0, innerAs "trait" "type_identifier" 5 6 [], token "for" 7,
      innerAs "type" "type_identifier" 11 12 [],
      innerAs "body" "declaration_list" 13 36
        [token "\x7b" 13,
          inner "function_item" 15 34
            [token "fn" 15, innerAs "name" "identifier" 18 19 [],
              innerAs "parameters" "parameters" 19 21 [token "(" 19, token ")" 20],
              innerAs "body" "block" 22 34
                [token "\x7b" 22,
                  inner "call_expression" 24 32
                    [innerAs "function" "field_expression" 24 30
                      [innerAs "value" "self" 24 28 [], token "." 28,
                        innerAs "field" "field_identifier" 29 30 []],
                      innerAs "arguments" "arguments" 30 32 [token "(" 30, token ")" 31]],
                  token "\x7d" 33]],
          token "\x7d" 35]]

/-- The same trait, named by a path. -/
def pathImpl : Str := str "impl m::T for P \x7b\x7d"

def traitPath : Node :=
  innerAs "trait" "scoped_type_identifier" 5 9
    [innerAs "path" "identifier" 5 6 [], token "::" 6, innerAs "name" "type_identifier" 8 9 []]

def pathImplTree : Node :=
  inner "impl_item" 0 18
    [token "impl" 0, traitPath, token "for" 10, innerAs "type" "type_identifier" 14 15 [],
      innerAs "body" "declaration_list" 16 18 [token "\x7b" 16, token "\x7d" 17]]

theorem plainImplTree_item : ImplItem plainImpl plainImplTree
    (some (innerAs "trait" "type_identifier" 5 6 [])) (innerAs "type" "type_identifier" 11 12 []) := by
  refine ⟨rfl, rfl, rfl, fun t ht => ?_, .inl (.inl ⟨.inl rfl, rfl, by decide, by decide⟩), by decide,
    fun i j f hf => ?_⟩
  · obtain rfl := Option.some.inj ht
    exact .inl ⟨.inl rfl, rfl, by decide, by decide⟩
  · obtain ⟨body, hbody, hlist, -, hchild, hfunction, -⟩ := hf
    have hall : ∀ b ∈ plainImplTree.children, b.kind = str "declaration_list" →
        ∀ f ∈ b.children, f.kind = str "function_item" →
          extractName plainImpl f = methodName plainImpl f ∧ methodName plainImpl f ≠ [] := by
      decide +kernel
    exact hall body (List.mem_of_getElem? hbody) hlist f (List.mem_of_getElem? hchild) hfunction

/-- The block of a name is bound to it. -/
theorem plain_block_bound : BoundToSelf plainImpl plainImplTree
    (some (innerAs "trait" "type_identifier" 5 6 [])) (innerAs "type" "type_identifier" 11 12 []) := by
  have hrust : (plainImplTree.all fun m => decide (RustNode plainImpl m)) = true := by
    decide +kernel
  have hflat : ∀ c ∈ plainImplTree.children, (c.all fun m => m.kind ≠ str "impl_item") = true := by
    decide +kernel
  refine (impl_binds_iff plainImplTree_item fun p m hm =>
    of_decide_eq_true (Node.everywhere_of_all hrust p m hm)).mpr
      ⟨⟨.inl rfl, .inl rfl⟩, fun handler defined ctx p r _ _ => ?_⟩
  refine ScopeStack.namelessBefore_eq_zero (fun c hc q m hm job p' => ?_) r
  rw [implScope_none (of_decide_eq_true (Node.everywhere_of_all (hflat c hc) q m hm))]
  simp

/-- **The implementation of a trait named by a path is lost.** -/
theorem path_trait_lost :
    ImplItem pathImpl pathImplTree (some traitPath) (innerAs "type" "type_identifier" 14 15 []) ∧
      pathImplTree.Everywhere (RustNode pathImpl) ∧
      ¬ BoundToSelf pathImpl pathImplTree (some traitPath)
        (innerAs "type" "type_identifier" 14 15 []) := by
  have hrust : (pathImplTree.all fun m => decide (RustNode pathImpl m)) = true := by decide +kernel
  have hevery : pathImplTree.Everywhere (RustNode pathImpl) := fun p m hm =>
    of_decide_eq_true (Node.everywhere_of_all hrust p m hm)
  have hitem : ImplItem pathImpl pathImplTree (some traitPath)
      (innerAs "type" "type_identifier" 14 15 []) := by
    refine ⟨rfl, rfl, rfl, fun t ht => ?_, .inl (.inl ⟨.inl rfl, rfl, by decide, by decide⟩),
      by decide, fun i j f hf => ?_⟩
    · obtain rfl := Option.some.inj ht
      exact .inl ⟨.inr rfl, rfl, by decide, by decide⟩
    · obtain ⟨body, hbody, hlist, -, hchild, hfunction, -⟩ := hf
      have hnone : ∀ b ∈ pathImplTree.children, b.kind = str "declaration_list" →
          ∀ f ∈ b.children, f.kind ≠ str "function_item" := by decide +kernel
      exact absurd hfunction
        (hnone body (List.mem_of_getElem? hbody) hlist f (List.mem_of_getElem? hchild))
  refine ⟨hitem, hevery, fun hbound => ?_⟩
  have himplements := hbound.implements noHandler [] ⟨none, [], 0⟩ []
  rw [implements_of_block hitem hevery] at himplements
  have hnone : implTypeName pathImpl traitPath = none := by decide
  simp [hnone] at himplements

end CodeScope.Visitor.RustVisitor
