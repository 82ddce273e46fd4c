import CodeScope.Visitor.CppGrammar

/-! # Where the C++ visitor goes

The edges of a tree that the visitor does not go down are read off the kinds of the two nodes and
the names of the upper one (`passesOver`). Every call of the visitor keeps to them
(`visitor_keeps`), with the innermost function that has a name on top of the stack of functions. -/

namespace CodeScope.Visitor.CppVisitor

open Text (Str str)
open SyntaxTree (Node Path)
open Descent (follow)
open CVisitor (CStep Job Tables)

/-- A function whose name the visitor reads. -/
def isNamedFunction (source : Str) (n : Node) : Bool :=
  n.kind = str "function_definition" && !(CVisitor.extractName source n).isEmpty

/-- A node with a name, of which no child is visited. -/
def isClosed (source : Str) (n : Node) : Bool :=
  if n.kind = str "preproc_include" then true
  else if n.kind = str "type_definition" then !(CVisitor.extractName source n).isEmpty
  else if n.kind = str "preproc_def" || n.kind = str "preproc_function_def" then
    !(CVisitor.definedMacro source n).isEmpty
  else leafKinds.contains n.kind

/-- The visitor does not go from `n` to its child `c`. -/
def passesOver (source : Str) (defined : List Str) (n c : Node) : Bool :=
  if !c.named then true
  else if n.kind = str "function_definition" then
    isNamedFunction source n && c.kind ≠ str "function_declarator" &&
      c.kind ≠ str "compound_statement"
  else if n.kind = str "template_declaration" then c.kind = str "template_parameter_list"
  else if n.kind = str "class_specifier" then
    c.kind = str "identifier" || c.kind = str "type_identifier"
  else if n.kind = str "call_expression" then c.kind = str "identifier"
  else if n.kind = str "new_expression" then
    !(CVisitor.constructedName source n).isEmpty &&
      !CVisitor.isFiltered defined (CVisitor.constructedName source n) &&
        CVisitor.isTypeOfNew c.kind
  else isClosed source n

/-- No edge on the way is passed over. -/
def Reached (source : Str) (root : Node) (r : Path) : Prop :=
  (follow (fun _ _ n _ c => if passesOver source (definedNames source root) n c then none else some ())
    () [] root r).isSome

/-- A list of which the visitor goes through the children without a visit of its own. -/
def opensList (source : Str) (n c : Node) : Bool :=
  if n.kind = str "function_definition" then isNamedFunction source n
  else if n.kind = str "class_specifier" then c.kind = str "field_declaration_list"
  else if n.kind = str "namespace_definition" then
    c.kind = str "declaration_list" || c.kind = str "identifier"
  else if n.kind = str "call_expression" then c.kind = str "argument_list"
  else if n.kind = str "new_expression" then
    !(CVisitor.constructedName source n).isEmpty && c.kind = str "argument_list"
  else false

/-- Where a node is visited: in which named function, how deep, whether as the body of a class, and
    whether as a member of one that declares a function. -/
structure Place where
  enclosing : Option Path
  depth : ℕ
  body : Bool
  member : Bool

/-- A step down. The members of a class and what stands in a list do not count as deeper. -/
def step (source : Str) (defined : List Str) (t : Place) (p : Path) (n : Node) (_ : ℕ) (c : Node) :
    Option Place :=
  let enclosing := if isNamedFunction source n then some p else t.enclosing
  if passesOver source defined n c then none
  else if t.body then
    some ⟨enclosing, t.depth, false, c.kind = str "declaration" && declaresFunction c⟩
  else if opensList source n c then some ⟨enclosing, t.depth, n.kind = str "class_specifier", false⟩
  else if kMaxVisitDepth ≤ t.depth then none
  else some ⟨enclosing, t.depth + 1, false, false⟩

/-- Where the end of the path is visited, if it is. -/
def visitedAt (source : Str) (root : Node) (r : Path) : Option (Place × Node) :=
  follow (step source (definedNames source root)) ⟨none, 0, false, false⟩ [] root r

/-- A function whose name the visitor does not read stands at the path. -/
def NamelessFunction (source : Str) (root : Node) (q : Path) : Prop :=
  ∃ f, root.find q = some f ∧ f.kind = str "function_definition" ∧
    CVisitor.extractName source f = []

/-! ## Calls of the visitor and the rule -/

/-- What the visitor's calls are made with, so deep and in this innermost named function. -/
structure CtxAt (source : Str) (root : Node) (ctx : Ctx) (depth : ℕ) (enclosing : Option Path) :
    Prop where
  depth : ctx.visitDepth = depth
  top : ctx.functionStack.head? = enclosing
  hangs : ∀ q, ctx.parentId = some q → ¬ NamelessFunction source root q

/-- The nodes on which a call of the visitor is made. -/
def suits (n : Node) : Job → Prop
  | .visitNode _ => True
  | .visitChildren _ => n.kind = str "translation_unit" ∨ n.kind = str "function_declarator" ∨
      n.kind = str "compound_statement" ∨ n.kind = str "argument_list" ∨
      n.kind = str "declaration_list" ∨ n.kind = str "identifier"
  | .visitClassBody _ => n.kind = str "field_declaration_list"
  | .memberFunctionDecl _ => n.kind = str "declaration"

def ctxOf : Job → Ctx
  | .visitNode ctx => ctx
  | .visitChildren ctx => ctx
  | .visitClassBody ctx => ctx
  | .memberFunctionDecl ctx => ctx

def isBodyJob : Job → Bool
  | .visitClassBody _ => true
  | _ => false

def isMemberJob : Job → Bool
  | .memberFunctionDecl _ => true
  | _ => false

/-- A call of the visitor, where the rule says. -/
structure At (source : Str) (root : Node) (job : Job) (p : Path) (n : Node) (t : Place) : Prop where
  place : root.find p = some n
  shape : n.Everywhere (CppNode source)
  suits : suits n job
  named : n.named = true
  ctx : CtxAt source root (ctxOf job) t.depth t.enclosing
  body : isBodyJob job = t.body
  member : isMemberJob job = t.member

/-- The kinds of nodes that have no visit of their own. -/
def isListKind (kind : Str) : Bool :=
  [str "translation_unit", str "function_declarator", str "compound_statement",
    str "argument_list", str "declaration_list", str "identifier",
    str "field_declaration_list"].contains kind

variable {source : Str}

/-- Every other node is visited, or handled as a member that declares a function. -/
theorem At.visited {root : Node} {job : Job} {p : Path} {n : Node} {t : Place}
    (h : At source root job p n t) (hkind : isListKind n.kind = false) :
    (∃ ctx, job = .visitNode ctx) ∨
      (n.kind = str "declaration" ∧ ∃ ctx, job = .memberFunctionDecl ctx) := by
  simp only [isListKind, List.contains_eq_mem, decide_eq_false_iff_not, List.mem_cons,
    List.not_mem_nil, or_false, not_or] at hkind
  obtain ⟨h₁, h₂, h₃, h₄, h₅, h₆, hlist⟩ := hkind
  have hsuits := h.suits
  cases job with
  | visitNode ctx => exact Or.inl ⟨ctx, rfl⟩
  | visitChildren ctx =>
      rcases hsuits with heq | heq | heq | heq | heq | heq
      · exact absurd heq h₁
      · exact absurd heq h₂
      · exact absurd heq h₃
      · exact absurd heq h₄
      · exact absurd heq h₅
      · exact absurd heq h₆
  | visitClassBody ctx => exact absurd hsuits hlist
  | memberFunctionDecl ctx => exact Or.inr ⟨hsuits, ctx, rfl⟩

section Steps

variable {handler : ℤ → Ctx → Path → Node → CStep} {source : Str} {defined outOfClass : List Str}
  {root : Node} {job : Job} {t : Place} {depth : ℕ} {enclosing : Option Path} {p : Path}
  {n c : Node} {i : ℕ} {ctx : Ctx}

theorem CtxAt.under (h : CtxAt source root ctx depth enclosing) (hp : root.find p = some n)
    (hn : n.kind ≠ str "function_definition") :
    CtxAt source root (ctx.under p) depth enclosing := by
  refine ⟨h.depth, h.top, fun q hq hnameless => ?_⟩
  obtain rfl := Option.some.inj hq
  obtain ⟨f, hf, hkind, -⟩ := hnameless
  obtain rfl := Option.some.inj (hp.symm.trans hf)
  exact hn hkind

theorem CtxAt.inFunction (h : CtxAt source root ctx depth enclosing) (hp : root.find p = some n)
    (hn : CVisitor.extractName source n ≠ []) :
    CtxAt source root (ctx.inFunction p) depth (some p) := by
  refine ⟨h.depth, rfl, fun q hq hnameless => ?_⟩
  obtain rfl := Option.some.inj hq
  obtain ⟨f, hf, -, hempty⟩ := hnameless
  obtain rfl := Option.some.inj (hp.symm.trans hf)
  exact hn hempty

theorem At.enter (h : At source root job p n t) (hc : n.children[i]? = some c)
    (hnamed : c.named = true) {t' : Place} {job' : Job}
    (hctx : CtxAt source root (ctxOf job') t'.depth t'.enclosing) (hsuits : CppVisitor.suits c job')
    (hbody : isBodyJob job' = t'.body) (hmember : isMemberJob job' = t'.member) :
    At source root job' (p ++ [i]) c t' := by
  refine ⟨?_, h.shape.child hc, hsuits, hnamed, hctx, hbody, hmember⟩
  rw [Node.find_append, h.place, Option.bind_some, Node.find_cons_of_child hc, Node.find_nil]

theorem passesOver_unnamed (h : c.named = false) : passesOver source defined n c = true := by
  simp [passesOver, h]

theorem named_of_not_passesOver (h : passesOver source defined n c = false) : c.named = true := by
  by_contra hno
  rw [passesOver_unnamed (by simpa using hno)] at h
  exact absurd h (by simp)

/-- A child is entered, or not, as the rule has it. -/
def Follows (source : Str) (defined : List Str) (root : Node) (t : Place) (p : Path) (n : Node)
    (i : ℕ) (c : Node) (entered : Option Job) : Prop :=
  Option.Rel (fun s' t' => At source root s' (p ++ [i]) c t') entered
    (step source defined t p n i c)

/-- The visitor and the rule pass over the same children: those of a list are entered with a call of
    their own, the others by `visitChild`. -/
theorem follows_of (ctx' : Ctx) (job' : Job) (lists : Prop) [Decidable lists]
    (h : At source root job p n t) (hc : n.children[i]? = some c) (hbody : t.body = false)
    {skipped : Bool} {entered : Option Job} (hpasses : passesOver source defined n c = skipped)
    (hopens : opensList source n c = true ↔ lists)
    (hctx : CtxAt source root ctx' t.depth (if isNamedFunction source n then some p else t.enclosing))
    (hlist : skipped = false → lists → CppVisitor.suits c job' ∧ ctxOf job' = ctx' ∧
      isBodyJob job' = decide (n.kind = str "class_specifier") ∧ isMemberJob job' = false)
    (hentered : entered = if skipped then none else if lists then some job'
      else visitChild Job.visitNode ctx') : Follows source defined root t p n i c entered := by
  unfold Follows step
  simp only [hbody, Bool.false_eq_true, if_false, hpasses, hopens, hentered]
  cases hskipped : skipped with
  | true => exact .none
  | false =>
      have hnamed := named_of_not_passesOver (hpasses.trans hskipped)
      simp only [Bool.false_eq_true, if_false]
      by_cases hin : lists
      · obtain ⟨hsuits, rfl, hclass, hmember⟩ := hlist hskipped hin
        rw [if_pos hin, if_pos hin]
        exact .some (h.enter hc hnamed hctx hsuits hclass hmember)
      · rw [if_neg hin, if_neg hin, visitChild, hctx.depth]
        by_cases hdeep : kMaxVisitDepth ≤ t.depth
        · rw [if_pos hdeep, if_pos hdeep]
          exact .none
        · rw [if_neg hdeep, if_neg hdeep]
          exact .some (h.enter hc hnamed ⟨rfl, hctx.top, hctx.hangs⟩ trivial rfl rfl)

/-- A node that is gone through child by child. -/
def isOrdinary (source : Str) (n : Node) : Prop :=
  (∀ (defined : List Str) (c : Node), passesOver source defined n c = !c.named) ∧
    ∀ c, opensList source n c = false

theorem follows_visitChildren (h : At source root job p n t) (hc : n.children[i]? = some c)
    (hbody : t.body = false) (hn : isOrdinary source n) (hfunction : isNamedFunction source n = false)
    (hctx : CtxAt source root ctx t.depth t.enclosing) (w : Tables) (records : List Emitted) :
    Follows source defined root t p n i c ((CVisitor.visitChildren ctx w records).enter i c) := by
  refine follows_of ctx job False h hc hbody (hn.1 defined c)
    (by simp [hn.2]) (by simpa [hfunction] using hctx) (fun _ => False.elim) ?_
  show (if c.named = true then visitChild Job.visitNode ctx else none) = _
  cases c.named <;> simp

/-- The kinds of nodes that are not gone through child by child, or not always. -/
def isSpecial (kind : Str) : Bool :=
  [str "function_definition", str "template_declaration", str "class_specifier",
    str "namespace_definition", str "call_expression", str "new_expression", str "preproc_include",
    str "type_definition", str "preproc_def", str "preproc_function_def"].contains kind ||
      leafKinds.contains kind

theorem ordinary_of_kind (h : isSpecial n.kind = false) :
    isOrdinary source n ∧ isNamedFunction source n = false := by
  simp only [isSpecial, Bool.or_eq_false_iff, List.contains_eq_mem, decide_eq_false_iff_not,
    List.mem_cons, List.not_mem_nil, or_false, not_or] at h
  obtain ⟨⟨hfunction, htemplate, hclass, hnamespace, hcall, hnew, hinclude, htype, hdef, hinvoked⟩,
    hleaf⟩ := h
  refine ⟨⟨fun defined c => ?_, fun c => ?_⟩, ?_⟩
  · cases hnamed : c.named <;>
      simp [passesOver, isClosed, hnamed, hfunction, htemplate, hclass, hcall, hnew, hinclude, htype,
        hdef, hinvoked, hleaf]
  · simp [opensList, hfunction, hclass, hnamespace, hcall, hnew]
  · simp [isNamedFunction, hfunction]

theorem follows_nothing (hpasses : passesOver source defined n c = true) {w : Tables}
    {records : List Emitted} :
    Follows source defined root t p n i c ((visitNothing w records : CStep).enter i c) := by
  unfold Follows step
  simp only [if_pos hpasses]
  exact .none

theorem follows_ordinary (h : At source root job p n t) (hc : n.children[i]? = some c)
    (hbody : t.body = false) (hkind : isSpecial n.kind = false)
    (hctx : CtxAt source root ctx t.depth t.enclosing) (w : Tables) (records : List Emitted) :
    Follows source defined root t p n i c ((CVisitor.visitChildren ctx w records).enter i c) :=
  follows_visitChildren h hc hbody (ordinary_of_kind hkind).1 (ordinary_of_kind hkind).2 hctx w records

theorem follows_classBody (h : At source root (.visitClassBody ctx) p n t)
    (hc : n.children[i]? = some c) (w : Tables) :
    Follows source defined root t p n i c ((visitClassBody ctx w).enter i c) := by
  have hlist : n.kind = str "field_declaration_list" := h.suits
  have hspecial : isSpecial n.kind = false := by
    rw [hlist]
    decide
  obtain ⟨hordinary, hfunction⟩ : isOrdinary source n ∧ isNamedFunction source n = false :=
    ordinary_of_kind hspecial
  have hbody : t.body = true := h.body.symm
  unfold Follows step
  simp only [hordinary.1, hfunction, hbody, Bool.false_eq_true, if_false, if_true]
  cases hnamed : c.named with
  | false =>
      simp only [visitClassBody, hnamed, Bool.not_false, if_true]
      exact .none
  | true =>
      simp only [visitClassBody, hnamed, Bool.not_true, Bool.false_eq_true, if_false]
      cases hmember : (c.kind = str "declaration" && declaresFunction c) with
      | true =>
          rw [if_pos rfl]
          rw [Bool.and_eq_true, decide_eq_true_eq] at hmember
          exact .some (h.enter hc hnamed h.ctx hmember.1 rfl rfl)
      | false =>
          rw [if_neg (by simp)]
          exact .some (h.enter hc hnamed h.ctx trivial rfl rfl)

theorem notFunction_of_kind (h : n.kind ≠ str "function_definition") :
    isNamedFunction source n = false := by
  simp [isNamedFunction, h]

section Node

variable (h : At source root (.visitNode ctx) p n t) (hc : n.children[i]? = some c)
include h hc

theorem follows_class (hclass : n.kind = str "class_specifier") (w : Tables) :
    Follows source defined root t p n i c ((handleClassSpec source ctx w p n).enter i c) := by
  have hne : ∀ k, str "class_specifier" ≠ k → n.kind ≠ k := fun k => Node.ne_of_kind hclass
  have hfunction : n.kind ≠ str "function_definition" := hne _ (by decide)
  have hctx : CtxAt source root (ctx.under p) t.depth t.enclosing := h.ctx.under h.place hfunction
  have hpasses : passesOver source defined n c =
      (!c.named || c.kind = str "identifier" || c.kind = str "type_identifier") := by
    unfold passesOver
    rw [if_neg hfunction, if_neg (hne _ (by decide)), if_pos hclass]
    cases c.named <;> simp
  refine follows_of (ctx.under p) (.visitClassBody (ctx.under p))
    (c.kind = str "field_declaration_list") h hc h.body.symm hpasses ?_
    (by simpa [notFunction_of_kind hfunction] using hctx)
    (fun _ hlist => ⟨hlist, rfl, by simp [isBodyJob, hclass], rfl⟩) rfl
  rw [opensList, if_neg hfunction, if_pos hclass, decide_eq_true_iff]

theorem follows_namespace (hnamespace : n.kind = str "namespace_definition") (w : Tables) :
    Follows source defined root t p n i c ((handleNamespace ctx w).enter i c) := by
  have hne : ∀ k, str "namespace_definition" ≠ k → n.kind ≠ k := fun k =>
    Node.ne_of_kind hnamespace
  have hfunction : n.kind ≠ str "function_definition" := hne _ (by decide)
  have hclass : n.kind ≠ str "class_specifier" := hne _ (by decide)
  have hpasses : passesOver source defined n c = !c.named := by
    have hclosed : isClosed source n = false := by
      unfold isClosed
      rw [hnamespace, if_neg (by decide), if_neg (by decide), if_neg (by decide)]
      decide
    unfold passesOver
    rw [if_neg hfunction, if_neg (hne _ (by decide)), if_neg hclass, if_neg (hne _ (by decide)),
      if_neg (hne _ (by decide)), hclosed]
    cases c.named <;> simp
  refine follows_of ctx (.visitChildren ctx) _ h hc h.body.symm hpasses ?_
    (by simpa [notFunction_of_kind hfunction, ctxOf] using h.ctx)
    (fun _ hlist => ⟨?_, rfl, by simp [isBodyJob, hclass], rfl⟩) rfl
  · rw [opensList, if_neg hfunction, if_neg hclass, if_pos hnamespace]
  · simp only [Bool.or_eq_true, decide_eq_true_eq] at hlist
    simpa [suits] using Or.inr (Or.inr (Or.inr (Or.inr hlist)))

theorem follows_template (htemplate : n.kind = str "template_declaration") (w : Tables) :
    Follows source defined root t p n i c ((handleTemplate ctx w).enter i c) := by
  have hfunction : n.kind ≠ str "function_definition" := Node.ne_of_kind htemplate (by decide)
  have hpasses : passesOver source defined n c =
      (!c.named || c.kind = str "template_parameter_list") := by
    unfold passesOver
    rw [if_neg hfunction, if_pos htemplate]
    cases c.named <;> simp
  refine follows_of ctx (.visitNode ctx) False h hc h.body.symm hpasses ?_
    (by simpa [notFunction_of_kind hfunction, ctxOf] using h.ctx) (fun _ => False.elim)
    (by simp [handleTemplate])
  unfold opensList
  rw [htemplate, if_neg (by decide), if_neg (by decide), if_neg (by decide), if_neg (by decide),
    if_neg (by decide)]
  simp

/-- The parameters and the body of a function with a name are gone through with it on top. -/
theorem follows_visitBody (hkind : n.kind = str "function_definition")
    (hname : CVisitor.extractName source n ≠ []) (w : Tables) (records : List Emitted) :
    Follows source defined root t p n i c
      ((CVisitor.visitBody (ctx.inFunction p) w records).enter i c) := by
  have hfunction : isNamedFunction source n = true := by simp [isNamedFunction, hkind, hname]
  have hclass : n.kind ≠ str "class_specifier" := Node.ne_of_kind hkind (by decide)
  have hpasses : passesOver source defined n c = (!c.named ||
      !(c.kind = str "function_declarator" || c.kind = str "compound_statement")) := by
    unfold passesOver
    rw [if_pos hkind, hfunction]
    cases c.named <;> simp
  have hctx : CtxAt source root (ctx.inFunction p) t.depth (some p) :=
    h.ctx.inFunction h.place hname
  refine follows_of (ctx.inFunction p) (.visitChildren (ctx.inFunction p)) True h hc h.body.symm
    hpasses (by simp [opensList, hkind, hfunction]) (by simpa [hfunction] using hctx) (fun hskipped _ => ⟨?_, rfl, by simp [isBodyJob, hclass], rfl⟩) ?_
  · simp only [Bool.or_eq_false_iff, Bool.not_eq_false', Bool.or_eq_true, decide_eq_true_eq] at hskipped
    simpa [suits] using Or.inr (hskipped.2.imp_right Or.inl)
  · unfold CVisitor.visitBody
    cases hin : (c.kind = str "function_declarator" || c.kind = str "compound_statement") <;>
      cases hnamed : c.named <;> simp [hin, hnamed]

theorem follows_arguments (hfunction : n.kind ≠ str "function_definition")
    (hclass : n.kind ≠ str "class_specifier") {ctx' : Ctx}
    (hctx : CtxAt source root ctx' t.depth t.enclosing) (skipped : Str → Bool)
    (hpasses : passesOver source defined n c = (!c.named || skipped c.kind))
    (hopens : opensList source n c = decide (c.kind = str "argument_list"))
    {entered : Option Job} (hentered : entered = if !c.named || skipped c.kind then none
      else if c.kind = str "argument_list" then some (.visitChildren ctx')
      else visitChild Job.visitNode ctx') : Follows source defined root t p n i c entered :=
  follows_of ctx' (.visitChildren ctx') _ h hc h.body.symm hpasses (by rw [hopens, decide_eq_true_iff])
    (by simpa [notFunction_of_kind hfunction] using hctx)
    (fun _ hlist => ⟨by simp [suits, hlist], rfl, by simp [isBodyJob, hclass], rfl⟩) hentered

theorem follows_call (hcall : n.kind = str "call_expression") (w : Tables) :
    Follows source defined root t p n i c
      ((CVisitor.handleCall source defined ctx w p n).enter i c) := by
  have hne : ∀ k, str "call_expression" ≠ k → n.kind ≠ k := fun k => Node.ne_of_kind hcall
  have hfunction : n.kind ≠ str "function_definition" := hne _ (by decide)
  have hclass : n.kind ≠ str "class_specifier" := hne _ (by decide)
  have hpasses : passesOver source defined n c =
      (!c.named || decide (c.kind = str "identifier")) := by
    unfold passesOver
    rw [if_neg hfunction, if_neg (hne _ (by decide)), if_neg hclass, if_pos hcall]
    cases c.named <;> simp
  have hopens : opensList source n c = decide (c.kind = str "argument_list") := by
    rw [opensList, if_neg hfunction, if_neg hclass, if_neg (hne _ (by decide)), if_pos hcall]
  unfold CVisitor.handleCall
  by_cases hfiltered :
      CVisitor.isFiltered defined ((CVisitor.callee n).nameOf source) = true
  · rw [if_pos hfiltered]
    exact follows_arguments h hc hfunction hclass h.ctx (fun kind => kind = str "identifier") hpasses
      hopens rfl
  · rw [if_neg hfiltered]
    exact follows_arguments h hc hfunction hclass (h.ctx.under h.place hfunction)
      (fun kind => kind = str "identifier") hpasses hopens rfl

theorem follows_new (hnew : n.kind = str "new_expression") (w : Tables) :
    Follows source defined root t p n i c
      ((CVisitor.handleNewExpr source defined ctx w p n).enter i c) := by
  have hne : ∀ k, str "new_expression" ≠ k → n.kind ≠ k := fun k => Node.ne_of_kind hnew
  have hfunction : n.kind ≠ str "function_definition" := hne _ (by decide)
  have hclass : n.kind ≠ str "class_specifier" := hne _ (by decide)
  have hpasses : ∀ (defined : List Str) c, passesOver source defined n c = (!c.named ||
      (!(CVisitor.constructedName source n).isEmpty &&
        !CVisitor.isFiltered defined (CVisitor.constructedName source n) &&
          CVisitor.isTypeOfNew c.kind)) := by
    intro defined c
    unfold passesOver
    rw [if_neg hfunction, if_neg (hne _ (by decide)), if_neg hclass, if_neg (hne _ (by decide)),
      if_pos hnew]
    cases c.named <;> simp
  have hopens : ∀ c, opensList source n c = (!(CVisitor.constructedName source n).isEmpty &&
      decide (c.kind = str "argument_list")) := by
    intro c
    rw [opensList, if_neg hfunction, if_neg hclass, if_neg (hne _ (by decide)),
      if_neg (hne _ (by decide)), if_pos hnew]
  unfold CVisitor.handleNewExpr
  by_cases hname : (CVisitor.constructedName source n).isEmpty = true
  · simp only [if_pos hname]
    refine follows_visitChildren h hc h.body.symm ⟨fun defined c => ?_, fun c => ?_⟩
      (notFunction_of_kind hfunction) h.ctx w []
    · rw [hpasses, hname]
      simp
    · rw [hopens, hname]
      rfl
  · have hnamed : (CVisitor.constructedName source n).isEmpty = false := by simpa using hname
    have hlist : opensList source n c = decide (c.kind = str "argument_list") := by
      rw [hopens, hnamed]
      rfl
    simp only [if_neg hname]
    by_cases hfiltered : CVisitor.isFiltered defined (CVisitor.constructedName source n) = true
    · simp only [if_pos hfiltered]
      refine follows_arguments h hc hfunction hclass h.ctx (fun _ => false) ?_ hlist rfl
      rw [hpasses, hfiltered]
      simp
    · simp only [if_neg hfiltered]
      refine follows_arguments h hc hfunction hclass (h.ctx.under h.place hfunction)
        CVisitor.isTypeOfNew ?_ hlist rfl
      rw [hpasses, hnamed, show CVisitor.isFiltered defined _ = false by simpa using hfiltered]
      simp

/-- A type definition or a macro: nothing is visited below one with a name. -/
theorem follows_definition {name : Str} (hfunction : isNamedFunction source n = false)
    (hopens : ∀ c, opensList source n c = false)
    (hclosed : ∀ (defined : List Str) c, passesOver source defined n c = (!c.named || !name.isEmpty))
    (w : Tables) (records : List Emitted) :
    Follows source defined root t p n i c
      ((if name.isEmpty then CVisitor.visitChildren ctx w [] else visitNothing w records).enter i c) := by
  cases hname : name.isEmpty with
  | true =>
      refine follows_visitChildren h hc h.body.symm ⟨fun defined c => ?_, hopens⟩ hfunction h.ctx w []
      rw [hclosed, hname]
      simp
  | false =>
      refine follows_nothing ?_
      rw [hclosed, hname]
      simp

/-- What is left to the C visitor. -/
theorem follows_c (hclass : n.kind ≠ str "class_specifier") (htemplate : n.kind ≠ str "template_declaration")
    (hnamespace : n.kind ≠ str "namespace_definition") (w : Tables) :
    Follows source defined root t p n i c
      ((CVisitor.visitNode handler source defined ctx w p n).enter i c) := by
  have hbody : t.body = false := h.body.symm
  unfold CVisitor.visitNode
  by_cases hfunction : n.kind = str "function_definition"
  · rw [if_pos hfunction]
    unfold CVisitor.handleFuncDef
    by_cases hname : (CVisitor.extractName source n).isEmpty = true
    · simp only [if_pos hname]
      have hnamed : isNamedFunction source n = false := by simp [isNamedFunction, hname]
      refine follows_visitChildren h hc hbody ⟨fun defined c => ?_, fun c => ?_⟩ hnamed h.ctx w []
      · unfold passesOver
        rw [if_pos hfunction, hnamed]
        cases c.named <;> simp
      · rw [opensList, if_pos hfunction, hnamed]
    · simp only [if_neg hname]
      exact follows_visitBody h hc hfunction (by simpa using hname) _ _
  rw [if_neg hfunction]
  have hnamed : isNamedFunction source n = false := notFunction_of_kind hfunction
  by_cases hdeclaration : n.kind = str "declaration"
  · rw [if_pos hdeclaration]
    exact follows_ordinary h hc hbody (by rw [hdeclaration]; decide) h.ctx _ []
  rw [if_neg hdeclaration]
  by_cases hstruct : (n.kind = str "struct_specifier" || n.kind = str "union_specifier") = true
  · rw [if_pos hstruct]
    simp only [Bool.or_eq_true, decide_eq_true_eq] at hstruct
    refine follows_ordinary h hc hbody ?_ (h.ctx.under h.place hfunction) w []
    rcases hstruct with heq | heq <;> rw [heq] <;> decide
  rw [if_neg hstruct]
  by_cases henum : n.kind = str "enum_specifier"
  · rw [if_pos henum]
    exact follows_ordinary h hc hbody (by rw [henum]; decide) (h.ctx.under h.place hfunction) _ _
  rw [if_neg henum]
  by_cases hcall : n.kind = str "call_expression"
  · rw [if_pos hcall]
    exact follows_call h hc hcall w
  rw [if_neg hcall]
  by_cases hnew : n.kind = str "new_expression"
  · rw [if_pos hnew]
    exact follows_new h hc hnew w
  rw [if_neg hnew]
  -- the kinds that are left open no list and have no rule of their own but for `isClosed`
  have hpasses : ∀ (defined : List Str) c, passesOver source defined n c =
      (!c.named || isClosed source n) := by
    intro defined c
    unfold passesOver
    rw [if_neg hfunction, if_neg htemplate, if_neg hclass, if_neg hcall, if_neg hnew]
    cases c.named <;> simp
  have hopens : ∀ c, opensList source n c = false := by
    intro c
    rw [opensList, if_neg hfunction, if_neg hclass, if_neg hnamespace, if_neg hcall, if_neg hnew]
  by_cases hinclude : n.kind = str "preproc_include"
  · rw [if_pos hinclude]
    refine follows_nothing ?_
    rw [hpasses, isClosed, if_pos hinclude, Bool.or_true]
  rw [if_neg hinclude]
  by_cases htype : n.kind = str "type_definition"
  · rw [if_pos htype]
    refine follows_definition h hc hnamed hopens (fun defined c => ?_) w _
    rw [hpasses, isClosed, if_neg hinclude, if_pos htype]
  rw [if_neg htype]
  by_cases hdef : (n.kind = str "preproc_def" || n.kind = str "preproc_function_def") = true
  · rw [if_pos hdef]
    refine follows_definition h hc hnamed hopens (fun defined c => ?_) w _
    rw [hpasses, isClosed, if_neg hinclude, if_neg htype, if_pos hdef]
  rw [if_neg hdef]
  have hclosed : isClosed source n = leafKinds.contains n.kind := by
    rw [isClosed, if_neg hinclude, if_neg htype, if_neg hdef]
  have hkind : n.kind ∈ leafKinds ∨ n.kind ∈ otherKinds := by
    simpa [isCppKind, hcall, hnew] using h.shape.self.kind h.named
  rcases hkind with hleaf | hother
  · obtain ⟨records, -, heq⟩ := JsVisitor.visitNode_leaf_shared (leafKinds_leaf n.kind hleaf)
    rw [heq]
    refine follows_nothing ?_
    rw [hpasses, hclosed]
    simp [hleaf]
  · obtain ⟨records, -, heq⟩ := JsVisitor.visitNode_pass_shared (otherKinds_pass n.kind hother)
    rw [heq]
    refine follows_visitChildren h hc hbody ⟨fun defined c => ?_, hopens⟩ hnamed h.ctx w records
    rw [hpasses, hclosed]
    simp [not_leaf_of_other hother]

end Node

/-- **Each call of the visitor follows the rule.** -/
theorem visitor_keeps (bound : ℕ) :
    Descent.Keeps (visitor handler source defined outOfClass) (step source defined)
      (At source root) bound := by
  intro job w p n t h _ i c hc
  cases job with
  | visitChildren ctx =>
      by_cases hid : n.kind = str "identifier"
      · -- the grammar gives an identifier no children
        rw [h.shape.self.identifier hid] at hc
        exact absurd hc (by simp)
      · have hkind : isSpecial n.kind = false := by
          rcases h.suits with heq | heq | heq | heq | heq | heq
          · rw [heq]; decide
          · rw [heq]; decide
          · rw [heq]; decide
          · rw [heq]; decide
          · rw [heq]; decide
          · exact absurd heq hid
        exact follows_ordinary h hc h.body.symm hkind h.ctx w []
  | visitClassBody ctx => exact follows_classBody h hc w
  | memberFunctionDecl ctx =>
      have hkind : n.kind = str "declaration" := h.suits
      exact follows_ordinary h hc h.body.symm (by rw [hkind]; decide) h.ctx w _
  | visitNode ctx =>
      show Follows source defined root t p n i c
        ((visitNode handler source defined outOfClass ctx w p n).enter i c)
      unfold visitNode
      by_cases hclass : n.kind = str "class_specifier"
      · rw [if_pos hclass]
        exact follows_class h hc hclass w
      rw [if_neg hclass]
      by_cases hnamespace : n.kind = str "namespace_definition"
      · rw [if_pos hnamespace]
        exact follows_namespace h hc hnamespace w
      rw [if_neg hnamespace]
      by_cases htemplate : n.kind = str "template_declaration"
      · rw [if_pos htemplate]
        exact follows_template h hc htemplate w
      rw [if_neg htemplate]
      by_cases hfield : n.kind = str "field_declaration"
      · rw [if_pos hfield]
        exact follows_ordinary h hc h.body.symm (by rw [hfield]; decide) h.ctx w _
      rw [if_neg hfield]
      exact follows_c h hc hclass htemplate hnamespace w

/-! ## The records of a node -/

theorem own_definition {name : Str} {records : List Emitted} (w : Tables)
    (h : ∀ r ∈ records, r.node = p) :
    Own p (if name.isEmpty then CVisitor.visitChildren ctx w [] else visitNothing w records) := by
  split
  · exact proper_visitChildren (by simp)
  · exact proper_visitNothing fun r hr _ => h r hr

theorem own_c (hn : CppNode source n) (hnamed : n.named = true) (w : Tables) :
    Own p (CVisitor.visitNode handler source defined ctx w p n) := by
  unfold CVisitor.visitNode
  split
  · unfold CVisitor.handleFuncDef
    by_cases hname : (CVisitor.extractName source n).isEmpty = true
    · simp only [if_pos hname]
      exact proper_visitChildren (by simp)
    · simp only [if_neg hname]
      exact ⟨by simp [CVisitor.visitBody, emit], fun _ c hc => by simp [CVisitor.visitBody, hc]⟩
  split
  · exact proper_visitChildren (by simp)
  split
  · exact ⟨by simp [CVisitor.handleStruct, CVisitor.visitChildren, visitChildren, emit],
      fun _ c hc => by simp [CVisitor.handleStruct, CVisitor.visitChildren, visitChildren, hc]⟩
  split
  · exact proper_visitChildren (by simp [emit])
  split
  · unfold CVisitor.handleCall
    split
    · exact ⟨by simp [CVisitor.visitArguments], fun _ c hc => by simp [CVisitor.visitArguments, hc]⟩
    · refine ⟨?_, fun _ c hc => by simp [CVisitor.visitArguments, hc]⟩
      simp only [CVisitor.visitArguments, List.mem_singleton, forall_eq, CVisitor.callRecord]
      intro _
      split <;> rfl
  split
  · unfold CVisitor.handleNewExpr
    simp only
    split
    · exact proper_visitChildren (by simp)
    split
    · exact ⟨by simp [CVisitor.visitConstructed],
        fun _ c hc => by simp [CVisitor.visitConstructed, hc]⟩
    · exact ⟨by simp [CVisitor.visitConstructed],
        fun _ c hc => by simp [CVisitor.visitConstructed, hc]⟩
  split
  · exact proper_visitNothing (by simp [emit])
  split
  · exact own_definition w (by simp [emit])
  split
  · exact own_definition w (by simp [emit])
  next hcall hnew _ _ _ =>
    have hkind : n.kind ∈ leafKinds ∨ n.kind ∈ otherKinds := by
      simpa [isCppKind, hcall, hnew] using hn.kind hnamed
    exact own_visitNode (hkind.imp (leafKinds_leaf n.kind) (otherKinds_pass n.kind))

theorem memberRecords_node {w : Tables} :
    ∀ r ∈ memberRecords source outOfClass ctx w p n, r.node = p := by
  unfold memberRecords
  simp only
  repeat' split
  all_goals simp [emit]

/-- **Records are given at the node that is visited**, those of the shared kinds apart. -/
theorem visitor_own (hn : CppNode source n) (hnamed : n.named = true) (job : Job) (w : Tables)
    (p : Path) : Own p (visitor handler source defined outOfClass job w p n) := by
  cases job with
  | visitChildren ctx => exact proper_visitChildren (by simp)
  | visitClassBody ctx =>
      exact ⟨by simp [visitor, visitClassBody], fun _ c hc => by simp [visitor, visitClassBody, hc]⟩
  | memberFunctionDecl ctx => exact proper_visitChildren fun r hr _ => memberRecords_node r hr
  | visitNode ctx =>
      show Own p (visitNode handler source defined outOfClass ctx w p n)
      unfold visitNode
      split
      · exact ⟨by simp [handleClassSpec, emit], fun _ c hc => by simp [handleClassSpec, hc]⟩
      split
      · exact ⟨by simp [handleNamespace], fun _ c hc => by simp [handleNamespace, hc]⟩
      split
      · exact ⟨by simp [handleTemplate], fun _ c hc => by simp [handleTemplate, hc]⟩
      split
      · exact proper_visitChildren fun r hr _ => memberRecords_node r hr
      · exact own_c hn hnamed w

end Steps

/-! ## The call that arrives -/

/-- A C++ file. -/
structure CppFile (source : Str) (root : Node) : Prop where
  nodes : root.Everywhere (CppNode source)
  kind : root.kind = str "translation_unit"
  named : root.named = true

/-- The tables before the node at a path is visited. -/
def tablesBefore (handler : ℤ → Ctx → Path → Node → CStep) (source : Str) (root : Node)
    (r : Path) : Tables :=
  Descent.tablesAt (visitorOf handler source root) start noTables [] root r

/-- The innermost named function above the end of a path. -/
def namedFunctionAbove (source : Str) (root : Node) (r : Path) : Option Path :=
  root.innermostAbove (isNamedFunction source) none [] r

theorem step_eq_some {defined : List Str} {t t' : Place} {p : Path} {n c : Node} {i : ℕ}
    (h : step source defined t p n i c = some t') :
    passesOver source defined n c = false ∧
      t'.enclosing = (if isNamedFunction source n then some p else t.enclosing) ∧
      t'.depth ≤ t.depth + 1 := by
  unfold step at h
  simp only at h
  split at h
  · exact absurd h (by simp)
  next hpasses =>
    refine ⟨by simpa using hpasses, ?_⟩
    split at h
    · obtain rfl := Option.some.inj h
      exact ⟨rfl, Nat.le_succ _⟩
    split at h
    · obtain rfl := Option.some.inj h
      exact ⟨rfl, Nat.le_succ _⟩
    split at h
    · exact absurd h (by simp)
    · obtain rfl := Option.some.inj h
      exact ⟨rfl, le_rfl⟩

theorem step_isSome {defined : List Str} {t : Place} {p : Path} {n c : Node} {i : ℕ}
    (h : passesOver source defined n c = false) (hdepth : t.depth < kMaxVisitDepth) :
    (step source defined t p n i c).isSome := by
  unfold step
  simp only [h, Bool.false_eq_true, if_false]
  split
  · rfl
  split
  · rfl
  · rw [if_neg (by omega)]
    rfl

/-- Where no nesting is too deep, what is reached is visited. -/
theorem visited_iff_reached {root : Node} {r : Path} (hdeep : r.length ≤ kMaxVisitDepth) :
    (visitedAt source root r).isSome ↔ Reached source root r := by
  have hfollow : ∀ (r : Path) (n : Node) (p : Path) (t : Place),
      t.depth + r.length ≤ kMaxVisitDepth →
        ((follow (step source (definedNames source root)) t p n r).isSome ↔
          (follow (fun _ _ n _ c => if passesOver source (definedNames source root) n c then none
            else some ()) () p n r).isSome) := by
    intro r
    induction r with
    | nil => simp [follow]
    | cons i r ih =>
        intro n p t hdepth
        rw [List.length_cons] at hdepth
        rw [follow, follow]
        cases n.children[i]? with
        | none => rfl
        | some c =>
            rw [Option.bind_some, Option.bind_some]
            by_cases hpasses : passesOver source (definedNames source root) n c = true
            · rw [if_pos hpasses, show step source (definedNames source root) t p n i c = none by
                unfold step; simp only [if_pos hpasses]]
              rfl
            · have hnot : passesOver source (definedNames source root) n c = false := by
                simpa using hpasses
              obtain ⟨t', ht'⟩ := Option.isSome_iff_exists.mp
                (step_isSome (p := p) (i := i) (t := t) hnot (by omega))
              have hnext := (step_eq_some ht').2.2
              rw [if_neg hpasses, ht', Option.bind_some, Option.bind_some]
              exact ih c _ t' (by omega)
  exact hfollow r root [] _ (by simpa using hdeep)

/-- **A call of the visitor arrives** where the rule leads and nowhere else. -/
theorem arrive_cases (handler : ℤ → Ctx → Path → Node → CStep) {root : Node}
    (hfile : CppFile source root) {r : Path} {n : Node} (hn : root.find r = some n) :
    (visitedAt source root r = none ∧
        Descent.arrive (visitorOf handler source root) start noTables [] root r = none) ∨
      ∃ t job, visitedAt source root r = some (t, n) ∧
        Descent.arrive (visitorOf handler source root) start noTables [] root r =
            some (job, tablesBefore handler source root r, n) ∧
          At source root job r n t ∧ t.enclosing = namedFunctionAbove source root r := by
  have hctx : CtxAt source root ⟨none, [], 0⟩ 0 none := ⟨rfl, rfl, by simp⟩
  have hstart : At source root start [] root ⟨none, 0, false, false⟩ :=
    ⟨rfl, hfile.nodes, Or.inl hfile.kind, hfile.named, hctx, rfl, rfl⟩
  rcases Descent.arrive_cases (visitor_keeps r.length) hstart noTables (by simp) hn with
    hnone | ⟨t, job, hvisited, harrive, hat⟩
  · exact Or.inl hnone
  · have hnext : ∀ t p n i c t', step source (definedNames source root) t p n i c = some t' →
        t'.enclosing = if isNamedFunction source n = true then some p else t.enclosing :=
      fun _ _ _ _ _ _ h => (step_eq_some h).2.1
    exact Or.inr ⟨t, job, hvisited, harrive, hat, Descent.follow_innermost hnext hvisited⟩

/-- No handler of JavaScript's own nodes is ever called. -/
def noHandler : ℤ → Ctx → Path → Node → CStep := fun _ _ _ _ => visitNothing noTables []

end CodeScope.Visitor.CppVisitor
