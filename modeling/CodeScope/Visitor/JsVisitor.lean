import CodeScope.Library.Descent
import CodeScope.Store.Records
import CodeScope.Visitor.NodeDispatch

/-! # What all visitors share

The members of `JsVisitor` that the other visitors use. A record is known by the node it is emitted
for, so a node's path stands for the record's id and for its location; a missing id is the id 0.
The stack of functions and the depth of the visit are pushed and popped around the visits of
children and travel with the call. What names no call and hangs no record on another is left out:
the scopes of symbols, the visibility and the types of variables. -/

namespace CodeScope.Visitor

open Text (Str str)
open SyntaxTree (Node Path)
open Descent (Step)
open Store (RecordKind)

inductive CallKind where
  | direct | method | interface | constructor | staticMethod | virtual
deriving DecidableEq

/-- A record as it is emitted. -/
structure Emitted where
  kind : RecordKind
  name : Str
  node : Path
  parentId : Option Path
  arity : ℕ := 0
  callKind : CallKind := .direct
  qualifiedName : Str := []
  typeName : Str := []
  qualifiedTarget : Str := []
  receiverText : Str := []
  receiverType : Str := []
deriving DecidableEq

/-- A record without the data that only calls, members and bindings have. -/
def emit (kind : RecordKind) (name : Str) (node : Path) (parentId : Option Path) : Emitted where
  kind := kind
  name := name
  node := node
  parentId := parentId

@[simp] theorem emit_kind (kind : RecordKind) (name : Str) (node : Path) (parentId : Option Path) :
    (emit kind name node parentId).kind = kind := rfl

/-- The record is a call's and was emitted for the node at `p`. -/
def Emitted.isCallAt (p : Path) (r : Emitted) : Bool := r.kind = .callExpr && r.node = p

abbrev kMaxVisitDepth : ℕ := 250

/-- What the calls below a node are made with: the parent's record, `function_stack_` and
    `visit_depth_`. -/
structure Ctx where
  parentId : Option Path
  functionStack : List Path
  visitDepth : ℕ
deriving DecidableEq

namespace Ctx

def currentFunctionId (ctx : Ctx) : Option Path := ctx.functionStack.head?

/-- `(func_id != 0) ? func_id : parent_id` -/
def callParent (ctx : Ctx) : Option Path := ctx.currentFunctionId <|> ctx.parentId

/-- The children hang on the record `id`. -/
def under (ctx : Ctx) (id : Path) : Ctx := { ctx with parentId := some id }

/-- The children hang on the record `id`, which is on top of the stack of functions. -/
def inFunction (ctx : Ctx) (id : Path) : Ctx :=
  { ctx with parentId := some id, functionStack := id :: ctx.functionStack }

theorem callParent_of_head {ctx : Ctx} {e : Path} (h : ctx.functionStack.head? = some e) :
    ctx.callParent = some e := by
  rw [callParent, currentFunctionId, h]
  rfl

end Ctx

/-- `emitCall`: a call's record hangs on the function around it, if there is one. -/
def emitCall (name : Str) (node : Path) (ctx : Ctx) (arity : ℕ) (callKind : CallKind) : Emitted :=
  { emit .callExpr name node ctx.callParent with arity := arity, callKind := callKind }

@[simp] theorem emitCall_node (name : Str) (node : Path) (ctx : Ctx) (arity : ℕ)
    (callKind : CallKind) : (emitCall name node ctx arity callKind).node = node := rfl

/-! ## Going on to the children -/

variable {σ ω : Type}

/-- `visitChild`: the call that `visitNode` stands for, one level deeper. -/
def visitChild (visitNode : Ctx → σ) (ctx : Ctx) : Option σ :=
  if kMaxVisitDepth ≤ ctx.visitDepth then none
  else some (visitNode { ctx with visitDepth := ctx.visitDepth + 1 })

/-- Emit the records, then `visitChildren`. -/
def visitChildren (visitNode : Ctx → σ) (ctx : Ctx) (w : ω) (records : List Emitted) :
    Step σ ω Emitted where
  reports := records
  opened := w
  enter := fun _ c => if c.named then visitChild visitNode ctx else none
  closed := id

/-- Emit the records and visit no child. -/
def visitNothing (w : ω) (records : List Emitted) : Step σ ω Emitted where
  reports := records
  opened := w
  enter := fun _ _ => none
  closed := id

/-- No statement stands in the body of a catch clause; a comment is none. -/
def catchBodyEmpty (n : Node) : Bool :=
  match n.children.find? fun c => c.kind = str "statement_block" with
  | none => true
  | some body => body.children.all fun stmt => !stmt.named || stmt.kind = str "comment"

mutual

/-- `collectImportBindings`: the records of the names that an import binds, in order. -/
def collectImportBindings (source moduleSpec : Str) (parentId : Option Path) (p : Path) :
    Node → List Emitted
  | .mk kind named field start stop children =>
    let n := Node.mk kind named field start stop children
    let binding (bound : Str) : List Emitted :=
      if bound.isEmpty then [] else [{ emit .importBinding bound p parentId with typeName := moduleSpec }]
    if kind = str "import_specifier" then
      match (n.children.filter fun c => c.kind = str "identifier").getLast? with
      | some c => binding (c.text source)
      | none => []
    else if kind = str "identifier" then binding (n.text source)
    else collectBindingsIn source moduleSpec parentId p 0 children

def collectBindingsIn (source moduleSpec : Str) (parentId : Option Path) (p : Path) (i : ℕ) :
    List Node → List Emitted
  | [] => []
  | c :: rest =>
    collectImportBindings source moduleSpec parentId (p ++ [i]) c ++
      collectBindingsIn source moduleSpec parentId p (i + 1) rest

end

/-- A text without its quotes, if the same quote stands at both ends. -/
def unquoted (s : Str) : Str :=
  if 2 ≤ s.length && (s.head? = some '\'' || s.head? = some '"') && s.getLast? = s.head? then
    (s.drop 1).dropLast
  else s

/-- `visitImportStmt`: the import, and what it binds, with the module the names come from. -/
def visitImportStmt (source : Str) (ctx : Ctx) (w : ω) (p : Path) (n : Node) :
    Step σ ω Emitted :=
  let moduleSpec := match n.children.find? fun c => c.kind = str "string" with
    | some c => unquoted (c.text source)
    | none => []
  visitNothing w
    (emit .import (n.text source) p ctx.parentId ::
      collectImportBindings source moduleSpec ctx.parentId p n)

/-- `JsVisitor::visitNode`. `handler` stands for the handlers of JavaScript's own declarations and
    expressions. -/
def JsVisitor.visitNode (visitNode : Ctx → σ) (handler : ℤ → Step σ ω Emitted) (source : Str)
    (ctx : Ctx) (w : ω) (p : Path) (n : Node) : Step σ ω Emitted :=
  let id := (nodeId n.kind).getD 0
  let here (kind : RecordKind) (name : Str) : List Emitted := [emit kind name p ctx.parentId]
  if id = 105 then visitNothing w (here .variable (n.text source))
  else if id = 107 then visitImportStmt source ctx w p n
  else if id = 111 then
    visitChildren visitNode ctx w (if catchBodyEmpty n then here .comment (str "catch") else [])
  else if id = 200 then visitNothing w (here .literal (n.text source))
  else if id = 201 then visitNothing w (here .comment (n.text source))
  else if 100 ≤ id ∧ id ≤ 110 then handler id
  else visitChildren visitNode ctx w []

/-- The kinds of the records that `JsVisitor` itself gives for the nodes of other languages. -/
def sharedKinds : List RecordKind := [.variable, .import, .importBinding, .literal, .comment]

theorem visitChild_of_lt {visitNode : Ctx → σ} {ctx : Ctx} (h : ctx.visitDepth < kMaxVisitDepth) :
    visitChild visitNode ctx =
      some (visitNode { ctx with visitDepth := ctx.visitDepth + 1 }) :=
  if_neg (by omega)

section Dispatch

variable {visitNode : Ctx → σ} {handler : ℤ → Step σ ω Emitted} {source : Str} {ctx : Ctx} {w : ω}
  {p : Path} {n : Node}

theorem JsVisitor.visitNode_pass_shared (h : passesThrough n.kind = true) :
    ∃ records : List Emitted, (∀ r ∈ records, r.kind ∈ sharedKinds) ∧
      JsVisitor.visitNode visitNode handler source ctx w p n =
        Visitor.visitChildren visitNode ctx w records := by
  unfold JsVisitor.visitNode
  rcases nodeId_of_passesThrough h with hid | hid | hid
  · exact ⟨[], by simp, by simp [hid]⟩
  · exact ⟨[], by simp, by simp [hid]⟩
  · refine ⟨_, ?_, by simp only [hid]; rfl⟩
    split <;> simp [sharedKinds]

mutual

theorem collectImportBindings_kind (source moduleSpec : Str) (parentId : Option Path) (p : Path) :
    ∀ n : Node, ∀ r ∈ collectImportBindings source moduleSpec parentId p n,
      r.kind = .importBinding
  | .mk kind named field start stop children => by
    have hbinding : ∀ bound : Str, ∀ r ∈ (if bound.isEmpty then [] else
        [{ emit .importBinding bound p parentId with typeName := moduleSpec }]),
        r.kind = .importBinding := by
      intro bound r hr
      split at hr
      · exact absurd hr (by simp)
      · obtain rfl := List.mem_singleton.mp hr
        rfl
    intro r hr
    rw [collectImportBindings] at hr
    split at hr
    · split at hr
      · exact hbinding _ r hr
      · exact absurd hr (by simp)
    · split at hr
      · exact hbinding _ r hr
      · exact collectBindingsIn_kind source moduleSpec parentId p 0 children r hr

theorem collectBindingsIn_kind (source moduleSpec : Str) (parentId : Option Path) (p : Path)
    (i : ℕ) : ∀ cs : List Node, ∀ r ∈ collectBindingsIn source moduleSpec parentId p i cs,
      r.kind = .importBinding
  | [] => by simp [collectBindingsIn]
  | c :: rest => by
    intro r hr
    rw [collectBindingsIn, List.mem_append] at hr
    rcases hr with hr | hr
    · exact collectImportBindings_kind source moduleSpec parentId (p ++ [i]) c r hr
    · exact collectBindingsIn_kind source moduleSpec parentId p (i + 1) rest r hr

end

/-- A node of a leaf kind gives records of shared kinds, and its children are not visited. -/
theorem JsVisitor.visitNode_leaf_shared (h : isLeafKind n.kind = true) :
    ∃ records : List Emitted, (∀ r ∈ records, r.kind ∈ sharedKinds) ∧
      JsVisitor.visitNode visitNode handler source ctx w p n = visitNothing w records := by
  obtain ⟨id, hmem, hid⟩ := nodeId_of_isLeafKind h
  unfold JsVisitor.visitNode
  simp only [leafIds, List.mem_cons, List.not_mem_nil, or_false] at hmem
  rcases hmem with rfl | rfl | rfl | rfl
  · refine ⟨_, ?_, by simp only [hid]; rfl⟩
    simp [sharedKinds]
  · refine ⟨_, fun r hr => ?_, by simp only [hid]; rfl⟩
    rcases List.mem_cons.mp hr with rfl | hr
    · simp [sharedKinds]
    · rw [collectImportBindings_kind _ _ _ _ _ r hr]
      simp [sharedKinds]
  · refine ⟨_, ?_, by simp only [hid]; rfl⟩
    simp [sharedKinds]
  · refine ⟨_, ?_, by simp only [hid]; rfl⟩
    simp [sharedKinds]

end Dispatch

/-! ## Where records come from -/

/-- A step emits records of certain kinds for its own node only and goes to named children only. -/
structure ProperFor (kinds : RecordKind → Prop) (p : Path) (step : Step σ ω Emitted) : Prop where
  place : ∀ r ∈ step.reports, kinds r.kind → r.node = p
  named : ∀ i (c : Node), c.named = false → step.enter i c = none

/-- A step emits records of calls for its own node only and goes to named children only. -/
abbrev Proper (p : Path) (step : Step σ ω Emitted) : Prop := ProperFor (· = .callExpr) p step

section Proper

variable {kinds : RecordKind → Prop} {p : Path} {records : List Emitted}

theorem proper_visitChildren {visitNode : Ctx → σ} {ctx : Ctx} {w : ω}
    (h : ∀ r ∈ records, kinds r.kind → r.node = p) :
    ProperFor kinds p (visitChildren visitNode ctx w records) :=
  ⟨h, fun _ c hc => by simp [visitChildren, hc]⟩

theorem proper_visitNothing {w : ω} (h : ∀ r ∈ records, kinds r.kind → r.node = p) :
    ProperFor kinds p (visitNothing w records : Step σ ω Emitted) :=
  ⟨h, fun _ _ _ => rfl⟩

theorem ProperFor.imp {kinds' : RecordKind → Prop} (himp : ∀ kind, kinds' kind → kinds kind)
    {step : Step σ ω Emitted} (h : ProperFor kinds p step) : ProperFor kinds' p step :=
  ⟨fun r hr hkind => h.place r hr (himp _ hkind), h.named⟩

end Proper

/-- A step emits records for its own node only, those of the shared kinds apart. -/
abbrev Own (p : Path) (step : Step σ ω Emitted) : Prop := ProperFor (· ∉ sharedKinds) p step

theorem Own.proper {p : Path} {step : Step σ ω Emitted} (h : Own p step) : Proper p step :=
  h.imp fun _ heq => by rw [heq]; decide

theorem own_visitNode {visitNode : Ctx → σ} {handler : ℤ → Step σ ω Emitted} {source : Str}
    {ctx : Ctx} {w : ω} {p : Path} {n : Node}
    (h : isLeafKind n.kind = true ∨ passesThrough n.kind = true) :
    Own p (JsVisitor.visitNode visitNode handler source ctx w p n) := by
  rcases h with hleaf | hpass
  · obtain ⟨records, hkinds, heq⟩ := JsVisitor.visitNode_leaf_shared hleaf
    rw [heq]
    exact proper_visitNothing fun r hr hno => absurd (hkinds r hr) hno
  · obtain ⟨records, hkinds, heq⟩ := JsVisitor.visitNode_pass_shared hpass
    rw [heq]
    exact proper_visitChildren fun r hr hno => absurd (hkinds r hr) hno

/-- **The records of certain kinds at a path** are those of the call of the visitor that arrives
    there. -/
theorem records_at {v : Descent.Visitor σ ω Emitted} {I : Node → Prop} (kinds : RecordKind → Prop)
    [DecidablePred kinds] (hproper : ∀ {n}, I n → n.named = true → ∀ s w p,
      ProperFor kinds p (v s w p n))
    (hchild : ∀ {n c}, I n → c ∈ n.children → I c) {s : σ} {w : ω} {root : Node} (hroot : I root)
    (hnamed : root.named = true) (q : Path) :
    (Descent.run v s w [] root).2.filter (fun r => decide (kinds r.kind) && decide (r.node = q)) =
      ((Descent.arrive v s w [] root q).map fun a => (v a.1 a.2.1 q a.2.2).reports.filter
        (fun r => decide (kinds r.kind) && decide (r.node = q))).getD [] := by
  have hplace : Descent.InPlace v
      (fun q (r : Emitted) => decide (kinds r.kind) && decide (r.node = q))
      fun n => I n ∧ n.named = true := by
    refine ⟨fun hn s w p b hb q hsel => ?_, fun hn s w p i c s' hc henter => ⟨hchild hn.1 hc, ?_⟩⟩
    · simp only [Bool.and_eq_true, decide_eq_true_eq] at hsel
      rw [← hsel.2]
      exact (hproper hn.1 hn.2 s w p).place b hb hsel.1
    · by_contra hno
      rw [(hproper hn.1 hn.2 s w p).named i c (by simpa using hno)] at henter
      exact absurd henter (by simp)
  exact Descent.reports_at hplace s w [] root ⟨hroot, hnamed⟩ q

theorem calls_at {v : Descent.Visitor σ ω Emitted} {I : Node → Prop}
    (hproper : ∀ {n}, I n → n.named = true → ∀ s w p, Proper p (v s w p n))
    (hchild : ∀ {n c}, I n → c ∈ n.children → I c) {s : σ} {w : ω} {root : Node} (hroot : I root)
    (hnamed : root.named = true) (r : Path) :
    (Descent.run v s w [] root).2.filter (Emitted.isCallAt r) =
      ((Descent.arrive v s w [] root r).map fun a =>
        (v a.1 a.2.1 r a.2.2).reports.filter (Emitted.isCallAt r)).getD [] :=
  records_at (· = .callExpr) hproper hchild hroot hnamed r

/-! ## The names a file defines -/

def isDeclaredNameNode (kind : Str) : Bool :=
  kind = str "identifier" || kind = str "field_identifier" || kind = str "operator_name" ||
    kind = str "destructor_name"

mutual

/-- From a declarator down the first named children, to a name or to the end. -/
def declaredNameNode : Node → Node
  | .mk kind named field start stop children =>
    if isDeclaredNameNode kind then .mk kind named field start stop children
    else (declaredNameIn children).getD (.mk kind named field start stop children)

def declaredNameIn : List Node → Option Node
  | [] => none
  | c :: rest => if c.named then some (declaredNameNode c) else declaredNameIn rest

end

/-- The name that a node of a declaring kind declares. -/
def declaredName (source : Str) (n : Node) : Option Str :=
  match n.childByField (str "name") <|>
      (n.childByField (str "declarator")).map declaredNameNode with
  | none => none
  | some name =>
    if isDeclaredNameNode name.kind && !(name.text source).isEmpty then some (name.text source)
    else none

/-- `collectDefinedNames` below a node, as many levels deep as are left; `types` are the kinds of
    nodes that declare a name. -/
def collectDefinedNames (types : List Str) (source : Str) : ℕ → Node → List Str
  | 0, _ => []
  | levels + 1, n =>
    n.namedChildren.flatMap fun c =>
      (if types.contains c.kind then (declaredName source c).toList else []) ++
        collectDefinedNames types source levels c

end CodeScope.Visitor
