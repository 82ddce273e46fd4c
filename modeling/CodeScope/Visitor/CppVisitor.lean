import CodeScope.Visitor.CVisitor

/-! # The C++ visitor

`CppVisitor`: classes and their members, namespaces and templates; every other node is left to the C
visitor. -/

namespace CodeScope.Visitor.CppVisitor

open Text (Str str)
open SyntaxTree (Node Path)
open Descent (Visitor)
open CVisitor (CStep Job Tables)

def declaresFunction (n : Node) : Bool :=
  n.namedChildren.any fun c => c.kind = str "function_declarator" || c.kind = str "parameter_list"

/-- `visitClassBody`: a `declaration` of a function is a member, and the other members are visited
    without a check of the depth. -/
def visitClassBody (ctx : Ctx) (w : Tables) : CStep where
  reports := []
  opened := w
  enter := fun _ c =>
    if !c.named then none
    else if c.kind = str "declaration" && declaresFunction c then some (.memberFunctionDecl ctx)
    else some (.visitNode ctx)
  closed := id

/-- The record of a member that declares a function. One whose qualified name is that of a
    definition in the file gives none. -/
def memberRecords (source : Str) (outOfClass : List Str) (ctx : Ctx) (w : Tables) (p : Path)
    (n : Node) : List Emitted :=
  let name := CVisitor.extractName source n
  let cls := w.currentClassName
  if !declaresFunction n || name.isEmpty then []
  else if cls.isEmpty then [emit .method name p ctx.parentId]
  else if outOfClass.contains (cls ++ str "::" ++ name) then []
  else [{ emit .method name p ctx.parentId with qualifiedName := cls ++ str "::" ++ name }]

def handleMemberFunctionDecl (source : Str) (outOfClass : List Str) (ctx : Ctx) (w : Tables)
    (p : Path) (n : Node) : CStep :=
  CVisitor.visitChildren ctx w (memberRecords source outOfClass ctx w p n)

def handleClassSpec (source : Str) (ctx : Ctx) (w : Tables) (p : Path) (n : Node) : CStep :=
  let name := CVisitor.specifierName source n
  { reports := [emit .class name p ctx.parentId]
    opened := w.pushClassScope name
    enter := fun _ c =>
      if !c.named || c.kind = str "identifier" || c.kind = str "type_identifier" then none
      else if c.kind = str "field_declaration_list" then some (.visitClassBody (ctx.under p))
      else visitChild Job.visitNode (ctx.under p)
    closed := Tables.popClassScope }

def handleNamespace (ctx : Ctx) (w : Tables) : CStep where
  reports := []
  opened := w
  enter := fun _ c =>
    if !c.named then none
    else if c.kind = str "declaration_list" || c.kind = str "identifier" then
      some (.visitChildren ctx)
    else visitChild Job.visitNode ctx
  closed := id

def handleTemplate (ctx : Ctx) (w : Tables) : CStep where
  reports := []
  opened := w
  enter := fun _ c =>
    if !c.named || c.kind = str "template_parameter_list" then none
    else visitChild Job.visitNode ctx
  closed := id

/-- `CppVisitor::visitNode` -/
def visitNode (handler : ℤ → Ctx → Path → Node → CStep) (source : Str)
    (defined outOfClass : List Str) (ctx : Ctx) (w : Tables) (p : Path) (n : Node) : CStep :=
  if n.kind = str "class_specifier" then handleClassSpec source ctx w p n
  else if n.kind = str "namespace_definition" then handleNamespace ctx w
  else if n.kind = str "template_declaration" then handleTemplate ctx w
  else if n.kind = str "field_declaration" then handleMemberFunctionDecl source outOfClass ctx w p n
  else CVisitor.visitNode handler source defined ctx w p n

/-- Each call of the visitor. -/
def visitor (handler : ℤ → Ctx → Path → Node → CStep) (source : Str)
    (defined outOfClass : List Str) : Visitor Job Tables Emitted := fun job w p n =>
  match job with
  | .visitNode ctx => visitNode handler source defined outOfClass ctx w p n
  | .visitChildren ctx => CVisitor.visitChildren ctx w []
  | .visitClassBody ctx => visitClassBody ctx w
  | .memberFunctionDecl ctx => handleMemberFunctionDecl source outOfClass ctx w p n

/-- The names that the file defines. -/
def definedNames (source : Str) (root : Node) : List Str :=
  collectDefinedNames CVisitor.kCDefNodes source kMaxVisitDepth root

/-- The qualified names of the functions that the file defines out of their classes. -/
def outOfClassDefs (source : Str) (root : Node) : List Str :=
  CVisitor.collectOutOfClassDefs source kMaxVisitDepth root

/-- The first call, of the children of the root. -/
def start : Job := .visitChildren ⟨none, [], 0⟩

def noTables : Tables := ⟨[], []⟩

/-- The visitor of a file. -/
def visitorOf (handler : ℤ → Ctx → Path → Node → CStep) (source : Str) (root : Node) :
    Visitor Job Tables Emitted :=
  visitor handler source (definedNames source root) (outOfClassDefs source root)

/-- `CppVisitor::visit`: the records of a file, in order. -/
def visit (handler : ℤ → Ctx → Path → Node → CStep) (source : Str) (root : Node) : List Emitted :=
  emit .variable [] [] none :: (Descent.run (visitorOf handler source root) start noTables [] root).2

end CodeScope.Visitor.CppVisitor
