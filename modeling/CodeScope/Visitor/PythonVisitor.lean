import CodeScope.Visitor.JsVisitor

/-! # The Python visitor

`PythonVisitor`, as far as it decides which nodes are visited and which records they give. The
aliases that imports bind are kept in a table, since the builtin filter reads it: a call is filtered
by what was imported before it. Types of variables and the facts about receivers are left out. -/

namespace CodeScope.Visitor.PythonVisitor

open Text (Str str)
open SyntaxTree (Node Path)
open Descent (Step Visitor)

/-- `kBuiltins` of `isPythonBuiltin`. -/
def kBuiltins : List Str :=
  [str "abs", str "all", str "any", str "ascii", str "bin", str "bool", str "bytearray",
    str "bytes", str "callable", str "chr", str "classmethod", str "compile", str "complex",
    str "delattr", str "dict", str "dir", str "divmod", str "enumerate", str "eval", str "exec",
    str "filter", str "float", str "format", str "frozenset", str "getattr", str "globals",
    str "hasattr", str "hash", str "help", str "hex", str "id", str "input", str "int",
    str "isinstance", str "issubclass", str "iter", str "len", str "list", str "locals",
    str "map", str "max", str "memoryview", str "min", str "next", str "object", str "oct",
    str "open", str "ord", str "pow", str "print", str "property", str "range", str "repr",
    str "reversed", str "round", str "set", str "setattr", str "slice", str "sorted",
    str "staticmethod", str "str", str "sum", str "super", str "tuple", str "type", str "vars",
    str "zip", str "__import__"]

def isPythonBuiltin (name : Str) : Bool := kBuiltins.contains name

def kPythonDefNodes : List Str := [str "function_definition", str "class_definition"]

/-- What one call of the visitor is, with `class_scope_stack_`. The name on the left of an
    assignment gives a record without a visit. -/
inductive Job where
  | visitNode (classes : List Str) (ctx : Ctx)
  | visitChildren (classes : List Str) (ctx : Ctx)
  | assigned (ctx : Ctx)

/-- `import_aliases_` -/
abbrev Aliases := List Str

abbrev PythonStep := Step Job Aliases Emitted

def visitChildren (classes : List Str) (ctx : Ctx) (w : Aliases) (records : List Emitted) :
    PythonStep :=
  Visitor.visitChildren (Job.visitNode classes) ctx w records

/-- `PythonVisitor::extractName` -/
def extractName (source : Str) (n : Node) : Str :=
  match n.namedChildren.find? fun c => c.kind = str "identifier" || c.kind = str "type" with
  | some c => c.text source
  | none => []

mutual

/-- `extractAttributeName`: the last identifier, else the name of the first attribute with one, else
    the text. -/
def extractAttributeName (source : Str) : Node → Str
  | .mk kind named field start stop children =>
    let n := Node.mk kind named field start stop children
    let last := match (n.namedChildren.filter fun c => c.kind = str "identifier").getLast? with
      | some c => c.text source
      | none => []
    if !last.isEmpty then last
    else
      let inner := attributeNameIn source children
      if !inner.isEmpty then inner else n.text source

def attributeNameIn (source : Str) : List Node → Str
  | [] => []
  | c :: rest =>
    if c.named && c.kind = str "attribute" then
      let name := extractAttributeName source c
      if name.isEmpty then attributeNameIn source rest else name
    else attributeNameIn source rest

end

/-- The named children of the first `arguments`. -/
def countArguments (n : Node) : ℕ :=
  match n.children.find? fun c => c.kind = str "arguments" with
  | none => 0
  | some args => args.namedChildren.length

/-! ## The handlers -/

/-- The end of `handleFuncDef`: the parameters and the block. -/
def visitBody (classes : List Str) (ctx : Ctx) (w : Aliases) (records : List Emitted) :
    PythonStep where
  reports := records
  opened := w
  enter := fun _ c =>
    if !c.named || c.kind = str "identifier" then none
    else if c.kind = str "parameters" then some (.visitChildren classes ctx)
    else if c.kind = str "block" then some (.visitChildren classes ctx)
    else none
  closed := id

def handleFuncDef (source : Str) (classes : List Str) (ctx : Ctx) (w : Aliases) (p : Path)
    (n : Node) : PythonStep :=
  let name := extractName source n
  if name.isEmpty then visitChildren classes ctx w []
  else
    visitBody classes (ctx.inFunction p) w
      [{ emit .function name p ctx.parentId with
          qualifiedName := match classes with
            | cls :: _ => cls ++ str "." ++ name
            | [] => [] }]

def handleClassDef (source : Str) (classes : List Str) (ctx : Ctx) (w : Aliases) (p : Path)
    (n : Node) : PythonStep :=
  let name := extractName source n
  if name.isEmpty then visitChildren classes ctx w []
  else
    { reports := [emit .class name p ctx.parentId]
      opened := w
      enter := fun _ c =>
        if !c.named || c.kind = str "identifier" then none
        else if c.kind = str "block" then some (.visitChildren (name :: classes) (ctx.under p))
        else none
      closed := id }

/-- The name of a call, and whether it was read off an attribute. -/
def callee (source : Str) (n : Node) : Str × Bool :=
  match n.namedChildren.find? fun c => c.kind = str "identifier" || c.kind = str "attribute" with
  | none => ([], false)
  | some c =>
    if c.kind = str "identifier" then (c.text source, false)
    else (extractAttributeName source c, true)

/-- The builtin filter: a bare name from the list that the file neither defines nor has imported. -/
def isFiltered (defined : List Str) (imported : Aliases) (name : Str) (isAttributeCall : Bool) :
    Bool :=
  !isAttributeCall && !name.isEmpty && isPythonBuiltin name && !defined.contains name &&
    !imported.contains name

def callKind (name : Str) (isAttributeCall : Bool) : CallKind :=
  if isAttributeCall then .method
  else if name.head?.any fun c => 'A' ≤ c && c ≤ 'Z' then .constructor
  else .direct

def handleCall (source : Str) (defined : List Str) (classes : List Str) (ctx : Ctx) (w : Aliases)
    (p : Path) (n : Node) : PythonStep :=
  let (name, isAttributeCall) := callee source n
  if isFiltered defined w name isAttributeCall then visitChildren classes ctx w []
  else
    visitChildren classes (ctx.under p) w
      [emitCall name p ctx (countArguments n) (callKind name isAttributeCall)]

/-- `recordImportAliases`: what an import statement binds to a module. -/
def importAliases (source : Str) (n : Node) : List Str :=
  if n.kind = str "import_from_statement" then []
  else
    n.namedChildren.filterMap fun c =>
      if c.kind = str "aliased_import" then
        match (c.namedChildren.filter fun d => d.kind = str "identifier").getLast? with
        | some d => if (d.text source).isEmpty then none else some (d.text source)
        | none => none
      else if c.kind = str "dotted_name" then
        (c.namedChildren.find? fun d => d.kind = str "identifier").map fun d => d.text source
      else none

def handleImport (source : Str) (ctx : Ctx) (w : Aliases) (p : Path) (n : Node) : PythonStep :=
  visitNothing (importAliases source n ++ w) [emit .import (n.text source) p ctx.parentId]

def handleAssignment (classes : List Str) (ctx : Ctx) (w : Aliases) : PythonStep where
  reports := []
  opened := w
  enter := fun _ c =>
    if !c.named then none
    else if c.kind = str "identifier" then some (.assigned ctx)
    else visitChild (Job.visitNode classes) ctx
  closed := id

/-- The variable that an assigned name gives. -/
def handleAssigned (source : Str) (ctx : Ctx) (w : Aliases) (p : Path) (n : Node) : PythonStep :=
  visitNothing w
    (if (n.text source).isEmpty then [] else [emit .variable (n.text source) p ctx.parentId])

/-- An `except` clause with nothing named before its block. -/
def isBareExcept (n : Node) : Bool :=
  (n.children.takeWhile fun c => c.kind ≠ str "block").all fun c => !c.named

def handleExceptClause (classes : List Str) (ctx : Ctx) (w : Aliases) (p : Path) (n : Node) :
    PythonStep :=
  visitChildren classes ctx w
    (if isBareExcept n then [emit .comment (str "except") p ctx.parentId] else [])

/-- `PythonVisitor::visitNode` -/
def visitNode (handler : ℤ → Ctx → Path → Node → PythonStep) (source : Str) (defined : List Str)
    (classes : List Str) (ctx : Ctx) (w : Aliases) (p : Path) (n : Node) : PythonStep :=
  if n.kind = str "function_definition" then handleFuncDef source classes ctx w p n
  else if n.kind = str "class_definition" then handleClassDef source classes ctx w p n
  else if n.kind = str "call" then handleCall source defined classes ctx w p n
  else if n.kind = str "import_statement" || n.kind = str "import_from_statement" then
    handleImport source ctx w p n
  else if n.kind = str "assignment" then handleAssignment classes ctx w
  else if n.kind = str "except_clause" then handleExceptClause classes ctx w p n
  else
    JsVisitor.visitNode (Job.visitNode classes) (fun id => handler id ctx p n) source ctx w p n

/-- Each call of the visitor. -/
def visitor (handler : ℤ → Ctx → Path → Node → PythonStep) (source : Str) (defined : List Str) :
    Visitor Job Aliases Emitted := fun job w p n =>
  match job with
  | .visitNode classes ctx => visitNode handler source defined classes ctx w p n
  | .visitChildren classes ctx => visitChildren classes ctx w []
  | .assigned ctx => handleAssigned source ctx w p n

/-- The names that the file defines. -/
def definedNames (source : Str) (root : Node) : List Str :=
  collectDefinedNames kPythonDefNodes source kMaxVisitDepth root

/-- The first call, of the children of the root. -/
def start : Job := .visitChildren [] ⟨none, [], 0⟩

/-- `PythonVisitor::visit`: the records of a file, in order. -/
def visit (handler : ℤ → Ctx → Path → Node → PythonStep) (source : Str) (root : Node) :
    List Emitted :=
  emit .variable [] [] none ::
    (Descent.run (visitor handler source (definedNames source root)) start [] [] root).2

end CodeScope.Visitor.PythonVisitor
