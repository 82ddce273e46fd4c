import CodeScope.Visitor.JsVisitor

/-! # The Rust visitor

`RustVisitor`, as far as it decides which nodes are visited and which records they give. Type
references, visibility and the facts about receivers are left out. -/

namespace CodeScope.Visitor.RustVisitor

open Text (Str str splitLast)
open SyntaxTree (Node Path)
open Descent (Step Visitor)

/-- `kBuiltins` of `isRustBuiltin`. -/
def kBuiltins : List Str :=
  [str "println", str "print", str "eprintln", str "eprint", str "format", str "write",
    str "writeln", str "assert", str "assert_eq", str "assert_ne", str "debug_assert",
    str "debug_assert_eq", str "debug_assert_ne", str "unreachable", str "unimplemented",
    str "todo", str "panic", str "compile_error", str "concat", str "env", str "option_env",
    str "file", str "line", str "column", str "stringify", str "include", str "include_str",
    str "include_bytes", str "module_path", str "cfg", str "matches", str "Some", str "None",
    str "Ok", str "Err", str "clone", str "copy", str "default", str "drop"]

def isRustBuiltin (name : Str) : Bool := kBuiltins.contains name

def kRustDefNodes : List Str :=
  [str "function_item", str "struct_item", str "enum_item", str "trait_item", str "type_item",
    str "const_item", str "static_item", str "mod_item"]

/-- What one call of the visitor is. The loops of `handleImpl` over a `declaration_list` and over
    the function in it are calls of their own. -/
inductive Job where
  | visitNode (ctx : Ctx)
  | visitChildren (ctx : Ctx)
  | implBody (ctx : Ctx) (selfType : Str)
  | implMethod (ctx : Ctx) (selfType : Str)

abbrev RustStep := Step Job Unit Emitted

def visitChildren (ctx : Ctx) (records : List Emitted) : RustStep :=
  Visitor.visitChildren Job.visitNode ctx () records

/-- `RustVisitor::extractName` -/
def extractName (source : Str) (n : Node) : Str :=
  match n.namedChildren.find? fun c => c.kind = str "identifier" || c.kind = str "type_identifier"
      with
  | some c => c.text source
  | none => []

/-- The text after the last `::`; nothing when there is none. -/
def afterColons : Str → Option Str
  | [] => none
  | c :: rest =>
    match afterColons rest with
    | some after => some after
    | none => if (str "::").isPrefixOf (c :: rest) then some (rest.drop 1) else none

/-- Of the last `.` and the last `::` the later one counts, and the name is what follows it. -/
def bareCalleeName (qualified : Str) : Str :=
  match splitLast '.' qualified, afterColons qualified with
  | some (_, afterDot), some afterColon =>
    if afterDot.length < afterColon.length then afterDot else afterColon
  | some (_, afterDot), none => afterDot
  | none, some afterColon => afterColon
  | none, none => qualified

/-! ## The handlers -/

/-- The end of `handleFunction`: the parameters and the block. -/
def visitBody (ctx : Ctx) (records : List Emitted) : RustStep where
  reports := records
  opened := ()
  enter := fun _ c =>
    if !c.named || c.kind = str "identifier" then none
    else if c.kind = str "parameters" then some (.visitChildren ctx)
    else if c.kind = str "block" then some (.visitChildren ctx)
    else none
  closed := id

def handleFunction (source : Str) (ctx : Ctx) (p : Path) (n : Node) : RustStep :=
  let name := extractName source n
  if name.isEmpty then visitChildren ctx []
  else visitBody (ctx.inFunction p) [emit .function name p ctx.parentId]

/-- `handleStruct`, `handleEnum` and `handleTrait`: a record of the given kind, under which the
    children are visited. -/
def handleType (kind : Store.RecordKind) (source : Str) (ctx : Ctx) (p : Path) (n : Node) :
    RustStep :=
  let name := extractName source n
  if name.isEmpty then visitChildren ctx []
  else visitChildren (ctx.under p) [emit kind name p ctx.parentId]

def handleStruct := handleType .class
def handleEnum := handleType .enum
def handleTrait := handleType .interface

/-- The name of a type in the head of an `impl`: the first `type_identifier` of a generic type, its
    text when it has none. -/
def implTypeName (source : Str) (c : Node) : Option Str :=
  if c.kind = str "trait_type" || c.kind = str "type_identifier" then some (c.text source)
  else if c.kind = str "generic_type" then
    let inner := match c.namedChildren.find? fun g => g.kind = str "type_identifier" with
      | some g => g.text source
      | none => []
    some (if inner.isEmpty then c.text source else inner)
  else none

/-- `trait_name` and `impl_type`: the first type is taken for the trait, the last of the others for
    the type. -/
def implTypes (source : Str) (n : Node) : Str × Str :=
  (n.namedChildren.filterMap (implTypeName source)).foldl
    (fun found name => if found.1.isEmpty then (name, found.2) else (found.1, name)) ([], [])

def handleImpl (source : Str) (ctx : Ctx) (p : Path) (n : Node) : RustStep :=
  let (traitName, implType) := implTypes source n
  let selfType := if implType.isEmpty then traitName else implType
  { reports :=
      if !traitName.isEmpty && !implType.isEmpty then
        [{ emit .interfaceImpl implType p ctx.parentId with typeName := traitName }]
      else []
    opened := ()
    enter := fun _ c =>
      if !c.named then none
      else if c.kind = str "function_item" then some (.implMethod ctx selfType)
      else if c.kind = str "declaration_list" then some (.implBody ctx selfType)
      else none
    closed := id }

def handleImplBody (ctx : Ctx) (selfType : Str) : RustStep where
  reports := []
  opened := ()
  enter := fun _ c =>
    if c.named && c.kind = str "function_item" then some (.implMethod ctx selfType) else none
  closed := id

def handleImplMethod (source : Str) (ctx : Ctx) (selfType : Str) (p : Path) (n : Node) :
    RustStep :=
  let name := extractName source n
  if name.isEmpty then visitNothing () []
  else
    visitBody (ctx.inFunction p)
      [{ emit .method name p ctx.parentId with
          qualifiedName := if selfType.isEmpty then [] else selfType ++ str "::" ++ name }]

/-- The kinds of the callee whose text is read, and into which `handleCall` does not go. -/
def isCalleeKind (kind : Str) : Bool :=
  kind = str "identifier" || kind = str "field_expression" || kind = str "scoped_identifier"

/-- `qualified` and `name` of a call. -/
def callee (source : Str) (n : Node) : Str × Str :=
  match n.namedChildren.find? fun c => isCalleeKind c.kind with
  | none => ([], [])
  | some c =>
    (c.text source,
      if c.kind = str "identifier" then c.text source else bareCalleeName (c.text source))

/-- The builtin filter of `handleCall` and `handleMacro`. -/
def isFiltered (defined : List Str) (qualified name : Str) : Bool :=
  !qualified.isEmpty && isRustBuiltin qualified && !defined.contains name

def callKind (qualified : Str) : CallKind :=
  if Text.contains (str "::") qualified then
    if Text.contains (str "::new") qualified || Text.contains (str "::from") qualified then
      .constructor
    else .method
  else if qualified.contains '.' then .method
  else .direct

/-- The named children of the first `arguments`. -/
def countArguments (n : Node) : ℕ :=
  match n.children.find? fun c => c.kind = str "arguments" with
  | none => 0
  | some args => args.namedChildren.length

def handleCall (source : Str) (defined : List Str) (ctx : Ctx) (p : Path) (n : Node) : RustStep :=
  let (qualified, name) := callee source n
  if isFiltered defined qualified name then visitChildren ctx []
  else
    { reports :=
        [emitCall name p ctx (countArguments n) (callKind qualified)]
      opened := ()
      enter := fun _ c =>
        if !c.named || isCalleeKind c.kind then none
        else visitChild Job.visitNode (ctx.under p)
      closed := id }

/-- `qualified` and `name` of a macro invocation. -/
def macroName (source : Str) (n : Node) : Str × Str :=
  match n.namedChildren.find? fun c =>
      c.kind = str "identifier" || c.kind = str "scoped_identifier" with
  | none => ([], [])
  | some c => (c.text source, bareCalleeName (c.text source))

def handleMacro (source : Str) (defined : List Str) (ctx : Ctx) (p : Path) (n : Node) : RustStep :=
  let (qualified, name) := macroName source n
  if name.isEmpty then visitChildren ctx []
  else if isRustBuiltin qualified && !defined.contains name then visitChildren ctx []
  else
    { reports :=
        [emitCall name p ctx 0
          (if Text.contains (str "::") qualified then .method else .direct)]
      opened := ()
      enter := fun _ c =>
        if !c.named || c.kind = str "identifier" || c.kind = str "scoped_identifier" then none
        else visitChild Job.visitNode (ctx.under p)
      closed := id }

/-- The kinds of types that `handleLet` reads, and into which it does not go. -/
def isLetType (kind : Str) : Bool :=
  kind = str "type_identifier" || kind = str "generic_type" || kind = str "reference_type" ||
    kind = str "array_type" || kind = str "tuple_type"

def handleLet (source : Str) (ctx : Ctx) (p : Path) (n : Node) : RustStep where
  reports :=
    n.children.zipIdx.filterMap fun (c, i) =>
      if c.named && c.kind = str "identifier" && !(c.text source).isEmpty then
        some (emit .variable (c.text source) (p ++ [i]) ctx.parentId)
      else none
  opened := ()
  enter := fun _ c =>
    if !c.named || c.kind = str "identifier" || isLetType c.kind then none
    else visitChild Job.visitNode ctx
  closed := id

def handleUse (source : Str) (ctx : Ctx) (p : Path) (n : Node) : RustStep :=
  visitNothing () [emit .import (n.text source) p ctx.parentId]

/-- `RustVisitor::visitNode` -/
def visitNode (handler : ℤ → Ctx → Path → Node → RustStep) (source : Str) (defined : List Str)
    (ctx : Ctx) (p : Path) (n : Node) : RustStep :=
  if n.kind = str "function_item" then handleFunction source ctx p n
  else if n.kind = str "struct_item" || n.kind = str "union_item" then handleStruct source ctx p n
  else if n.kind = str "enum_item" then handleEnum source ctx p n
  else if n.kind = str "trait_item" then handleTrait source ctx p n
  else if n.kind = str "impl_item" then handleImpl source ctx p n
  else if n.kind = str "call_expression" then handleCall source defined ctx p n
  else if n.kind = str "macro_invocation" then handleMacro source defined ctx p n
  else if n.kind = str "let_declaration" then handleLet source ctx p n
  else if n.kind = str "use_declaration" then handleUse source ctx p n
  else
    JsVisitor.visitNode Job.visitNode (fun id => handler id ctx p n) source ctx () p n

/-- Each call of the visitor. -/
def visitor (handler : ℤ → Ctx → Path → Node → RustStep) (source : Str) (defined : List Str) :
    Visitor Job Unit Emitted := fun job _ p n =>
  match job with
  | .visitNode ctx => visitNode handler source defined ctx p n
  | .visitChildren ctx => visitChildren ctx []
  | .implBody ctx selfType => handleImplBody ctx selfType
  | .implMethod ctx selfType => handleImplMethod source ctx selfType p n

/-- The names that the file defines. -/
def definedNames (source : Str) (root : Node) : List Str :=
  collectDefinedNames kRustDefNodes source kMaxVisitDepth root

/-- `RustVisitor::visit`: the records of a file, in order. -/
def visit (handler : ℤ → Ctx → Path → Node → RustStep) (source : Str) (root : Node) :
    List Emitted :=
  emit .variable [] [] none ::
    (Descent.run (visitor handler source (definedNames source root))
      (.visitChildren ⟨none, [], 0⟩) () [] root).2

end CodeScope.Visitor.RustVisitor
