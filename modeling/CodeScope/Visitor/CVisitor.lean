import CodeScope.Visitor.JsVisitor

/-! # The C visitor

`CVisitor`, as far as it decides which nodes are visited and which records they give. The types of
variables and the stack of class scopes are tables, since a declaration or a class body changes them
for what comes after it. The scopes of symbols and visibility are left out. -/

namespace CodeScope.Visitor.CVisitor

open Text (Str str)
open SyntaxTree (Node Path)
open Descent (Step Visitor)

/-- `kBuiltins` of `isCBuiltin`. -/
def kBuiltins : List Str :=
  [str "__builtin_expect", str "__builtin_va_start", str "__builtin_va_end",
    str "__builtin_va_arg", str "__builtin_offsetof", str "__builtin_types_compatible_p",
    str "__builtin_constant_p", str "__builtin_prefetch", str "__builtin_trap",
    str "__builtin_unreachable", str "__builtin_assume", str "__builtin_memcpy",
    str "__builtin_memset", str "__builtin_strcpy", str "__builtin_strlen",
    str "__builtin_malloc", str "__builtin_free", str "__builtin_alloca",
    str "__builtin_alloca_with_align", str "__builtin_frame_address",
    str "__builtin_return_address", str "__builtin_clz", str "__builtin_ctz",
    str "__builtin_popcount", str "__builtin_ffs", str "__builtin_parity",
    str "__builtin_bswap16", str "__builtin_bswap32", str "__builtin_bswap64",
    str "__builtin_add_overflow", str "__builtin_sub_overflow", str "__builtin_mul_overflow",
    str "__sync_synchronize", str "__sync_fetch_and_add", str "__sync_fetch_and_sub",
    str "__sync_val_compare_and_swap", str "__atomic_load", str "__atomic_store",
    str "__atomic_exchange", str "__atomic_compare_exchange", str "__atomic_add_fetch",
    str "printf", str "fprintf", str "sprintf", str "snprintf", str "puts", str "scanf",
    str "malloc", str "calloc", str "realloc", str "free", str "memcpy", str "memset",
    str "strcmp", str "strlen", str "strcpy", str "strncpy", str "strcat", str "strncat",
    str "memcmp", str "memmove", str "exit", str "abort", str "assert"]

def isCBuiltin (name : Str) : Bool := kBuiltins.contains name

def kCDefNodes : List Str :=
  [str "function_definition", str "struct_specifier", str "enum_specifier",
    str "type_definition", str "class_specifier"]

/-- `var_types_`, the newest entry first, and `class_scope_stack_`, the innermost class first. -/
structure Tables where
  varTypes : List (Str × Str)
  classScopes : List Str
deriving DecidableEq

namespace Tables

def recordVarType (w : Tables) (name type : Str) : Tables :=
  if name.isEmpty || type.isEmpty then w else { w with varTypes := (name, type) :: w.varTypes }

/-- The type last recorded for a variable, empty when there is none. -/
def typeOf (w : Tables) (name : Str) : Str := (w.varTypes.lookup name).getD []

def pushClassScope (w : Tables) (className : Str) : Tables :=
  if className.isEmpty then w else { w with classScopes := className :: w.classScopes }

def popClassScope (w : Tables) : Tables := { w with classScopes := w.classScopes.tail }

def currentClassName (w : Tables) : Str := w.classScopes.head?.getD []

end Tables

/-- What one call of the visitor is. A class body and a `declaration` in it have calls of their own,
    `visitClassBody` and `handleMemberFunctionDecl`. -/
inductive Job where
  | visitNode (ctx : Ctx)
  | visitChildren (ctx : Ctx)
  | visitClassBody (ctx : Ctx)
  | memberFunctionDecl (ctx : Ctx)

abbrev CStep := Step Job Tables Emitted

def visitChildren (ctx : Ctx) (w : Tables) (records : List Emitted) : CStep :=
  Visitor.visitChildren Job.visitNode ctx w records

/-! ## Names -/

/-- The declarators and names that `extractName` looks into. -/
def isNameWrapper (kind : Str) : Bool :=
  kind = str "qualified_identifier" || kind = str "function_declarator" ||
    kind = str "pointer_declarator" || kind = str "array_declarator" ||
    kind = str "parenthesized_declarator"

mutual

/-- `extractName`: the name in the declarator, else that of the first child that has the kind of a
    name or may hold one. -/
def extractName (source : Str) : Node → Str
  | .mk _ _ _ _ _ children =>
    match nameInDeclarator source children with
    | some name => name
    | none => nameInChildren source children

def nameInDeclarator (source : Str) : List Node → Option Str
  | [] => none
  | c :: rest =>
    if c.field = some (str "declarator") then
      some (if isDeclaredNameNode c.kind then c.text source else extractName source c)
    else nameInDeclarator source rest

def nameInChildren (source : Str) : List Node → Str
  | [] => []
  | c :: rest =>
    if c.named && isDeclaredNameNode c.kind then c.text source
    else if c.named && isNameWrapper c.kind then extractName source c
    else nameInChildren source rest

end

/-- The parts of a qualified name that `extractQualifiedName` reads. -/
def isNamePart (kind : Str) : Bool :=
  kind = str "identifier" || kind = str "type_identifier" ||
    kind = str "namespace_identifier" || kind = str "field_identifier" ||
    kind = str "operator_name" || kind = str "destructor_name"

/-- `nameOf` in `extractQualifiedName`: the parts with `::` between them, nothing when there are
    fewer than two. -/
def nameOf (source : Str) (qualified : Node) : Str :=
  let parts := (qualified.namedChildren.filter fun c => isNamePart c.kind).map fun c =>
    c.text source
  match parts.getLast? with
  | none => []
  | some last =>
    if parts.length < 2 then []
    else
      parts.dropLast.foldl (fun out part => (if out.isEmpty then out else out ++ str "::") ++ part)
        [] ++ str "::" ++ last

mutual

def extractQualifiedName (source : Str) : Node → Str
  | .mk kind named field start stop children =>
    if kind = str "qualified_identifier" then
      nameOf source (.mk kind named field start stop children)
    else
      match qualifiedInDeclarator source children with
      | some name => name
      | none => qualifiedInChildren source children

def qualifiedInDeclarator (source : Str) : List Node → Option Str
  | [] => none
  | c :: rest =>
    if c.field = some (str "declarator") then some (extractQualifiedName source c)
    else qualifiedInDeclarator source rest

def qualifiedInChildren (source : Str) : List Node → Str
  | [] => []
  | c :: rest =>
    if c.named && c.kind = str "qualified_identifier" then nameOf source c
    else if c.named && (c.kind = str "function_declarator" || c.kind = str "pointer_declarator" ||
        c.kind = str "parenthesized_declarator") then
      let name := extractQualifiedName source c
      if name.isEmpty then qualifiedInChildren source rest else name
    else qualifiedInChildren source rest

end

/-- `collectOutOfClassDefs` below a node, as many levels deep as are left. -/
def collectOutOfClassDefs (source : Str) : ℕ → Node → List Str
  | 0, _ => []
  | levels + 1, n =>
    n.namedChildren.flatMap fun c =>
      (if c.kind = str "function_definition" then
        let q := extractQualifiedName source c
        if q.isEmpty then [] else [q]
      else []) ++ collectOutOfClassDefs source levels c

def extractFieldMethodName (source : Str) (n : Node) : Str :=
  match n.children.find? fun c => c.kind = str "field_identifier" with
  | some c => c.text source
  | none => []

def extractFieldReceiverText (source : Str) (n : Node) : Str :=
  match n.namedChildren.find? fun c => c.kind = str "identifier" ||
      c.kind = str "field_expression" || c.kind = str "call_expression" ||
      c.kind = str "subscript_expression" with
  | some c => c.text source
  | none => []

def extractQualifiedReceiverText (source : Str) (n : Node) : Str :=
  match n.namedChildren.find? fun c => c.kind = str "identifier" ||
      c.kind = str "field_identifier" || c.kind = str "qualified_identifier" with
  | some c => c.text source
  | none => []

/-- The named children of the first `argument_list`. -/
def countArguments (n : Node) : ℕ :=
  match n.children.find? fun c => c.kind = str "argument_list" with
  | none => 0
  | some args => args.namedChildren.length

/-! ## The handlers -/

def recordParameterTypes (source : Str) (w : Tables) (n : Node) : Tables :=
  let declarators := n.namedChildren.filter fun c => c.kind = str "function_declarator"
  let params := declarators.flatMap fun d =>
    match d.childByField (str "parameters") with
    | none => []
    | some params => params.namedChildren.filter fun c => c.kind = str "parameter_declaration"
  params.foldl (fun w param =>
    match param.childByField (str "type") with
    | none => w
    | some type => w.recordVarType (extractName source param) (type.text source)) w

/-- The end of `handleFuncDef`: of the children only the declarator and the body. -/
def visitBody (ctx : Ctx) (w : Tables) (records : List Emitted) : CStep where
  reports := records
  opened := w
  enter := fun _ c =>
    if !c.named then none
    else if c.kind = str "function_declarator" || c.kind = str "compound_statement" then
      some (.visitChildren ctx)
    else none
  closed := id

def handleFuncDef (source : Str) (ctx : Ctx) (w : Tables) (p : Path) (n : Node) : CStep :=
  let name := extractName source n
  if name.isEmpty then visitChildren ctx w []
  else
    let qname := extractQualifiedName source n
    let cls := w.currentClassName
    visitBody (ctx.inFunction p) (recordParameterTypes source w n)
      [{ emit .function name p ctx.parentId with
          qualifiedName :=
            if !qname.isEmpty then qname else if cls.isEmpty then [] else cls ++ str "::" ++ name }]

/-- The type and the variable of a declaration. -/
def declaredVariable (source : Str) (n : Node) : Str × Str :=
  let type := match n.namedChildren.find? fun c => c.kind = str "type_identifier" ||
      c.kind = str "qualified_identifier" || c.kind = str "primitive_type" ||
      c.kind = str "sized_type_specifier" with
    | some c => c.text source
    | none => []
  let name := match n.namedChildren.find? fun c => c.kind = str "identifier" ||
      c.kind = str "init_declarator" with
    | some c => if c.kind = str "identifier" then c.text source else extractName source c
    | none => []
  (name, type)

def handleDeclaration (source : Str) (ctx : Ctx) (w : Tables) (n : Node) : CStep :=
  let (name, type) := declaredVariable source n
  visitChildren ctx (w.recordVarType name type) []

/-- The first `identifier` or `type_identifier` of a class, struct or union. -/
def specifierName (source : Str) (n : Node) : Str :=
  match n.namedChildren.find? fun c => c.kind = str "type_identifier" ||
      c.kind = str "identifier" with
  | some c => c.text source
  | none => []

def handleStruct (source : Str) (ctx : Ctx) (w : Tables) (p : Path) (n : Node) : CStep :=
  let name := specifierName source n
  { visitChildren (ctx.under p) (w.pushClassScope name) [emit .class name p ctx.parentId] with
    closed := Tables.popClassScope }

def handleEnum (source : Str) (ctx : Ctx) (w : Tables) (p : Path) (n : Node) : CStep :=
  visitChildren (ctx.under p) w [emit .enum (extractName source n) p ctx.parentId]

/-- The callee that the scan of a call's children stops at. -/
inductive Callee where
  | none
  | name (c : Node)
  | field (c : Node)
  | qualified (c : Node)

def callee (n : Node) : Callee :=
  match n.children.find? fun c => c.kind = str "identifier" || c.kind = str "field_expression" ||
      c.kind = str "qualified_identifier" with
  | Option.none => .none
  | some c =>
    if c.kind = str "identifier" then .name c
    else if c.kind = str "field_expression" then .field c
    else .qualified c

namespace Callee

/-- The name of the call: the identifier, the field, or the last identifier of a qualified name. -/
def nameOf (source : Str) : Callee → Str
  | none => []
  | name c => c.text source
  | field c => extractFieldMethodName source c
  | qualified c =>
    match (c.namedChildren.filter fun q => q.kind = str "identifier" ||
        q.kind = str "field_identifier").getLast? with
    | some q => q.text source
    | Option.none => []

def callKind : Callee → CallKind
  | none => .direct
  | name _ => .direct
  | field _ => .method
  | qualified _ => .staticMethod

def qualifiedTarget (source : Str) : Callee → Str
  | none => []
  | name _ => []
  | field c => c.text source
  | qualified c => c.text source

def receiverText (source : Str) : Callee → Str
  | none => []
  | name _ => []
  | field c => extractFieldReceiverText source c
  | qualified c => extractQualifiedReceiverText source c

end Callee

/-- The type of a receiver: that of the class around the call for `this`, that of a variable. -/
def receiverType (w : Tables) (receiverText : Str) : Str :=
  if receiverText.isEmpty then []
  else if receiverText = str "this" then w.currentClassName
  else w.typeOf receiverText

/-- The builtin filter. -/
def isFiltered (defined : List Str) (name : Str) : Bool :=
  !name.isEmpty && isCBuiltin name && !defined.contains name

/-- The call with what `setCallFacts` records. -/
def callRecord (source : Str) (ctx : Ctx) (w : Tables) (p : Path) (n : Node) : Emitted :=
  let found := callee n
  let call := emitCall (found.nameOf source) p ctx (countArguments n) found.callKind
  if (found.qualifiedTarget source).isEmpty then call
  else
    { call with
      qualifiedTarget := found.qualifiedTarget source
      receiverText := found.receiverText source
      receiverType := receiverType w (found.receiverText source) }

/-- The end of `handleCall`: every child but an identifier, the arguments one by one. -/
def visitArguments (ctx : Ctx) (w : Tables) (records : List Emitted) : CStep where
  reports := records
  opened := w
  enter := fun _ c =>
    if !c.named || c.kind = str "identifier" then none
    else if c.kind = str "argument_list" then some (.visitChildren ctx)
    else visitChild Job.visitNode ctx
  closed := id

def handleCall (source : Str) (defined : List Str) (ctx : Ctx) (w : Tables) (p : Path) (n : Node) :
    CStep :=
  if isFiltered defined ((callee n).nameOf source) then visitArguments ctx w []
  else visitArguments (ctx.under p) w [callRecord source ctx w p n]

/-- The name of a constructor call: the first that `extractName` finds in a child. -/
def constructedName (source : Str) (n : Node) : Str :=
  match n.namedChildren.find? fun c => !(extractName source c).isEmpty with
  | some c => extractName source c
  | none => []

/-- The kinds of a type specifier that `handleNewExpr` does not go into. -/
def isTypeOfNew (kind : Str) : Bool :=
  kind = str "identifier" || kind = str "type_identifier" || kind = str "generic_type" ||
    kind = str "qualified_identifier" || kind = str "pointer_type"

/-- The end of `handleNewExpr`: every child that is not `skipped`, the arguments one by one. -/
def visitConstructed (skipped : Str → Bool) (ctx : Ctx) (w : Tables) (records : List Emitted) :
    CStep where
  reports := records
  opened := w
  enter := fun _ c =>
    if !c.named || skipped c.kind then none
    else if c.kind = str "argument_list" then some (.visitChildren ctx)
    else visitChild Job.visitNode ctx
  closed := id

def handleNewExpr (source : Str) (defined : List Str) (ctx : Ctx) (w : Tables) (p : Path)
    (n : Node) : CStep :=
  let name := constructedName source n
  if name.isEmpty then visitChildren ctx w []
  else if isFiltered defined name then visitConstructed (fun _ => false) ctx w []
  else
    visitConstructed isTypeOfNew (ctx.under p) w
      [emitCall name p ctx (countArguments n) .constructor]

def handleInclude (source : Str) (ctx : Ctx) (w : Tables) (p : Path) (n : Node) : CStep :=
  visitNothing w [emit .import (n.text source) p ctx.parentId]

def handleTypeDef (source : Str) (ctx : Ctx) (w : Tables) (p : Path) (n : Node) : CStep :=
  let name := extractName source n
  if name.isEmpty then visitChildren ctx w []
  else visitNothing w [emit .typeAlias name p ctx.parentId]

/-- The name of a macro definition. -/
def definedMacro (source : Str) (n : Node) : Str :=
  match n.namedChildren.find? fun c => c.kind = str "identifier" with
  | some c => c.text source
  | none => []

def handlePreprocDef (source : Str) (ctx : Ctx) (w : Tables) (p : Path) (n : Node) : CStep :=
  let name := definedMacro source n
  if name.isEmpty then visitChildren ctx w []
  else visitNothing w [emit .variable name p ctx.parentId]

/-- `CVisitor::visitNode` -/
def visitNode (handler : ℤ → Ctx → Path → Node → CStep) (source : Str) (defined : List Str)
    (ctx : Ctx) (w : Tables) (p : Path) (n : Node) : CStep :=
  if n.kind = str "function_definition" then handleFuncDef source ctx w p n
  else if n.kind = str "declaration" then handleDeclaration source ctx w n
  else if n.kind = str "struct_specifier" || n.kind = str "union_specifier" then
    handleStruct source ctx w p n
  else if n.kind = str "enum_specifier" then handleEnum source ctx w p n
  else if n.kind = str "call_expression" then handleCall source defined ctx w p n
  else if n.kind = str "new_expression" then handleNewExpr source defined ctx w p n
  else if n.kind = str "preproc_include" then handleInclude source ctx w p n
  else if n.kind = str "type_definition" then handleTypeDef source ctx w p n
  else if n.kind = str "preproc_def" || n.kind = str "preproc_function_def" then
    handlePreprocDef source ctx w p n
  else JsVisitor.visitNode Job.visitNode (fun id => handler id ctx p n) source ctx w p n

/-- Each call of the visitor. The calls for a class body are those of C++. -/
def visitor (handler : ℤ → Ctx → Path → Node → CStep) (source : Str) (defined : List Str) :
    Visitor Job Tables Emitted := fun job w p n =>
  match job with
  | .visitNode ctx => visitNode handler source defined ctx w p n
  | .visitChildren ctx => visitChildren ctx w []
  | .visitClassBody _ => visitNothing w []
  | .memberFunctionDecl _ => visitNothing w []

/-- The visitor of a file, with the names that the file defines. -/
def visitorOf (handler : ℤ → Ctx → Path → Node → CStep) (source : Str) (root : Node) :
    Visitor Job Tables Emitted :=
  visitor handler source (collectDefinedNames kCDefNodes source kMaxVisitDepth root)

/-- The first call, of the children of the root. -/
def start : Job := .visitChildren ⟨none, [], 0⟩

/-- `CVisitor::visit`: the records of a file, in order. -/
def visit (handler : ℤ → Ctx → Path → Node → CStep) (source : Str) (root : Node) : List Emitted :=
  emit .variable [] [] none :: (Descent.run (visitorOf handler source root) start ⟨[], []⟩ [] root).2

end CodeScope.Visitor.CVisitor
