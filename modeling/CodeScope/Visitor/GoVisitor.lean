import CodeScope.Library.Frontier
import CodeScope.Visitor.JsVisitor

/-! # The Go visitor

`GoVisitor`, as far as it decides which nodes are visited and what is known of interfaces and methods
at the end of the file. The other records, and what they hang on, are left out. -/

namespace CodeScope.Visitor.GoVisitor

open Text (Str str)
open SyntaxTree (Node Path)
open Descent (Step Visitor)

/-- `interface_methods_`, `struct_methods_` and `interface_embeds_` as lists of entries, in the order
    they are made, and `current_interface_`. -/
structure Tables where
  interfaceMethods : List (Str × Str) := []
  structMethods : List (Str × Str) := []
  interfaceEmbeds : List (Str × Str) := []
  currentInterface : Str := []

/-- The vector under a key. -/
def valuesOf (entries : List (Str × Str)) (key : Str) : List Str :=
  (entries.filter fun e => e.1 = key).map Prod.snd

/-- The keys of the map, each of them once. -/
def keys (entries : List (Str × Str)) : List Str := (entries.map Prod.fst).dedup

/-! ## Going through the file -/

/-- What one call of the visitor is. The loops of `handleTypeDecl` and `handleVarDecl` over the parts
    of a declaration are calls of their own. -/
inductive Job where
  | visitNode (ctx : Ctx)
  | visitChildren (ctx : Ctx)
  | typeSpec (ctx : Ctx)
  | varSpec (ctx : Ctx)

abbrev GoStep := Step Job Tables Emitted

/-- The calls that the handlers of `JsVisitor` make. -/
inductive JsCall where
  | visitNode (ctx : Ctx)
  | visitChildren (ctx : Ctx)

def JsCall.job : JsCall → Job
  | visitNode ctx => .visitNode ctx
  | visitChildren ctx => .visitChildren ctx

/-- The handlers of JavaScript's own nodes, which know nothing of the tables. -/
abbrev JsHandler := ℤ → Ctx → Path → Node → ℕ → Node → Option JsCall

def visitChildren (ctx : Ctx) (w : Tables) : GoStep :=
  Visitor.visitChildren Job.visitNode ctx w []

/-- The calls for some children, which leave the tables as they are. -/
def goOn (w : Tables) (enter : ℕ → Node → Option Job) : GoStep where
  reports := []
  opened := w
  enter := enter
  closed := id

/-- `GoVisitor::extractName` -/
def extractName (source : Str) (n : Node) : Str :=
  match n.namedChildren.find? fun c => c.kind = str "identifier" ||
      c.kind = str "field_identifier" || c.kind = str "type_identifier" with
  | some c => c.text source
  | none => []

def handleInterfaceMethod (source : Str) (w : Tables) (n : Node) : GoStep :=
  let name := extractName source n
  if name.isEmpty || w.currentInterface.isEmpty then visitNothing w []
  else
    visitNothing
      { w with interfaceMethods := w.interfaceMethods ++ [(w.currentInterface, name)] } []

/-- The end of `handleFuncDecl`: the parameters and the block. -/
def handleFuncDecl (source : Str) (ctx : Ctx) (w : Tables) (n : Node) : GoStep :=
  if (extractName source n).isEmpty then visitChildren ctx w
  else
    goOn w fun _ c =>
      if c.named && (c.kind = str "parameter_list" || c.kind = str "block") then
        some (.visitChildren ctx)
      else none

/-- `ptype`, from one child of the receiver's declaration. -/
def typeText (source : Str) (g : Node) : Option Str :=
  if g.kind = str "pointer_type" then
    match (g.namedChildren.filter fun c => c.kind = str "type_identifier").getLast? with
    | some c => some (c.text source)
    | none => some (g.text source)
  else if g.kind = str "type_identifier" || g.kind = str "qualified_type" ||
      g.kind = str "slice_type" || g.kind = str "map_type" then some (g.text source)
  else none

/-- `ptype` of each declaration in the receiver of a method. -/
def receiverTypes (source : Str) (n : Node) : List Str :=
  match n.childByField (str "receiver") with
  | none => []
  | some recv =>
    recv.namedChildren.map fun pd => ((pd.namedChildren.filterMap (typeText source)).getLast?).getD []

def handleMethodDecl (source : Str) (ctx : Ctx) (w : Tables) (n : Node) : GoStep :=
  let name := extractName source n
  if name.isEmpty then visitChildren ctx w
  else
    { reports := []
      opened :=
        { w with
          structMethods := w.structMethods ++
            ((receiverTypes source n).filter fun ptype => !ptype.isEmpty).map
              fun ptype => (ptype, name) }
      enter := fun _ c =>
        if !c.named || c.kind = str "parameter_list" || c.kind = str "type_identifier" then none
        else some (.visitChildren ctx)
      closed := id }

def handleTypeDecl (ctx : Ctx) (w : Tables) : GoStep :=
  goOn w fun _ c => if c.named && c.kind = str "type_spec" then some (.typeSpec ctx) else none

/-- `is_interface`: the first child that is written as a struct or as an interface decides. -/
def isInterface (n : Node) : Bool :=
  match n.namedChildren.find? fun c => c.kind = str "struct_type" || c.kind = str "interface_type"
      with
  | some c => c.kind = str "interface_type"
  | none => false

/-- The names that are taken for embedded interfaces. -/
def embeddedNames (source : Str) (n : Node) : List Str :=
  ((n.namedChildren.filter fun c =>
      c.kind = str "type_identifier" || c.kind = str "embedded_interface").map
    fun c => c.text source).filter fun emb => !emb.isEmpty

/-- One round of the loop of `handleTypeDecl`. -/
def handleTypeSpec (source : Str) (ctx : Ctx) (w : Tables) (n : Node) : GoStep :=
  let name := extractName source n
  if name.isEmpty then visitNothing w []
  else if isInterface n then
    { reports := []
      opened :=
        { w with
          interfaceEmbeds := w.interfaceEmbeds ++ (embeddedNames source n).map fun emb => (name, emb)
          currentInterface := name }
      enter := fun _ c => if c.named then visitChild Job.visitNode ctx else none
      closed := fun w => { w with currentInterface := [] } }
  else visitChildren ctx w

def handleVarDecl (ctx : Ctx) (w : Tables) : GoStep :=
  goOn w fun _ c =>
    if c.named && (c.kind = str "var_spec" || c.kind = str "const_spec") then some (.varSpec ctx)
    else none

/-- One round of the loop of `handleVarDecl`: the value. -/
def handleVarSpec (ctx : Ctx) (w : Tables) (n : Node) : GoStep :=
  goOn w fun i _ =>
    if n.children.findIdx? (fun c => c.field = some (str "value")) = some i then
      visitChild Job.visitNode ctx
    else none

/-- The right-hand side. -/
def handleShortVar (ctx : Ctx) (w : Tables) (n : Node) : GoStep :=
  goOn w fun i _ =>
    if n.children.findIdx? (fun c => c.field = some (str "right")) = some i then
      some (.visitChildren ctx)
    else none

/-- `GoVisitor::visitNode`. `handleCall`, `handleRange` and `handleParameterDecl` end with all the
    children. -/
def visitNode (handler : JsHandler) (source : Str) (ctx : Ctx) (w : Tables) (p : Path) (n : Node) :
    GoStep :=
  if n.kind = str "method_elem" then handleInterfaceMethod source w n
  else if n.kind = str "function_declaration" then handleFuncDecl source ctx w n
  else if n.kind = str "method_declaration" then handleMethodDecl source ctx w n
  else if n.kind = str "type_declaration" then handleTypeDecl ctx w
  else if n.kind = str "call_expression" then visitChildren ctx w
  else if n.kind = str "import_declaration" then visitNothing w []
  else if n.kind = str "var_declaration" || n.kind = str "const_declaration" then handleVarDecl ctx w
  else if n.kind = str "short_var_declaration" then handleShortVar ctx w n
  else if n.kind = str "for_statement" || n.kind = str "parameter_declaration" then
    visitChildren ctx w
  else if n.kind = str "identifier" && n.text source = str "_" then visitNothing w []
  else
    JsVisitor.visitNode Job.visitNode
      (fun id => goOn w fun i c => (handler id ctx p n i c).map JsCall.job) source ctx w p n

/-- Each call of the visitor. -/
def visitor (handler : JsHandler) (source : Str) : Visitor Job Tables Emitted := fun job w p n =>
  match job with
  | .visitNode ctx => visitNode handler source ctx w p n
  | .visitChildren ctx => visitChildren ctx w
  | .typeSpec ctx => handleTypeSpec source ctx w n
  | .varSpec ctx => handleVarSpec ctx w n

/-- `visitChildren(root_node, 0)` -/
def firstCall : Job := .visitChildren ⟨none, [], 0⟩

/-- What is known when the whole file has been visited. -/
def collect (handler : JsHandler) (source : Str) (root : Node) : Tables :=
  (Descent.run (visitor handler source) firstCall {} [] root).1

/-! ## The end of the file -/

namespace Tables

variable (t : Tables)

/-- `expanded` and `expanded_set` as one list: a method is appended if it is new. -/
def addNew (methods : List Str) (m : Str) : List Str :=
  if methods.contains m then methods else methods ++ [m]

/-- `expanded` of an interface: its methods and those of the interfaces that the search comes to. -/
def expanded (iface : Str) : Option (List Str) :=
  let own := valuesOf t.interfaceMethods iface
  let embeds := fun name => valuesOf t.interfaceEmbeds name
  let again := !(embeds iface).isEmpty
  Frontier.rounds embeds (fun emb => !(valuesOf t.interfaceMethods emb).isEmpty)
    (fun methods emb => (valuesOf t.interfaceMethods emb).foldl addNew methods)
    (t.interfaceEmbeds.length + 1) (if again then [] else [iface]) own
    (if again then own ++ [iface] else own)

/-- The types that are recorded as implementing an interface, the types taken in a given order. -/
def implementers (types : List Str) (iface : Str) : Option (List Str) :=
  (t.expanded iface).map fun methods =>
    if methods.isEmpty then []
    else
      types.filter fun stype =>
        stype ≠ iface && methods.all fun m => (valuesOf t.structMethods stype).contains m

/-- The loop over the interfaces. -/
def implementations (types : List Str) : List Str → Option (List (Str × Str))
  | [] => some []
  | iface :: rest => do
    let found ← t.implementers types iface
    let others ← implementations types rest
    return found.map (fun stype => (stype, iface)) ++ others

end Tables

/-- The implementations that `GoVisitor::visit` records for a file, when the maps are gone through in
    the given orders; `none` if it does not come to an end. -/
def visit (handler : JsHandler) (source : Str) (interfaceOrder typeOrder : List Str → List Str)
    (root : Node) : Option (List (Str × Str)) :=
  let t := collect handler source root
  t.implementations (typeOrder (keys t.structMethods)) (interfaceOrder (keys t.interfaceMethods))

end CodeScope.Visitor.GoVisitor
