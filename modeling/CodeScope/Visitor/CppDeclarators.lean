import CodeScope.Visitor.CppGrammar

/-! # What C++ declarators declare

The meaning of a declarator, read inside out as the language does: what stands next to the name
decides whether a function is declared. It names the functions that a member of a class declares and
those that are defined out of their classes. -/

namespace CodeScope.Visitor.CppVisitor

open Text (Str str)
open SyntaxTree (Node Path)

mutual

/-- The parts of a name, the outermost scope first, without template arguments. -/
def segments (source : Str) : Node → List Str
  | .mk kind named field start stop children =>
    if CVisitor.isNamePart kind then [(Node.mk kind named field start stop children).text source]
    else if kind = str "qualified_identifier" then
      segmentsIn source (str "scope") children ++ segmentsIn source (str "name") children
    else if kind = str "template_type" || kind = str "template_function" ||
        kind = str "template_method" then
      segmentsIn source (str "name") children
    else if kind = str "nested_namespace_specifier" || kind = str "dependent_name" then
      segmentsOfAll source children
    else []

def segmentsIn (source field : Str) : List Node → List Str
  | [] => []
  | c :: rest =>
    if c.named && c.field = some field then segments source c else segmentsIn source field rest

def segmentsOfAll (source : Str) : List Node → List Str
  | [] => []
  | c :: rest => if c.named then segments source c ++ segmentsOfAll source rest
    else segmentsOfAll source rest

end

/-- The parameters in a list; `(void)` is none. -/
def parameterCount (source : Str) (list : Node) : ℕ :=
  let parameters := list.namedChildren.filter fun c => c.kind = str "parameter_declaration" ||
    c.kind = str "optional_parameter_declaration" || c.kind = str "variadic_parameter_declaration"
  if parameters.map (Node.text source) = [str "void"] then 0 else parameters.length

/-- What a declarator declares: a name and, of a function, the number of its parameters. -/
structure Declared where
  names : List Str
  parameters : Option ℕ

mutual

/-- What is declared within declarators that stand next to the name with `parameters`. A conversion
    is called what it is spelled. -/
def declared (source : Str) (parameters : Option ℕ) : Node → Option Declared
  | .mk kind named field start stop children =>
    let n := Node.mk kind named field start stop children
    if kind = str "function_declarator" then
      declaredIn source (some (match n.namedByField (str "parameters") with
        | some list => parameterCount source list
        | none => 0)) children
    else if kind = str "pointer_declarator" || kind = str "array_declarator" then
      declaredIn source none children
    else if kind = str "init_declarator" then declaredIn source parameters children
    else if kind = str "reference_declarator" then declaredInside source none children
    else if kind = str "parenthesized_declarator" || kind = str "attributed_declarator" then
      declaredInside source parameters children
    else if kind = str "operator_cast" then some ⟨[n.text source], some 0⟩
    else
      match segments source n with
      | [] => none
      | names => some ⟨names, parameters⟩

/-- In the field `declarator`. -/
def declaredIn (source : Str) (parameters : Option ℕ) : List Node → Option Declared
  | [] => none
  | c :: rest =>
    if c.named && c.field = some (str "declarator") then declared source parameters c
    else declaredIn source parameters rest

/-- In the first child that declares anything. -/
def declaredInside (source : Str) (parameters : Option ℕ) : List Node → Option Declared
  | [] => none
  | c :: rest =>
    match if c.named then declared source parameters c else none with
    | some d => some d
    | none => declaredInside source parameters rest

end

/-- The declarators of a declaration or a definition. -/
def declaratorsOf (item : Node) : List Node :=
  item.namedChildren.filter fun c => c.field = some (str "declarator")

/-- The functions that a declaration or a definition declares, with their numbers of parameters. -/
def functionsOf (source : Str) (item : Node) : List (Str × ℕ) :=
  (declaratorsOf item).filterMap fun d => do
    let found ← declared source none d
    let parameters ← found.parameters
    let name ← found.names.getLast?
    some (name, parameters)

/-! ## Functions that are defined out of their classes -/

def isScope (kind : Str) : Bool := kind = str "namespace_definition" || isSpecifier kind

/-- The name of a namespace or a class. -/
def scopeNames (source : Str) (n : Node) : List Str :=
  ((n.namedByField (str "name")).map (segments source)).getD []

/-- The namespaces and classes around the end of a path, the outermost first. -/
def scopesAbove (source : Str) (n : Node) : Path → List Str
  | [] => []
  | i :: r =>
    (if isScope n.kind then scopeNames source n else []) ++
      match n.children[i]? with
      | none => []
      | some c => scopesAbove source c r

mutual

/-- The full names of the functions that are defined with a qualified name, with their numbers of
    parameters. -/
def outsideDefinitions (source : Str) (scopes : List Str) : Node → List (List Str × ℕ)
  | .mk kind named field start stop children =>
    let n := Node.mk kind named field start stop children
    (if kind = str "function_definition" then
      (declaratorsOf n).filterMap fun d => do
        let found ← declared source none d
        let parameters ← found.parameters
        if 2 ≤ found.names.length then some (scopes ++ found.names, parameters) else none
    else []) ++
      outsideDefinitionsIn source
        (if isScope kind then scopes ++ scopeNames source n else scopes) children

def outsideDefinitionsIn (source : Str) (scopes : List Str) : List Node → List (List Str × ℕ)
  | [] => []
  | c :: rest => outsideDefinitions source scopes c ++ outsideDefinitionsIn source scopes rest

end

/-- The file defines the member `name` of the class around `m`, with so many parameters, out of the
    class. -/
def definedOutside (source : Str) (root : Node) (m : Path) (name : Str) (parameters : ℕ) : Bool :=
  (outsideDefinitions source [] root).contains (scopesAbove source root m ++ [name], parameters)

/-- The member functions that should have a record: of a mere declaration, those that the file does
    not define out of the class. -/
def expectedNames (source : Str) (root : Node) (m : Path) (item : Node) : List Str :=
  (functionsOf source item).filterMap fun f =>
    if item.kind ≠ str "function_definition" && definedOutside source root m f.1 f.2 then none
    else some f.1

end CodeScope.Visitor.CppVisitor
