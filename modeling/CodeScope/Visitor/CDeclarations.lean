import CodeScope.Visitor.CVisitor

/-! # The declarations of a C file

What a tree of the C grammar declares is written in its declarators, of which the innermost is a
name. The C visitor reads the name of a function there unless an attribute hides it; that of a type
it does not read, and a specifier it takes for a declaration whether it has a body or not. It passes
over what a definition has beside its `function_declarator` and its body (`skipped`). -/

namespace CodeScope.Visitor.CVisitor

open Text (Str str Spelt str_eq)
open SyntaxTree (Node Path inner innerAs token)
open Descent (arrive)
open Store (RecordKind)

/-! ## The kinds of the grammar -/

/-- The named kinds with the pattern of an identifier, a literal or a comment. -/
def leafKinds : List Str :=
  [str "comment", str "concatenated_string", str "false", str "field_identifier", str "identifier",
    str "null", str "number_literal", str "statement_identifier", str "string_content",
    str "string_literal", str "system_lib_string", str "true", str "type_identifier"]

/-- The named kinds that the visitor has handlers for. -/
def handledKinds : List Str :=
  [str "function_definition", str "declaration", str "struct_specifier", str "union_specifier",
    str "enum_specifier", str "call_expression", str "preproc_include", str "type_definition",
    str "preproc_def", str "preproc_function_def"]

/-- The other named kinds. -/
def otherKinds : List Str :=
  [str "abstract_array_declarator", str "abstract_function_declarator",
    str "abstract_parenthesized_declarator", str "abstract_pointer_declarator",
    str "alignas_qualifier", str "alignof_expression", str "argument_list", str "array_declarator",
    str "assignment_expression", str "attribute", str "attribute_declaration",
    str "attribute_specifier", str "attributed_declarator", str "attributed_statement",
    str "binary_expression", str "bitfield_clause", str "break_statement", str "case_statement",
    str "cast_expression", str "char_literal", str "character", str "comma_expression",
    str "compound_literal_expression", str "compound_statement", str "conditional_expression",
    str "continue_statement", str "declaration_list", str "do_statement", str "else_clause",
    str "enumerator", str "enumerator_list", str "escape_sequence", str "expression_statement",
    str "extension_expression", str "field_declaration", str "field_declaration_list",
    str "field_designator", str "field_expression", str "for_statement",
    str "function_declarator", str "generic_expression", str "gnu_asm_clobber_list",
    str "gnu_asm_expression", str "gnu_asm_goto_list", str "gnu_asm_input_operand",
    str "gnu_asm_input_operand_list", str "gnu_asm_output_operand",
    str "gnu_asm_output_operand_list", str "gnu_asm_qualifier", str "goto_statement",
    str "if_statement", str "init_declarator", str "initializer_list", str "initializer_pair",
    str "labeled_statement", str "linkage_specification", str "macro_type_specifier",
    str "ms_based_modifier", str "ms_call_modifier", str "ms_declspec_modifier",
    str "ms_pointer_modifier", str "ms_restrict_modifier", str "ms_signed_ptr_modifier",
    str "ms_unaligned_ptr_modifier", str "ms_unsigned_ptr_modifier", str "offsetof_expression",
    str "parameter_declaration", str "parameter_list", str "parenthesized_declarator",
    str "parenthesized_expression", str "pointer_declarator", str "pointer_expression",
    str "preproc_arg", str "preproc_call", str "preproc_defined", str "preproc_directive",
    str "preproc_elif", str "preproc_elifdef", str "preproc_else", str "preproc_if",
    str "preproc_ifdef", str "preproc_params", str "primitive_type", str "return_statement",
    str "seh_except_clause", str "seh_finally_clause", str "seh_leave_statement",
    str "seh_try_statement", str "sized_type_specifier", str "sizeof_expression",
    str "storage_class_specifier", str "subscript_designator",
    str "subscript_expression", str "subscript_range_designator", str "switch_statement",
    str "translation_unit", str "type_descriptor", str "type_qualifier", str "unary_expression",
    str "update_expression", str "variadic_parameter", str "while_statement"]

def spelledLeafKinds : Spelt leafKinds := by
  apply Subtype.mk
  repeat
    apply congrArg₂ List.cons
    · exact str_eq rfl
  rfl

def spelledOtherKinds : Spelt otherKinds := by
  apply Subtype.mk
  repeat
    apply congrArg₂ List.cons
    · exact str_eq rfl
  rfl

theorem leafKinds_leaf : ∀ k ∈ leafKinds, isLeafKind k = true := by
  unfold isLeafKind
  rw [spelledLeafKinds.2, spelledPatterns.2]
  decide +kernel

theorem otherKinds_pass : ∀ k ∈ otherKinds, passesThrough k = true := by
  unfold passesThrough
  rw [spelledOtherKinds.2, spelledPatterns.2]
  decide +kernel

/-- The kinds of records that the declarations give. -/
def declarationKinds : List RecordKind := [.function, .class, .enum, .typeAlias]

def isStructOrUnion (kind : Str) : Bool :=
  kind = str "struct_specifier" || kind = str "union_specifier"

/-- The kinds of nodes that declare a function or a type. -/
def isDeclaring (kind : Str) : Bool :=
  kind = str "function_definition" || isStructOrUnion kind || kind = str "enum_specifier" ||
    kind = str "type_definition"

/-- The kinds of nodes below which nothing is declared. -/
def isClosedKind (kind : Str) : Bool :=
  leafKinds.contains kind || kind = str "preproc_include" || kind = str "preproc_def" ||
    kind = str "preproc_function_def"

/-! ## Declarators -/

/-- The names that a declarator can end with, those of types among them. -/
def isNameLeaf (kind : Str) : Bool :=
  kind = str "identifier" || kind = str "field_identifier" || kind = str "type_identifier" ||
    kind = str "primitive_type"

/-- The declarators that hold the next one in the field `declarator`. -/
def isOuterDeclarator (kind : Str) : Bool :=
  kind = str "function_declarator" || kind = str "pointer_declarator" ||
    kind = str "array_declarator"

/-- The declarators that hold the next one without a field. -/
def isBracketDeclarator (kind : Str) : Bool :=
  kind = str "parenthesized_declarator" || kind = str "attributed_declarator"

def isDeclarator (kind : Str) : Bool :=
  isNameLeaf kind || isOuterDeclarator kind || isBracketDeclarator kind

mutual

/-- The innermost declarator, which is the name. -/
def declaredNode : Node → Option Node
  | .mk kind named field start stop children =>
    if isNameLeaf kind then some (.mk kind named field start stop children)
    else if isBracketDeclarator kind then declaredInside children
    else declaredInField children

def declaredInField : List Node → Option Node
  | [] => none
  | c :: rest => if c.field = some (str "declarator") then declaredNode c else declaredInField rest

def declaredInside : List Node → Option Node
  | [] => none
  | c :: rest => if isDeclarator c.kind then declaredNode c else declaredInside rest

end

mutual

/-- Around the name, brackets or attributes stand directly around a declarator with attributes. -/
def hidesName : Node → Bool
  | .mk kind _ _ _ _ children =>
    if isNameLeaf kind then false
    else if isBracketDeclarator kind then hidesInside children
    else hidesInField children

def hidesInField : List Node → Bool
  | [] => false
  | c :: rest => if c.field = some (str "declarator") then hidesName c else hidesInField rest

def hidesInside : List Node → Bool
  | [] => false
  | c :: rest =>
    if isDeclarator c.kind then c.kind = str "attributed_declarator" || hidesName c
    else hidesInside rest

end

/-- The declarators of a definition. -/
def declaratorsOf (n : Node) : List Node :=
  n.children.filter fun c => c.field = some (str "declarator")

/-- The name of a specifier, if it has one. -/
def nameOfSpecifier (source : Str) (n : Node) : Str :=
  ((n.namedByField (str "name")).map (Node.text source)).getD []

def hasBody (n : Node) : Bool := (n.namedByField (str "body")).isSome

/-- What the C grammar says of a node. -/
structure CNode (source : Str) (n : Node) : Prop where
  kind : n.named = true →
    (leafKinds.contains n.kind || handledKinds.contains n.kind || otherKinds.contains n.kind) = true
  token : n.named = false → n.children = [] ∧ isDeclaring n.kind = false
  leaf : isNameLeaf n.kind = true → n.children = [] ∧ n.text source ≠ []
  closed : isClosedKind n.kind = true → (n.all fun m => !isDeclaring m.kind) = true
  outer : ∀ c ∈ n.children, isOuterDeclarator n.kind = true ∨ isDeclaring n.kind = true →
    c.field = some (str "declarator") → isDeclarator c.kind = true
  bracket : isBracketDeclarator n.kind = true →
    (n.children.filter fun c => isDeclarator c.kind).length = 1 ∧
    ∀ c ∈ n.children, c.field ≠ some (str "declarator") ∧
      (c.named = true → isDeclaredNameNode c.kind = true ∨ isNameWrapper c.kind = true →
        isDeclarator c.kind = true) ∧
      (isDeclarator c.kind = true → c.named = true)
  function : n.kind = str "function_definition" →
    ∃ m ∈ declaredNode n, m.kind = str "identifier" ∧ m.text source ≠ []
  specifier : isStructOrUnion n.kind = true → ∀ c ∈ n.namedChildren,
    c.kind = str "type_identifier" ∨ c.kind = str "identifier" ↔ c.field = some (str "name")
  enum : n.kind = str "enum_specifier" → ∀ c ∈ n.children, c.field ≠ some (str "declarator") ∧
    (c.named = true → isDeclaredNameNode c.kind = false ∧ isNameWrapper c.kind = false)
  name : isStructOrUnion n.kind = true ∨ n.kind = str "enum_specifier" →
    ∀ c ∈ n.namedByField (str "name"), c.text source ≠ []
  typedef : n.kind = str "type_definition" → declaratorsOf n ≠ [] ∧ ∀ d ∈ declaratorsOf n,
    ∃ m ∈ declaredNode d, isDeclaredNameNode m.kind = false

instance (o : Option Node) (P : Node → Prop) [DecidablePred P] : Decidable (∃ m ∈ o, P m) :=
  match o with
  | none => isFalse (by simp)
  | some m => decidable_of_iff (P m) (by simp)

theorem grammarKind_spelled (kind : Str) :
    (leafKinds.contains kind || handledKinds.contains kind || otherKinds.contains kind) =
      (spelledLeafKinds.1.contains kind || handledKinds.contains kind ||
        spelledOtherKinds.1.contains kind) := by
  rw [← spelledLeafKinds.2, ← spelledOtherKinds.2]

set_option synthInstance.maxSize 400 in
instance (source : Str) (n : Node) : Decidable (CNode source n) :=
  decidable_of_iff ((n.named = true → (spelledLeafKinds.1.contains n.kind ||
        handledKinds.contains n.kind || spelledOtherKinds.1.contains n.kind) = true) ∧
      (n.named = false → n.children.isEmpty = true ∧ isDeclaring n.kind = false) ∧
      (isNameLeaf n.kind = true → n.children.isEmpty = true ∧ n.text source ≠ []) ∧
      (isClosedKind n.kind = true → (n.all fun m => !isDeclaring m.kind) = true) ∧
      (∀ c ∈ n.children, isOuterDeclarator n.kind = true ∨ isDeclaring n.kind = true →
        c.field = some (str "declarator") → isDeclarator c.kind = true) ∧
      (isBracketDeclarator n.kind = true →
        (n.children.filter fun c => isDeclarator c.kind).length = 1 ∧
        ∀ c ∈ n.children, c.field ≠ some (str "declarator") ∧
          (c.named = true → isDeclaredNameNode c.kind = true ∨ isNameWrapper c.kind = true →
            isDeclarator c.kind = true) ∧
          (isDeclarator c.kind = true → c.named = true)) ∧
      (n.kind = str "function_definition" →
        ∃ m ∈ declaredNode n, m.kind = str "identifier" ∧ m.text source ≠ []) ∧
      (isStructOrUnion n.kind = true → ∀ c ∈ n.namedChildren,
        c.kind = str "type_identifier" ∨ c.kind = str "identifier" ↔
          c.field = some (str "name")) ∧
      (n.kind = str "enum_specifier" → ∀ c ∈ n.children, c.field ≠ some (str "declarator") ∧
        (c.named = true → isDeclaredNameNode c.kind = false ∧ isNameWrapper c.kind = false)) ∧
      (isStructOrUnion n.kind = true ∨ n.kind = str "enum_specifier" →
        ∀ c ∈ n.namedByField (str "name"), c.text source ≠ []) ∧
      (n.kind = str "type_definition" → (declaratorsOf n).isEmpty = false ∧
        ∀ d ∈ declaratorsOf n, ∃ m ∈ declaredNode d, isDeclaredNameNode m.kind = false))
    ⟨fun ⟨h₁, h₂, h₃, h₄, h₅, h₆, h₇, h₈, h₉, h₁₀, h₁₁⟩ =>
        ⟨fun h => (grammarKind_spelled _).trans (h₁ h),
          fun h => ⟨List.isEmpty_iff.mp (h₂ h).1, (h₂ h).2⟩,
          fun h => ⟨List.isEmpty_iff.mp (h₃ h).1, (h₃ h).2⟩, h₄, h₅, h₆, h₇, h₈, h₉, h₁₀,
          fun h => ⟨List.isEmpty_eq_false_iff.mp (h₁₁ h).1, (h₁₁ h).2⟩⟩,
      fun ⟨h₁, h₂, h₃, h₄, h₅, h₆, h₇, h₈, h₉, h₁₀, h₁₁⟩ =>
        ⟨fun h => (grammarKind_spelled _).symm.trans (h₁ h),
          fun h => ⟨List.isEmpty_iff.mpr (h₂ h).1, (h₂ h).2⟩,
          fun h => ⟨List.isEmpty_iff.mpr (h₃ h).1, (h₃ h).2⟩, h₄, h₅, h₆, h₇, h₈, h₉, h₁₀,
          fun h => ⟨List.isEmpty_eq_false_iff.mpr (h₁₁ h).1, (h₁₁ h).2⟩⟩⟩

/-- The root of the tree of a file. -/
structure CFile (source : Str) (root : Node) : Prop where
  nodes : root.Everywhere (CNode source)
  kind : root.kind = str "translation_unit"
  named : root.named = true
  shallow : root.height ≤ kMaxVisitDepth

/-! ## What should be recorded -/

/-- The names that a node declares, as records of a kind. -/
def declares (source : Str) (kind : RecordKind) (n : Node) : List Str :=
  match kind with
  | .function =>
    if n.kind = str "function_definition" then ((declaredNode n).map (Node.text source)).toList
    else []
  | .class => if isStructOrUnion n.kind && hasBody n then [nameOfSpecifier source n] else []
  | .enum =>
    if n.kind = str "enum_specifier" && hasBody n then [nameOfSpecifier source n] else []
  | .typeAlias =>
    if n.kind = str "type_definition" then
      ((declaratorsOf n).filterMap declaredNode).map (Node.text source)
    else []
  | _ => []

/-- The names of the records of a kind for the node at a path. -/
def namesAt (records : List Emitted) (kind : RecordKind) (r : Path) : List Str :=
  (records.filter fun e => decide (e.kind = kind) && decide (e.node = r)).map (·.name)

/-- Every node has the records of the names that it declares, and no others. -/
def RecordsExact (records : List Emitted) (source : Str) (root : Node) : Prop :=
  ∀ kind ∈ declarationKinds, ∀ r,
    namesAt records kind r = ((root.find r).map (declares source kind)).getD []

/-- The path leads through a part of a definition that is neither its `function_declarator` nor its
    body, where the name of the function is read. -/
def skipped : Node → Path → Bool
  | _, [] => false
  | n, i :: r =>
    match n.children[i]? with
    | none => false
    | some c =>
      (decide (n.kind = str "function_definition") && !hidesName n &&
        c.kind ≠ str "function_declarator" && c.kind ≠ str "compound_statement") || skipped c r

/-- No attribute hides the name of a function that is visited; of structs and unions, those with a
    body are visited and no others; of enums, those that are visited have a body and no name, and
    no other has a body; there is no type definition. -/
structure RecordedWhen (root : Node) (r : Path) (n : Node) : Prop where
  function : n.kind = str "function_definition" → skipped root r = false ∧ hidesName n = false
  specifier : isStructOrUnion n.kind = true → (hasBody n = true ↔ skipped root r = false)
  enum : n.kind = str "enum_specifier" → (hasBody n = true ↔ skipped root r = false) ∧
    (hasBody n = true → n.namedByField (str "name") = none)
  typedef : n.kind ≠ str "type_definition"

/-! ## The names that are read -/

section Names

variable {source : Str}

/-- The child in which the next declarator stands. -/
def nextDeclarator (n : Node) : Option Node :=
  if isBracketDeclarator n.kind then n.children.find? fun c => isDeclarator c.kind
  else n.childByField (str "declarator")

variable {n : Node}

theorem nextDeclarator_mem {c : Node} (h : nextDeclarator n = some c) : c ∈ n.children := by
  unfold nextDeclarator at h
  split at h
  · exact List.mem_of_find?_eq_some h
  · exact List.mem_of_find?_eq_some h

theorem declaredNode_eq (n : Node) : declaredNode n =
    if isNameLeaf n.kind then some n else (nextDeclarator n).bind declaredNode := by
  have hfield : ∀ cs, declaredInField cs =
      (cs.find? fun c => decide (c.field = some (str "declarator"))).bind declaredNode := by
    intro cs
    induction cs with
    | nil => rfl
    | cons c cs ih =>
        by_cases hc : c.field = some (str "declarator") <;> simp [declaredInField, hc, ih]
  have hinside : ∀ cs, declaredInside cs =
      (cs.find? fun c => isDeclarator c.kind).bind declaredNode := by
    intro cs
    induction cs with
    | nil => rfl
    | cons c cs ih =>
        by_cases hc : isDeclarator c.kind = true <;> simp [declaredInside, hc, ih]
  cases n with
  | mk kind named field start stop children =>
      rw [declaredNode, hfield, hinside, nextDeclarator]
      show _ = if isNameLeaf kind then _ else _
      split
      · rfl
      · show _ = (if isBracketDeclarator kind then _ else _ : Option Node).bind _
        split <;> rfl

theorem hidesName_eq (n : Node) : hidesName n =
    if isNameLeaf n.kind then false
    else (nextDeclarator n).any fun c =>
      (isBracketDeclarator n.kind && c.kind = str "attributed_declarator") || hidesName c := by
  have hfield : ∀ cs, hidesInField cs =
      (cs.find? fun c => decide (c.field = some (str "declarator"))).any hidesName := by
    intro cs
    induction cs with
    | nil => rfl
    | cons c cs ih =>
        by_cases hc : c.field = some (str "declarator") <;> simp [hidesInField, hc, ih]
  have hinside : ∀ cs, hidesInside cs = (cs.find? fun c => isDeclarator c.kind).any fun c =>
      c.kind = str "attributed_declarator" || hidesName c := by
    intro cs
    induction cs with
    | nil => rfl
    | cons c cs ih =>
        by_cases hc : isDeclarator c.kind = true <;> simp [hidesInside, hc, ih]
  cases n with
  | mk kind named field start stop children =>
      rw [hidesName, hfield, hinside, nextDeclarator]
      show _ = if isNameLeaf kind then _ else Option.any (fun c => (isBracketDeclarator kind && _) || _)
        (if isBracketDeclarator kind then _ else _)
      by_cases hbracket : isBracketDeclarator kind = true
      · simp [hbracket, Node.children]
      · simp [hbracket, Node.childByField, Node.children]

/-- The name, if the declarator is one, else the name in it. -/
def nameOfDeclarator (source : Str) (c : Node) : Str :=
  if isDeclaredNameNode c.kind then c.text source else extractName source c

theorem extractName_eq (source : Str) (n : Node) : extractName source n =
    match n.childByField (str "declarator") with
    | some c => nameOfDeclarator source c
    | none => ((n.namedChildren.find? fun c => isDeclaredNameNode c.kind || isNameWrapper c.kind).map
        (nameOfDeclarator source)).getD [] := by
  have hfield : ∀ cs, nameInDeclarator source cs =
      (cs.find? fun c => decide (c.field = some (str "declarator"))).map (nameOfDeclarator source) := by
    intro cs
    induction cs with
    | nil => rfl
    | cons c cs ih =>
        by_cases hc : c.field = some (str "declarator")
        · simp [nameInDeclarator, hc, nameOfDeclarator]
        · simp [nameInDeclarator, hc, ih]
  have hchildren : ∀ cs, nameInChildren source cs = (((cs.filter Node.named).find? fun c =>
      isDeclaredNameNode c.kind || isNameWrapper c.kind).map (nameOfDeclarator source)).getD [] := by
    intro cs
    induction cs with
    | nil => rfl
    | cons c cs ih =>
        by_cases hnamed : c.named = true
        · by_cases hname : isDeclaredNameNode c.kind = true
          · simp [nameInChildren, hnamed, hname, nameOfDeclarator]
          · by_cases hwrapper : isNameWrapper c.kind = true
            · simp [nameInChildren, hnamed, hname, hwrapper, nameOfDeclarator]
            · simp [nameInChildren, hnamed, hname, hwrapper, ih]
        · simp [nameInChildren, hnamed, ih]
  cases n with
  | mk kind named field start stop children =>
      have hby : (Node.mk kind named field start stop children).childByField (str "declarator") =
          children.find? fun c => decide (c.field = some (str "declarator")) := rfl
      rw [extractName, hfield, hchildren, hby]
      cases children.find? fun c => decide (c.field = some (str "declarator")) with
      | none => rfl
      | some c => rfl

theorem isNameLeaf_of_declared {kind : Str} (h : isDeclarator kind = true)
    (hname : isDeclaredNameNode kind = true) : isNameLeaf kind = true := by
  simp only [isDeclaredNameNode, Bool.or_eq_true, decide_eq_true_eq] at hname
  rcases hname with ((rfl | rfl) | rfl) | rfl
  · decide
  · decide
  · exact absurd h (by decide)
  · exact absurd h (by decide)

theorem isNameLeaf_of_unread {kind : Str} (h : isDeclarator kind = true)
    (hattributed : kind ≠ str "attributed_declarator")
    (hread : (isDeclaredNameNode kind || isNameWrapper kind) = false) : isNameLeaf kind = true := by
  simp only [isDeclarator, Bool.or_eq_true] at h
  rcases h with (hleaf | houter) | hbracket
  · exact hleaf
  · simp only [isOuterDeclarator, Bool.or_eq_true, decide_eq_true_eq] at houter
    rcases houter with (rfl | rfl) | rfl <;> exact absurd hread (by decide)
  · simp only [isBracketDeclarator, Bool.or_eq_true, decide_eq_true_eq] at hbracket
    rcases hbracket with rfl | rfl
    · exact absurd hread (by decide)
    · exact absurd rfl hattributed

theorem nameOfDeclarator_leaf {c : Node} (h : CNode source c) (hleaf : isNameLeaf c.kind = true) :
    nameOfDeclarator source c = if isDeclaredNameNode c.kind then c.text source else [] := by
  unfold nameOfDeclarator
  split
  · rfl
  · rw [extractName_eq, Node.childByField, Node.namedChildren, (h.leaf hleaf).1]
    rfl

theorem extractName_of_field {c : Node} (hleaf : isNameLeaf n.kind = false)
    (hbracket : isBracketDeclarator n.kind = false) (hc : nextDeclarator n = some c) :
    extractName source n = nameOfDeclarator source c ∧ hidesName n = hidesName c ∧
      declaredNode n = declaredNode c := by
  have hfield : n.childByField (str "declarator") = some c := by
    rw [← hc, nextDeclarator, if_neg (by simp [hbracket])]
  refine ⟨?_, ?_, ?_⟩
  · rw [extractName_eq, hfield]
  · rw [hidesName_eq, if_neg (by simp [hleaf]), hc]
    simp [hbracket]
  · rw [declaredNode_eq, if_neg (by simp [hleaf]), hc]
    rfl

/-- Between brackets and beside attributes a declarator with attributes is not looked into. -/
theorem extractName_bracket {c : Node} (h : CNode source n)
    (hbracket : isBracketDeclarator n.kind = true) (hc : nextDeclarator n = some c) :
    extractName source n =
      if isDeclaredNameNode c.kind || isNameWrapper c.kind then nameOfDeclarator source c
      else [] := by
  have hmem := nextDeclarator_mem hc
  have hdeclarator : isDeclarator c.kind = true := by
    rw [nextDeclarator, if_pos hbracket] at hc
    exact List.find?_some (p := fun c : Node => isDeclarator c.kind) hc
  have hnone : n.childByField (str "declarator") = none := by
    rw [Node.childByField, List.find?_eq_none]
    exact fun d hd => by simpa using ((h.bracket hbracket).2 d hd).1
  have hnamed := ((h.bracket hbracket).2 c hmem).2.2 hdeclarator
  have hunique : ∀ d ∈ n.children, isDeclarator d.kind = true → d = c := by
    intro d hd hdkind
    obtain ⟨e, he⟩ := List.length_eq_one_iff.mp (h.bracket hbracket).1
    have hde : d ∈ [e] := he ▸ List.mem_filter.mpr ⟨hd, hdkind⟩
    have hce : c ∈ [e] := he ▸ List.mem_filter.mpr ⟨hmem, hdeclarator⟩
    rw [List.mem_singleton.mp hde, List.mem_singleton.mp hce]
  rw [extractName_eq, hnone]
  show ((n.namedChildren.find? _).map _).getD [] = _
  cases hfound : n.namedChildren.find? fun c =>
      isDeclaredNameNode c.kind || isNameWrapper c.kind with
  | none =>
      have hno := List.find?_eq_none.mp hfound c (List.mem_filter.mpr ⟨hmem, hnamed⟩)
      rw [if_neg hno]
      rfl
  | some d =>
      have hkind := List.find?_some hfound
      obtain ⟨hd, hdnamed⟩ := List.mem_filter.mp (List.mem_of_find?_eq_some hfound)
      obtain ⟨-, hread, -⟩ := (h.bracket hbracket).2 d hd
      obtain rfl := hunique d hd (hread hdnamed (by simpa using hkind))
      rw [if_pos hkind]
      rfl

theorem sizeOf_lt_of_mem {c : Node} (h : c ∈ n.children) : sizeOf c < sizeOf n := by
  cases n with
  | mk kind named field start stop children =>
      have hlt := List.sizeOf_lt_of_mem (show c ∈ children from h)
      rw [Node.mk.sizeOf_spec]
      omega

/-- **The name that is read off a declarator** is the innermost one, if nothing hides it and it is
    not the name of a type. -/
theorem nameOfDeclarator_eq {m : Node} (h : n.Everywhere (CNode source))
    (hdeclarator : isDeclarator n.kind = true) (hm : declaredNode n = some m) :
    nameOfDeclarator source n =
      if hidesName n || !isDeclaredNameNode m.kind then [] else m.text source := by
  induction hsize : sizeOf n using Nat.strong_induction_on generalizing n with
  | _ size ih =>
      subst hsize
      by_cases hleaf : isNameLeaf n.kind = true
      · rw [declaredNode_eq, if_pos hleaf] at hm
        obtain rfl := Option.some.inj hm
        rw [nameOfDeclarator_leaf h.self hleaf, hidesName_eq, if_pos hleaf]
        by_cases hname : isDeclaredNameNode n.kind = true <;> simp [hname]
      have hname : ¬ isDeclaredNameNode n.kind = true := fun hname =>
        hleaf (isNameLeaf_of_declared hdeclarator hname)
      rw [nameOfDeclarator, if_neg hname]
      rw [Bool.not_eq_true] at hleaf
      have hnext := hm
      rw [declaredNode_eq, if_neg (by simp [hleaf])] at hnext
      obtain ⟨c, hc, hcm⟩ := Option.bind_eq_some_iff.mp hnext
      have hmem := nextDeclarator_mem hc
      have hih := fun hcd => ih _ (sizeOf_lt_of_mem hmem) (h.of_mem hmem) hcd hcm rfl
      by_cases hbracket : isBracketDeclarator n.kind = true
      · have hcd : isDeclarator c.kind = true := by
          rw [nextDeclarator, if_pos hbracket] at hc
          exact List.find?_some (p := fun c : Node => isDeclarator c.kind) hc
        have hhides : hidesName n = (decide (c.kind = str "attributed_declarator") || hidesName c) := by
          rw [hidesName_eq, if_neg (by simp [hleaf]), hc]
          simp [hbracket]
        rw [extractName_bracket h.self hbracket hc, hhides, hih hcd]
        by_cases hattributed : c.kind = str "attributed_declarator"
        · have hskipped : (isDeclaredNameNode (str "attributed_declarator") ||
            isNameWrapper (str "attributed_declarator")) = false := by decide
          rw [hattributed, hskipped]
          simp
        · by_cases hread : (isDeclaredNameNode c.kind || isNameWrapper c.kind) = true
          · rw [if_pos hread, decide_eq_false hattributed, Bool.false_or]
          · -- what is left are the names of types
            have hclosed := isNameLeaf_of_unread hcd hattributed (by simpa using hread)
            rw [declaredNode_eq, if_pos hclosed] at hcm
            obtain rfl := Option.some.inj hcm
            rw [Bool.or_eq_true, not_or, Bool.not_eq_true] at hread
            rw [if_neg (by simp [hread]), hread.1]
            simp
      · rw [Bool.not_eq_true] at hbracket
        obtain ⟨hread, hhides, -⟩ := @extractName_of_field source _ _ hleaf hbracket hc
        have houter : isOuterDeclarator n.kind = true := by
          simpa [isDeclarator, hleaf, hbracket] using hdeclarator
        have hcd : isDeclarator c.kind = true := by
          rw [nextDeclarator, if_neg (by simp [hbracket]), Node.childByField] at hc
          exact h.self.outer c hmem (.inl houter) (by simpa using List.find?_some hc)
        rw [hread, hhides, hih hcd]

/-- The name of a function is read unless it is hidden. -/
theorem extractName_function (h : n.Everywhere (CNode source))
    (hkind : n.kind = str "function_definition") :
    ∃ m, declaredNode n = some m ∧ m.text source ≠ [] ∧
      extractName source n = if hidesName n then [] else m.text source := by
  obtain ⟨m, hm, hmkind, htext⟩ := h.self.function hkind
  have hleaf : isNameLeaf n.kind = false := by rw [hkind]; decide
  have hbracket : isBracketDeclarator n.kind = false := by rw [hkind]; decide
  refine ⟨m, hm, htext, ?_⟩
  have hnext := hm
  rw [declaredNode_eq, if_neg (by simp [hleaf])] at hnext
  obtain ⟨c, hc, hcm⟩ := Option.bind_eq_some_iff.mp hnext
  have hmem := nextDeclarator_mem hc
  have hcd : isDeclarator c.kind = true := by
    rw [nextDeclarator, if_neg (by simp [hbracket]), Node.childByField] at hc
    exact h.self.outer c hmem (.inr (by rw [hkind]; decide)) (by simpa using List.find?_some hc)
  obtain ⟨hread, hhides, -⟩ := @extractName_of_field source _ _ hleaf hbracket hc
  have hname : isDeclaredNameNode (str "identifier") = true := by decide
  rw [hread, hhides, nameOfDeclarator_eq (h.of_mem hmem) hcd hcm, hmkind, hname]
  simp

/-- The name of a type is not read from its definition. -/
theorem extractName_typedef (h : n.Everywhere (CNode source))
    (hkind : n.kind = str "type_definition") : extractName source n = [] := by
  obtain ⟨hne, hall⟩ := h.self.typedef hkind
  obtain ⟨d, ds, hds⟩ := List.exists_cons_of_ne_nil hne
  have hfield : n.childByField (str "declarator") = some d := by
    rw [Node.childByField, ← List.head?_filter]
    exact congrArg List.head? hds
  have hd : d ∈ declaratorsOf n := by rw [hds]; exact List.mem_cons_self
  obtain ⟨hmem, hdfield⟩ := List.mem_filter.mp hd
  obtain ⟨m, hm, hmkind⟩ := hall d hd
  have hdd : isDeclarator d.kind = true :=
    h.self.outer d hmem (.inr (by rw [hkind]; decide)) (by simpa using hdfield)
  rw [extractName_eq, hfield]
  show nameOfDeclarator source d = []
  rw [nameOfDeclarator_eq (h.of_mem hmem) hdd hm, hmkind]
  simp

theorem extractName_enum (h : CNode source n) (hkind : n.kind = str "enum_specifier") :
    extractName source n = [] := by
  have hnone : n.childByField (str "declarator") = none := by
    rw [Node.childByField, List.find?_eq_none]
    exact fun c hc => by simpa using (h.enum hkind c hc).1
  have hno : (n.namedChildren.find? fun c =>
      isDeclaredNameNode c.kind || isNameWrapper c.kind) = none := by
    rw [List.find?_eq_none]
    intro c hc
    obtain ⟨hmem, hnamed⟩ := List.mem_filter.mp hc
    obtain ⟨hname, hwrapper⟩ := (h.enum hkind c hmem).2 hnamed
    simp [hname, hwrapper]
  rw [extractName_eq, hnone, hno]
  rfl

theorem specifierName_eq (h : CNode source n) (hkind : isStructOrUnion n.kind = true) :
    specifierName source n = nameOfSpecifier source n := by
  have hsame : (n.namedChildren.find? fun c => decide (c.kind = str "type_identifier") ||
      decide (c.kind = str "identifier")) =
        n.namedChildren.find? fun c => decide (c.field = some (str "name")) := by
    refine List.find?_congr fun c hc => ?_
    have hiff := h.specifier hkind c hc
    rw [Bool.eq_iff_iff]
    simpa using hiff
  rw [specifierName, nameOfSpecifier, Node.namedByField, hsame]
  cases n.namedChildren.find? fun c => decide (c.field = some (str "name")) <;> rfl

end Names

/-! ## One call of the visitor -/

section Steps

/-- The calls that are made at a node: the children of a list are visited without a visit of the list
    itself. -/
def suits (n : Node) : Job → Prop
  | .visitNode _ => True
  | .visitChildren _ => n.kind = str "translation_unit" ∨ n.kind = str "function_declarator" ∨
      n.kind = str "compound_statement" ∨ n.kind = str "argument_list"
  | .visitClassBody _ => False
  | .memberFunctionDecl _ => False

def depthOf : Job → ℕ
  | .visitNode ctx => ctx.visitDepth
  | .visitChildren ctx => ctx.visitDepth
  | .visitClassBody ctx => ctx.visitDepth
  | .memberFunctionDecl ctx => ctx.visitDepth

theorem visitNode_of_suits {n : Node} {job : Job} (h : suits n job)
    (hn : isDeclaring n.kind = true) : ∃ ctx, job = .visitNode ctx := by
  cases job with
  | visitNode ctx => exact ⟨ctx, rfl⟩
  | visitChildren ctx => rcases h with h | h | h | h <;> rw [h] at hn <;> exact absurd hn (by decide)
  | visitClassBody ctx => exact h.elim
  | memberFunctionDecl ctx => exact h.elim

/-- A call goes to some of the named children, one level deeper at most. -/
structure GoesTo (next : Node → Bool) (depth : ℕ) (step : CStep) : Prop where
  named : ∀ i (c : Node), c.named = false → step.enter i c = none
  passed : ∀ i c, next c = false → step.enter i c = none
  enters : depth < kMaxVisitDepth → ∀ i c, c.named = true → next c = true →
    ∃ job, step.enter i c = some job ∧ suits c job ∧ depthOf job ≤ depth + 1

theorem goesTo_visitChildren (ctx : Ctx) (w : Tables) (records : List Emitted) :
    GoesTo Node.named ctx.visitDepth (visitChildren ctx w records) where
  named _ _ hc := if_neg (by simp [hc])
  passed _ _ hc := if_neg (by simp [hc])
  enters hdepth _ c hc _ := by
    refine ⟨.visitNode { ctx with visitDepth := ctx.visitDepth + 1 }, ?_, trivial, le_rfl⟩
    show (if c.named = true then _ else _) = _
    rw [if_pos hc, visitChild_of_lt hdepth]

theorem goesTo_visitNothing (depth : ℕ) (w : Tables) (records : List Emitted) :
    GoesTo (fun _ => false) depth (visitNothing w records : CStep) where
  named _ _ _ := rfl
  passed _ _ _ := rfl
  enters _ _ _ _ hc := absurd hc (by simp)

theorem goesTo_visitArguments (ctx : Ctx) (w : Tables) (records : List Emitted) :
    GoesTo (fun c => c.named && c.kind ≠ str "identifier") ctx.visitDepth
      (visitArguments ctx w records) where
  named _ _ hc := if_pos (by simp [hc])
  passed _ c hc := if_pos (by
    by_cases hnamed : c.named = true
    · simpa [hnamed] using hc
    · simp [hnamed])
  enters hdepth _ c hc hnext := by
    have hkind : c.kind ≠ str "identifier" := by simpa [hc] using hnext
    by_cases hlist : c.kind = str "argument_list"
    · refine ⟨.visitChildren ctx, ?_, Or.inr (Or.inr (Or.inr hlist)), Nat.le_succ _⟩
      show (if _ then none else if _ then _ else _) = _
      rw [if_neg (by simp [hc, hkind]), if_pos hlist]
    · refine ⟨.visitNode { ctx with visitDepth := ctx.visitDepth + 1 }, ?_, trivial, le_rfl⟩
      show (if _ then none else if _ then _ else _) = _
      rw [if_neg (by simp [hc, hkind]), if_neg hlist, visitChild_of_lt hdepth]

theorem goesTo_visitBody (ctx : Ctx) (w : Tables) (records : List Emitted) :
    GoesTo (fun c => c.kind = str "function_declarator" || c.kind = str "compound_statement")
      ctx.visitDepth (visitBody ctx w records) where
  named _ _ hc := if_pos (by simp [hc])
  passed _ c hc := by
    show (if _ then none else if _ then _ else none) = none
    split
    · rfl
    · rw [if_neg (by simpa using hc)]
  enters _ _ c hc hnext := by
    refine ⟨.visitChildren ctx, ?_, ?_, Nat.le_succ _⟩
    · show (if _ then none else if _ then _ else none) = _
      rw [if_neg (by simp [hc]), if_pos hnext]
    · simp only [Bool.or_eq_true, decide_eq_true_eq] at hnext
      rcases hnext with h | h
      · exact Or.inr (Or.inl h)
      · exact Or.inr (Or.inr (Or.inl h))

variable {handler : ℤ → Ctx → Path → Node → CStep} {source : Str} {defined : List Str} {ctx : Ctx}
  {w : Tables} {p : Path} {n : Node}

theorem leafKinds_unhandled : ∀ k ∈ leafKinds, k ∉ handledKinds := by
  decide +kernel

theorem otherKinds_unhandled : ∀ k ∈ otherKinds, k ∉ handledKinds := by
  rw [spelledOtherKinds.2]
  decide +kernel

theorem not_declaration_of_shared : ∀ kind ∈ sharedKinds, kind ∉ declarationKinds := by decide

/-- The children that a call goes to, a definition's and a call expression's apart. -/
def goesTo (n c : Node) : Bool :=
  if n.kind = str "function_definition" && !hidesName n then
    c.kind = str "function_declarator" || c.kind = str "compound_statement"
  else c.named && !(n.kind = str "call_expression" && c.kind = str "identifier")

/-- The names of the records that are given for a node. -/
def given (source : Str) (kind : RecordKind) (n : Node) : List Str :=
  match kind with
  | .function =>
    if n.kind = str "function_definition" && !hidesName n then
      ((declaredNode n).map (Node.text source)).toList
    else []
  | .class => if isStructOrUnion n.kind then [nameOfSpecifier source n] else []
  | .enum => if n.kind = str "enum_specifier" then [[]] else []
  | _ => []

/-- What a call does at a node. -/
structure CallAt (source : Str) (n : Node) (p : Path) (depth : ℕ) (step : CStep) : Prop where
  goes : ∃ next, GoesTo next depth step ∧ (isClosedKind n.kind = false → next = goesTo n)
  place : ∀ e ∈ step.reports, e.kind ∈ declarationKinds → e.node = p
  names : ∀ kind ∈ declarationKinds, namesAt step.reports kind p = given source kind n

theorem namesAt_of_not_declaration {records : List Emitted}
    (h : ∀ e ∈ records, e.kind ∉ declarationKinds) {kind : RecordKind}
    (hkind : kind ∈ declarationKinds) (r : Path) : namesAt records kind r = [] := by
  rw [namesAt, List.map_eq_nil_iff, List.filter_eq_nil_iff]
  intro e he htest
  simp only [Bool.and_eq_true, decide_eq_true_eq] at htest
  exact h e he (htest.1 ▸ hkind)

theorem given_of_not_declaring (h : isDeclaring n.kind = false) (kind : RecordKind) :
    given source kind n = [] := by
  simp only [isDeclaring, Bool.or_eq_false_iff, decide_eq_false_iff_not] at h
  obtain ⟨⟨⟨hfunction, hspecifier⟩, henum⟩, -⟩ := h
  cases kind <;> simp [given, hfunction, hspecifier, henum]

variable {depth : ℕ}

theorem callAt_silent {step : CStep} (hgiven : ∀ kind, given source kind n = [])
    (hrecords : ∀ e ∈ step.reports, e.kind ∉ declarationKinds)
    (hgoes : ∃ next, GoesTo next depth step ∧ (isClosedKind n.kind = false → next = goesTo n)) :
    CallAt source n p depth step where
  goes := hgoes
  place e he hkind := absurd hkind (hrecords e he)
  names kind hkind := by rw [namesAt_of_not_declaration hrecords hkind, hgiven]

theorem callAt_plain {step : CStep} (hn : isDeclaring n.kind = false)
    (hrecords : ∀ e ∈ step.reports, e.kind ∉ declarationKinds)
    (hgoes : ∃ next, GoesTo next depth step ∧ (isClosedKind n.kind = false → next = goesTo n)) :
    CallAt source n p depth step :=
  callAt_silent (given_of_not_declaring hn) hrecords hgoes

theorem callAt_single {step : CStep} {e : Emitted} (hrecords : step.reports = [e])
    (hplace : e.node = p)
    (hgiven : ∀ kind, given source kind n = if e.kind = kind then [e.name] else [])
    (hgoes : ∃ next, GoesTo next depth step ∧ (isClosedKind n.kind = false → next = goesTo n)) :
    CallAt source n p depth step where
  goes := hgoes
  place e' he' _ := by
    rw [hrecords] at he'
    rw [List.mem_singleton.mp he', hplace]
  names kind _ := by
    rw [hrecords, hgiven, namesAt]
    by_cases hkind : e.kind = kind
    · simp [hkind, hplace]
    · simp [hkind]

theorem goesTo_ordinary (hfunction : n.kind = str "function_definition" → hidesName n = true)
    (hcall : n.kind ≠ str "call_expression") : goesTo n = Node.named := by
  funext c
  have htest : (decide (n.kind = str "function_definition") && !hidesName n) = false := by
    by_cases hkind : n.kind = str "function_definition"
    · simp [hfunction hkind]
    · simp [hkind]
  rw [goesTo, htest, decide_eq_false hcall]
  simp

theorem goes_visitChildren (ctx : Ctx) (w : Tables) (records : List Emitted)
    (hfunction : n.kind = str "function_definition" → hidesName n = true)
    (hcall : n.kind ≠ str "call_expression") :
    ∃ next, GoesTo next ctx.visitDepth (visitChildren ctx w records) ∧
      (isClosedKind n.kind = false → next = goesTo n) :=
  ⟨_, goesTo_visitChildren ctx w records, fun _ => (goesTo_ordinary hfunction hcall).symm⟩

theorem goes_visitNothing {records : List Emitted} (hclosed : isClosedKind n.kind = true) :
    ∃ next, GoesTo next depth (visitNothing w records : CStep) ∧
      (isClosedKind n.kind = false → next = goesTo n) :=
  ⟨_, goesTo_visitNothing depth w records, fun h => absurd (hclosed.symm.trans h) (by simp)⟩

theorem callAt_function (h : n.Everywhere (CNode source))
    (hkind : n.kind = str "function_definition") :
    CallAt source n p ctx.visitDepth (handleFuncDef source ctx w p n) := by
  obtain ⟨m, hm, htext, hname⟩ := extractName_function h hkind
  have hcall : n.kind ≠ str "call_expression" := Node.ne_of_kind hkind (by decide)
  have hother : isStructOrUnion (str "function_definition") = false := by decide
  have henum : str "function_definition" ≠ str "enum_specifier" := by decide
  cases hhides : hidesName n with
  | true =>
      rw [hhides, if_pos rfl] at hname
      have hstep : handleFuncDef source ctx w p n = visitChildren ctx w [] :=
        if_pos (by rw [hname]; rfl)
      rw [hstep]
      refine callAt_silent (fun kind => ?_) (by simp [visitChildren, Visitor.visitChildren])
        (goes_visitChildren _ _ _ (fun _ => hhides) hcall)
      cases kind <;> simp [given, hkind, hhides, hother, henum]
  | false =>
      rw [hhides, if_neg (by simp)] at hname
      have hstep : handleFuncDef source ctx w p n = visitBody (ctx.inFunction p)
          (recordParameterTypes source w n)
          [{ emit .function (m.text source) p ctx.parentId with
              qualifiedName :=
                if !(extractQualifiedName source n).isEmpty then extractQualifiedName source n
                else if w.currentClassName.isEmpty then []
                else w.currentClassName ++ str "::" ++ m.text source }] := by
        unfold handleFuncDef
        rw [hname]
        exact if_neg (by simpa [List.isEmpty_iff] using htext)
      rw [hstep]
      refine callAt_single rfl rfl (fun kind => ?_)
        ⟨_, goesTo_visitBody (ctx.inFunction p) _ _, fun _ => ?_⟩
      · cases kind <;> simp [given, hkind, hhides, hm, hother, henum, emit]
      · funext c
        rw [goesTo, if_pos (by simp [hkind, hhides])]

theorem callAt_struct (h : CNode source n) (hkind : isStructOrUnion n.kind = true) :
    CallAt source n p ctx.visitDepth (handleStruct source ctx w p n) := by
  have hne : n.kind ≠ str "function_definition" ∧ n.kind ≠ str "call_expression" ∧
      n.kind ≠ str "enum_specifier" := by
    refine ⟨?_, ?_, ?_⟩ <;> intro heq <;> rw [heq] at hkind <;> exact absurd hkind (by decide)
  obtain ⟨hfunction, hcall, henum⟩ := hne
  obtain ⟨next, hgoes, heq⟩ := goes_visitChildren (ctx.under p)
    (w.pushClassScope (specifierName source n)) [emit .class (specifierName source n) p ctx.parentId]
    (fun hf => absurd hf hfunction) hcall
  refine callAt_single (e := emit .class (specifierName source n) p ctx.parentId) rfl rfl
    (fun kind => ?_) ⟨next, ⟨hgoes.named, hgoes.passed, hgoes.enters⟩, heq⟩
  rw [specifierName_eq h hkind]
  cases kind <;> simp [given, hfunction, hkind, henum, emit]

theorem callAt_enum (h : CNode source n) (hkind : n.kind = str "enum_specifier") :
    CallAt source n p ctx.visitDepth (handleEnum source ctx w p n) := by
  have hfunction : str "enum_specifier" ≠ str "function_definition" := by decide
  have hstruct : isStructOrUnion (str "enum_specifier") = false := by decide
  refine callAt_single (e := emit .enum (extractName source n) p ctx.parentId) rfl rfl
    (fun kind => ?_) (goes_visitChildren (ctx.under p) _ _
      (fun hf => absurd (hkind.symm.trans hf) hfunction) (Node.ne_of_kind hkind (by decide)))
  rw [extractName_enum h hkind]
  cases kind <;> simp [given, hfunction, hkind, hstruct, emit]

theorem callAt_call (hkind : n.kind = str "call_expression") :
    CallAt source n p ctx.visitDepth (handleCall source defined ctx w p n) := by
  have hdeclares : isDeclaring n.kind = false := by rw [hkind]; decide
  have hnext : goesTo n = fun c => c.named && c.kind ≠ str "identifier" := by
    funext c
    have hfunction : str "call_expression" ≠ str "function_definition" := by decide
    simp [goesTo, hkind, hfunction]
  have hcall : ∀ e ∈ [callRecord source ctx w p n], e.kind ∉ declarationKinds := by
    intro e he
    have hrecord : (callRecord source ctx w p n).kind = .callExpr := by
      unfold callRecord
      simp only
      split <;> rfl
    rw [List.mem_singleton.mp he, hrecord]
    decide
  unfold handleCall
  split
  · refine callAt_plain hdeclares (by simp [visitArguments]) ⟨_, goesTo_visitArguments _ _ _, ?_⟩
    exact fun _ => hnext.symm
  · refine callAt_plain hdeclares hcall ⟨_, goesTo_visitArguments (ctx.under p) _ _, ?_⟩
    exact fun _ => hnext.symm

theorem callAt_typedef (h : n.Everywhere (CNode source)) (hkind : n.kind = str "type_definition") :
    CallAt source n p ctx.visitDepth (handleTypeDef source ctx w p n) := by
  have hfunction : str "type_definition" ≠ str "function_definition" := by decide
  have hstruct : isStructOrUnion (str "type_definition") = false := by decide
  have henum : str "type_definition" ≠ str "enum_specifier" := by decide
  have hstep : handleTypeDef source ctx w p n = visitChildren ctx w [] :=
    if_pos (by rw [extractName_typedef h hkind]; rfl)
  rw [hstep]
  refine callAt_silent (fun kind => ?_) (by simp [visitChildren, Visitor.visitChildren])
    (goes_visitChildren _ _ _ (fun hf => absurd (hkind.symm.trans hf) hfunction)
      (Node.ne_of_kind hkind (by decide)))
  cases kind <;> simp [given, hfunction, hkind, hstruct, henum]

/-- A definition of a macro gives a variable. -/
theorem callAt_preprocDef (hkind : n.kind = str "preproc_def" ∨ n.kind = str "preproc_function_def") :
    CallAt source n p ctx.visitDepth (handlePreprocDef source ctx w p n) := by
  have hclosed : isClosedKind n.kind = true := by
    rcases hkind with heq | heq <;> rw [heq] <;> decide
  have hdeclares : isDeclaring n.kind = false := by
    rcases hkind with heq | heq <;> rw [heq] <;> decide
  unfold handlePreprocDef
  simp only
  split
  · refine callAt_plain hdeclares (by simp [visitChildren, Visitor.visitChildren])
      ⟨_, goesTo_visitChildren _ _ _, fun h => ?_⟩
    exact absurd (hclosed.symm.trans h) (by simp)
  · refine callAt_plain hdeclares (fun e he => ?_) (goes_visitNothing hclosed)
    rw [List.mem_singleton.mp he]
    show RecordKind.variable ∉ declarationKinds
    decide

theorem callAt_unhandled (hkind : n.kind ∈ leafKinds ∨ n.kind ∈ otherKinds) :
    CallAt source n p ctx.visitDepth
      (JsVisitor.visitNode Job.visitNode (fun id => handler id ctx p n) source ctx w p n) := by
  have hno : n.kind ∉ handledKinds := hkind.elim (leafKinds_unhandled _) (otherKinds_unhandled _)
  have hdeclares : isDeclaring n.kind = false := by
    rw [← Bool.not_eq_true]
    intro h
    refine hno ?_
    simp only [isDeclaring, isStructOrUnion, Bool.or_eq_true, decide_eq_true_eq] at h
    rcases h with ((h | h | h) | h) | h <;> rw [h] <;> decide
  rcases hkind with hleaf | hother
  · obtain ⟨records, hshared, heq⟩ := @JsVisitor.visitNode_leaf_shared Job Tables Job.visitNode
      (fun id => handler id ctx p n) source ctx w p n (leafKinds_leaf _ hleaf)
    rw [heq]
    refine callAt_plain hdeclares (fun e he => not_declaration_of_shared _ (hshared e he))
      (goes_visitNothing ?_)
    simp [isClosedKind, hleaf]
  · obtain ⟨records, hshared, heq⟩ := @JsVisitor.visitNode_pass_shared Job Tables Job.visitNode
      (fun id => handler id ctx p n) source ctx w p n (otherKinds_pass _ hother)
    rw [heq]
    refine callAt_plain hdeclares (fun e he => not_declaration_of_shared _ (hshared e he))
      (goes_visitChildren _ _ _ (fun hf => ?_) (fun hc => ?_))
    · exact absurd (by rw [hf]; decide) hno
    · exact absurd (by rw [hc]; decide) hno

/-- **What a visit of a node does**, in a tree of the grammar. -/
theorem callAt_visitNode (h : n.Everywhere (CNode source)) (hnamed : n.named = true) :
    CallAt source n p ctx.visitDepth (visitNode handler source defined ctx w p n) := by
  have hkinds := h.self.kind hnamed
  simp only [Bool.or_eq_true, List.contains_iff_mem] at hkinds
  have hunhandled : n.kind ∉ handledKinds → n.kind ∈ leafKinds ∨ n.kind ∈ otherKinds :=
    fun hno => hkinds.elim (fun h => .inl (h.resolve_right hno)) .inr
  unfold visitNode
  by_cases hfunction : n.kind = str "function_definition"
  · rw [if_pos hfunction]
    exact callAt_function h hfunction
  rw [if_neg hfunction]
  by_cases hdeclaration : n.kind = str "declaration"
  · have hne : ∀ k, str "declaration" ≠ k → n.kind ≠ k := fun k => Node.ne_of_kind hdeclaration
    rw [if_pos hdeclaration]
    exact callAt_plain (by rw [hdeclaration]; decide)
      (by simp [handleDeclaration, visitChildren, Visitor.visitChildren])
      (goes_visitChildren ctx _ _ (fun hf => absurd hf hfunction) (hne _ (by decide)))
  rw [if_neg hdeclaration]
  by_cases hstruct : (n.kind = str "struct_specifier" || n.kind = str "union_specifier") = true
  · rw [if_pos hstruct]
    exact callAt_struct h.self hstruct
  rw [if_neg hstruct]
  by_cases henum : n.kind = str "enum_specifier"
  · rw [if_pos henum]
    exact callAt_enum h.self henum
  rw [if_neg henum]
  by_cases hcall : n.kind = str "call_expression"
  · rw [if_pos hcall]
    exact callAt_call hcall
  rw [if_neg hcall]
  by_cases hnew : n.kind = str "new_expression"
  · rw [hnew, spelledLeafKinds.2, spelledOtherKinds.2] at hkinds
    exact absurd hkinds (by decide +kernel)
  rw [if_neg hnew]
  by_cases hinclude : n.kind = str "preproc_include"
  · rw [if_pos hinclude]
    refine callAt_plain (by rw [hinclude]; decide) (fun e he => ?_)
      (goes_visitNothing (by rw [hinclude]; decide))
    rw [List.mem_singleton.mp he]
    show RecordKind.import ∉ declarationKinds
    decide
  rw [if_neg hinclude]
  by_cases htypedef : n.kind = str "type_definition"
  · rw [if_pos htypedef]
    exact callAt_typedef h htypedef
  rw [if_neg htypedef]
  by_cases hdef : (n.kind = str "preproc_def" || n.kind = str "preproc_function_def") = true
  · rw [if_pos hdef]
    exact callAt_preprocDef (by simpa using hdef)
  rw [if_neg hdef]
  refine callAt_unhandled (hunhandled ?_)
  simp only [Bool.or_eq_true, decide_eq_true_eq, not_or] at hstruct hdef
  simp [handledKinds, hfunction, hdeclaration, hstruct, henum, hcall, hinclude, htypedef, hdef]

theorem callAt_visitor (h : n.Everywhere (CNode source)) (hnamed : n.named = true) {job : Job}
    (hsuits : suits n job) :
    CallAt source n p (depthOf job) (visitor handler source defined job w p n) := by
  cases job with
  | visitNode ctx => exact callAt_visitNode h hnamed
  | visitChildren ctx =>
      have hkind : isDeclaring n.kind = false ∧ n.kind ≠ str "function_definition" ∧
          n.kind ≠ str "call_expression" := by
        rcases hsuits with hk | hk | hk | hk <;> rw [hk] <;> decide
      exact callAt_plain hkind.1 (by simp [visitor, visitChildren, Visitor.visitChildren])
        (goes_visitChildren ctx w [] (fun hf => absurd hf hkind.2.1) hkind.2.2)
  | visitClassBody ctx => exact hsuits.elim
  | memberFunctionDecl ctx => exact hsuits.elim

theorem names_visitor (h : n.Everywhere (CNode source)) (hnamed : n.named = true) (job : Job)
    {kind : RecordKind} (hkind : kind ∈ declarationKinds) :
    namesAt (visitor handler source defined job w p n).reports kind p =
      match job with
      | .visitNode _ => given source kind n
      | _ => [] := by
  cases job with
  | visitNode ctx => exact (callAt_visitNode h hnamed).names kind hkind
  | visitChildren ctx => rfl
  | visitClassBody ctx => rfl
  | memberFunctionDecl ctx => rfl

theorem visitor_properFor (h : n.Everywhere (CNode source)) (hnamed : n.named = true) (job : Job)
    {kind : RecordKind} (hkind : kind ∈ declarationKinds) :
    ProperFor (· = kind) p (visitor handler source defined job w p n) := by
  cases job with
  | visitNode ctx =>
      obtain ⟨⟨_, hgoes, -⟩, hplace, -⟩ :=
        @callAt_visitNode handler source defined ctx w p n h hnamed
      exact ⟨fun e he heq => hplace e he (heq ▸ hkind), hgoes.named⟩
  | visitChildren ctx => exact proper_visitChildren (by simp)
  | visitClassBody ctx | memberFunctionDecl ctx => exact proper_visitNothing (by simp)

end Steps

/-! ## The visit of a file -/

section File

variable {handler : ℤ → Ctx → Path → Node → CStep} {source : Str} {defined : List Str}
  {root n m : Node} {r : Path}

theorem named_of_find (h : n.Everywhere (CNode source)) (hm : n.find r = some m)
    (hdeclaring : isDeclaring m.kind = true) : n.named = true := by
  by_contra hno
  obtain ⟨hchildren, hkind⟩ := h.self.token (by simpa using hno)
  cases r with
  | nil =>
      obtain rfl := Option.some.inj hm
      rw [hkind] at hdeclaring
      exact absurd hdeclaring (by simp)
  | cons i r =>
      obtain ⟨c, hc, -⟩ := Node.find_cons_eq_some hm
      rw [hchildren] at hc
      exact absurd hc (by simp)

theorem not_closed_of_find (h : n.Everywhere (CNode source)) (hm : n.find r = some m)
    (hdeclaring : isDeclaring m.kind = true) : isClosedKind n.kind = false := by
  rw [← Bool.not_eq_true]
  intro hclosed
  have hno : (!isDeclaring m.kind) = true :=
    Node.everywhere_of_all (h.self.closed hclosed) r m hm
  rw [hdeclaring] at hno
  exact absurd hno (by simp)

/-- **The visit comes to every declaration** that no part passed over contains, and to no other. -/
theorem arrive_declaring (h : n.Everywhere (CNode source)) {job : Job} (hsuits : suits n job)
    {p : Path} (hdepth : depthOf job ≤ p.length) (hshallow : p.length + r.length < kMaxVisitDepth)
    (w : Tables) (hm : n.find r = some m) (hdeclaring : isDeclaring m.kind = true) :
    if skipped n r then arrive (visitor handler source defined) job w p n r = none
    else ∃ ctx w', arrive (visitor handler source defined) job w p n r =
      some (.visitNode ctx, w', m) := by
  induction r generalizing n job p w with
  | nil =>
      obtain rfl := Option.some.inj hm
      obtain ⟨ctx, rfl⟩ := visitNode_of_suits hsuits hdeclaring
      exact ⟨ctx, w, rfl⟩
  | cons i r ih =>
      have hnamed := named_of_find h hm hdeclaring
      have hopen := not_closed_of_find h hm hdeclaring
      obtain ⟨c, hc, hcm⟩ := Node.find_cons_eq_some hm
      have hchild := h.child hc
      have hcnamed := named_of_find hchild hcm hdeclaring
      have hcopen := not_closed_of_find hchild hcm hdeclaring
      have hidentifier : c.kind ≠ str "identifier" := by
        intro heq
        rw [heq] at hcopen
        exact absurd hcopen (by decide)
      obtain ⟨⟨next, hgoes, hnext⟩, -, -⟩ :=
        @callAt_visitor handler source defined w p n h hnamed job hsuits
      obtain rfl := hnext hopen
      rw [List.length_cons] at hshallow
      rw [arrive, hc, Option.bind_some, skipped, hc]
      by_cases hto : goesTo n c = true
      · obtain ⟨job', henter, hsuits', hdepth'⟩ := hgoes.enters (by omega) i c hcnamed hto
        have hpart : (decide (n.kind = str "function_definition") && !hidesName n &&
            c.kind ≠ str "function_declarator" && c.kind ≠ str "compound_statement") = false := by
          unfold goesTo at hto
          split at hto
          · next hreads =>
              rw [hreads, Bool.true_and]
              simp only [Bool.or_eq_true, decide_eq_true_eq] at hto
              rcases hto with heq | heq <;> simp [heq]
          · next hreads =>
              rw [Bool.not_eq_true] at hreads
              rw [hreads]
              rfl
        simp only [hpart, Bool.false_or]
        rw [henter, Option.bind_some]
        refine ih hchild hsuits' ?_ ?_ _ hcm
        · rw [List.length_append, List.length_singleton]
          omega
        · rw [List.length_append, List.length_singleton]
          omega
      · rw [Bool.not_eq_true] at hto
        have hpart : (decide (n.kind = str "function_definition") && !hidesName n &&
            c.kind ≠ str "function_declarator" && c.kind ≠ str "compound_statement") = true := by
          unfold goesTo at hto
          split at hto
          · next hreads =>
              rw [hreads, Bool.true_and]
              simpa using hto
          · rw [hcnamed, decide_eq_false hidentifier] at hto
            exact absurd hto (by simp)
        simp only [hpart, Bool.true_or, if_true]
        rw [hgoes.passed i c hto]
        rfl

/-- **The records of declarations** at each path of a file. -/
theorem namesAt_visit (hfile : CFile source root) {kind : RecordKind}
    (hkind : kind ∈ declarationKinds) (r : Path) :
    namesAt (visit handler source root) kind r =
      ((root.find r).map fun n => if skipped root r then [] else given source kind n).getD [] := by
  have hfirst : namesAt (visit handler source root) kind r =
      namesAt (Descent.run (visitorOf handler source root) start ⟨[], []⟩ [] root).2 kind r := by
    have hne : RecordKind.variable ≠ kind := by
      rintro rfl
      exact absurd hkind (by decide)
    rw [namesAt, visit, List.filter_cons_of_neg (by simp [emit, hne])]
    rfl
  have hproper : ∀ {n : Node}, n.Everywhere (CNode source) → n.named = true → ∀ job w p,
      ProperFor (· = kind) p (visitorOf handler source root job w p n) :=
    fun h hnamed job w p => visitor_properFor h hnamed job hkind
  have hat : namesAt (visit handler source root) kind r =
      ((arrive (visitorOf handler source root) start ⟨[], []⟩ [] root r).map fun a =>
        namesAt (visitorOf handler source root a.1 a.2.1 r a.2.2).reports kind r).getD [] := by
    rw [hfirst, namesAt, records_at (· = kind) hproper (fun h hc => h.of_mem hc) hfile.nodes
      hfile.named r]
    cases arrive (visitorOf handler source root) start ⟨[], []⟩ [] root r <;> rfl
  have hfound : ∀ a, arrive (visitorOf handler source root) start ⟨[], []⟩ [] root r = some a →
      root.find r = some a.2.2 ∧ a.2.2.Everywhere (CNode source) ∧ a.2.2.named = true := by
    intro a ha
    refine Descent.arrive_find (I := fun n => n.Everywhere (CNode source) ∧ n.named = true)
      (fun h s w p i c s' hc henter => ⟨h.1.of_mem hc, ?_⟩) ⟨hfile.nodes, hfile.named⟩ ha
    by_contra hno
    have hnone := (hproper h.1 h.2 s w p).named i c (by simpa using hno)
    exact absurd (henter.symm.trans hnone) (by simp)
  rw [hat]
  cases hn : root.find r with
  | none =>
      cases ha : arrive (visitorOf handler source root) start ⟨[], []⟩ [] root r with
      | none => rfl
      | some a => exact absurd (hn.symm.trans (hfound a ha).1) (by simp)
  | some n =>
      rw [Option.map_some, Option.getD_some]
      by_cases hdeclaring : isDeclaring n.kind = true
      · have hsuits : suits root start := .inl hfile.kind
        have harrive : if skipped root r then
            arrive (visitorOf handler source root) start ⟨[], []⟩ [] root r = none
          else ∃ ctx w', arrive (visitorOf handler source root) start ⟨[], []⟩ [] root r =
            some (.visitNode ctx, w', n) :=
          arrive_declaring hfile.nodes hsuits le_rfl
            (by simpa using (Node.length_lt_height hn).trans_le hfile.shallow) _ hn
            hdeclaring
        split at harrive
        · next hskipped =>
            rw [harrive, if_pos hskipped]
            rfl
        · next hskipped =>
            obtain ⟨ctx, w', ha⟩ := harrive
            obtain ⟨-, hnodes, hnamed⟩ := hfound _ ha
            rw [ha, if_neg hskipped, Option.map_some, Option.getD_some]
            exact names_visitor hnodes hnamed (.visitNode ctx) hkind
      · rw [Bool.not_eq_true] at hdeclaring
        rw [given_of_not_declaring hdeclaring, ite_self]
        cases ha : arrive (visitorOf handler source root) start ⟨[], []⟩ [] root r with
        | none => rfl
        | some a =>
            obtain ⟨hfind, hnodes, hnamed⟩ := hfound a ha
            obtain rfl := Option.some.inj (hn.symm.trans hfind)
            rw [Option.map_some, Option.getD_some]
            show namesAt (visitor _ _ _ _ _ _ _).reports kind r = []
            rw [names_visitor hnodes hnamed a.1 hkind]
            cases a.1 <;> first | exact given_of_not_declaring hdeclaring kind | rfl

/-! ## When the records are exact -/

theorem function_exact_iff (h : CNode source n) (sk : Bool) :
    (if sk then [] else given source .function n) = declares source .function n ↔
      (n.kind = str "function_definition" → sk = false ∧ hidesName n = false) := by
  by_cases hkind : n.kind = str "function_definition"
  · obtain ⟨m, hm, -, -⟩ := h.function hkind
    rw [Option.mem_def] at hm
    cases sk <;> cases hhides : hidesName n <;> simp [given, declares, hkind, hm, hhides]
  · cases sk <;> simp [given, declares, hkind]

theorem class_exact_iff (source : Str) (n : Node) (sk : Bool) :
    (if sk then [] else given source .class n) = declares source .class n ↔
      (isStructOrUnion n.kind = true → (hasBody n = true ↔ sk = false)) := by
  cases hkind : isStructOrUnion n.kind <;> cases sk <;> cases hbody : hasBody n <;>
    simp [given, declares, hkind, hbody]

theorem nameOfSpecifier_eq_nil_iff (h : CNode source n) (hkind : n.kind = str "enum_specifier") :
    nameOfSpecifier source n = [] ↔ n.namedByField (str "name") = none := by
  rw [nameOfSpecifier]
  cases hname : n.namedByField (str "name") with
  | none => simp
  | some c => simpa using h.name (.inr hkind) c hname

theorem enum_exact_iff (h : CNode source n) (sk : Bool) :
    (if sk then [] else given source .enum n) = declares source .enum n ↔
      (n.kind = str "enum_specifier" → (hasBody n = true ↔ sk = false) ∧
        (hasBody n = true → n.namedByField (str "name") = none)) := by
  by_cases hkind : n.kind = str "enum_specifier"
  · rw [← nameOfSpecifier_eq_nil_iff h hkind, eq_comm (a := nameOfSpecifier source n)]
    cases sk <;> cases hbody : hasBody n <;> simp [given, declares, hkind, hbody]
  · cases sk <;> simp [given, declares, hkind]

theorem typeAlias_exact_iff (h : CNode source n) (sk : Bool) :
    (if sk then [] else given source .typeAlias n) = declares source .typeAlias n ↔
      n.kind ≠ str "type_definition" := by
  by_cases hkind : n.kind = str "type_definition"
  · obtain ⟨hne, hall⟩ := h.typedef hkind
    obtain ⟨d, ds, hds⟩ := List.exists_cons_of_ne_nil hne
    obtain ⟨m, hm, -⟩ := hall d (by rw [hds]; exact List.mem_cons_self)
    rw [Option.mem_def] at hm
    cases sk <;> simp [given, declares, hkind, hds, hm]
  · cases sk <;> simp [given, declares, hkind]

/-- **The records of a C file are exact** under the condition at each node, and only then. -/
theorem recordsExact_iff (handler : ℤ → Ctx → Path → Node → CStep) (hfile : CFile source root) :
    RecordsExact (visit handler source root) source root ↔
      ∀ r n, root.find r = some n → RecordedWhen root r n := by
  have hnode : ∀ r n, root.find r = some n → ((∀ kind ∈ declarationKinds,
      (if skipped root r then [] else given source kind n) = declares source kind n) ↔
        RecordedWhen root r n) := by
    intro r n hn
    have h := hfile.nodes r n hn
    simp only [declarationKinds, List.forall_mem_cons, List.not_mem_nil, false_imp_iff,
      implies_true, and_true]
    rw [function_exact_iff h, class_exact_iff, enum_exact_iff h, typeAlias_exact_iff h]
    constructor
    · intro hall
      obtain ⟨h₁, h₂, h₃, h₄⟩ := hall
      exact ⟨h₁, h₂, h₃, h₄⟩
    · intro hwhen
      obtain ⟨h₁, h₂, h₃, h₄⟩ := hwhen
      exact ⟨h₁, h₂, h₃, h₄⟩
  constructor
  · intro hexact r n hn
    refine (hnode r n hn).mp fun kind hkind => ?_
    have heq := hexact kind hkind r
    rwa [namesAt_visit hfile hkind, hn] at heq
  · intro hwhen kind hkind r
    rw [namesAt_visit hfile hkind]
    cases hn : root.find r with
    | none => rfl
    | some n => exact (hnode r n hn).mpr (hwhen r n hn) kind hkind

end File

/-! ## A definition and a mention -/

/-- A struct with a body. -/
def definition : Str := str "struct S \x7b\x7d;"

/-- The tree of `definition`. -/
def definitionTree : Node :=
  inner "translation_unit" 0 12
    [inner "struct_specifier" 0 11
      [token "struct" 0, innerAs "name" "type_identifier" 7 8 [],
        innerAs "body" "field_declaration_list" 9 11 [token "\x7b" 9, token "\x7d" 10]],
      token ";" 11]

/-- A struct that is mentioned only. -/
def mention : Str := str "struct foo *p;"

/-- The tree of `mention`. -/
def mentionTree : Node :=
  inner "translation_unit" 0 14
    [inner "declaration" 0 14
      [innerAs "type" "struct_specifier" 0 10
        [token "struct" 0, innerAs "name" "type_identifier" 7 10 []],
        innerAs "declarator" "pointer_declarator" 11 13
          [token "*" 11, innerAs "declarator" "identifier" 12 13 []],
        token ";" 13]]

/-- The handlers of JavaScript's own nodes, of which a C file has none. -/
def noHandler : ℤ → Ctx → Path → Node → CStep := fun _ _ _ _ => visitNothing ⟨[], []⟩ []

theorem file_of_all {source : Str} {root : Node}
    (hall : (root.all fun n => decide (CNode source n)) = true)
    (hkind : root.kind = str "translation_unit") (hnamed : root.named = true)
    (hshallow : root.height ≤ kMaxVisitDepth) : CFile source root :=
  ⟨fun r n hn => of_decide_eq_true (Node.everywhere_of_all hall r n hn), hkind, hnamed, hshallow⟩

theorem skipped_eq_false {n : Node}
    (h : n.Everywhere fun m => decide (m.kind ≠ str "function_definition") = true) (r : Path) :
    skipped n r = false := by
  induction r generalizing n with
  | nil => cases n; rfl
  | cons i r ih =>
      have hn : n.kind ≠ str "function_definition" := of_decide_eq_true h.self
      rw [skipped]
      cases hc : n.children[i]? with
      | none => rfl
      | some c => simp [hn, ih (h.child hc)]

/-- A struct with a body is recorded as it should be. -/
theorem definition_recorded :
    RecordsExact (visit noHandler definition definitionTree) definition definitionTree := by
  have hfile : CFile definition definitionTree :=
    file_of_all (by decide +kernel) rfl rfl (by decide +kernel)
  have hkinds : (definitionTree.all fun n => decide (n.kind ≠ str "enum_specifier" ∧
      n.kind ≠ str "type_definition" ∧ (isStructOrUnion n.kind = true → hasBody n = true))) =
        true := by decide +kernel
  have hfunctions : (definitionTree.all fun n =>
      decide (n.kind ≠ str "function_definition")) = true := by decide +kernel
  refine (recordsExact_iff noHandler hfile).mpr fun r n hn => ?_
  have hskipped := skipped_eq_false (Node.everywhere_of_all hfunctions) r
  have hfunction : n.kind ≠ str "function_definition" :=
    of_decide_eq_true (Node.everywhere_of_all hfunctions r n hn)
  obtain ⟨henum, htypedef, hspecifier⟩ :=
    of_decide_eq_true (Node.everywhere_of_all hkinds r n hn)
  exact ⟨fun h => absurd h hfunction, fun h => iff_of_true (hspecifier h) hskipped,
    fun h => absurd h henum, htypedef⟩

/-- **A mention is recorded**: `struct foo *p;` gives a class `foo`. -/
theorem mention_recorded :
    ¬ ∀ handler source root, CFile source root →
      RecordsExact (visit handler source root) source root := by
  intro hall
  have hfile : CFile mention mentionTree :=
    file_of_all (by decide +kernel) rfl rfl (by decide +kernel)
  have hexact := hall noHandler mention mentionTree hfile .class (by decide) [0, 0]
  rw [namesAt_visit hfile (by decide)] at hexact
  have hgiven : (((mentionTree.find [0, 0]).map fun n =>
      if skipped mentionTree [0, 0] then [] else given mention .class n).getD []) = [str "foo"] := by
    decide +kernel
  have hdeclares : ((mentionTree.find [0, 0]).map (declares mention .class)).getD [] = [] := by
    decide +kernel
  rw [hgiven, hdeclares] at hexact
  exact absurd hexact (by simp)

end CodeScope.Visitor.CVisitor
