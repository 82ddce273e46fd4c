import CodeScope.Visitor.CppVisitor

/-! # Calls of the C++ grammar

The kinds of the C++ grammar are those of its generated parser. A kind the C++ visitor has no handler
for is dispatched by the JavaScript patterns in it: those of identifiers, strings, numbers, truth
values and comments end the visit, the others pass it on (`otherKinds_pass`). The name that the
visitor reads off a callee is its last segment when that stands directly in it (`namedRight_iff`),
and the number of arguments is right when no comment stands between the parentheses
(`countArguments_eq_iff`). -/

namespace CodeScope.Visitor.CppVisitor

open Text (Str str Spelt str_eq)
open SyntaxTree (Node Path)

/-! ## The kinds of the grammar -/

/-- The named kinds with the pattern of an identifier, a literal or a comment. -/
def leafKinds : List Str :=
  [str "comment", str "concatenated_string", str "false", str "field_identifier", str "identifier",
    str "namespace_identifier", str "null", str "number_literal", str "qualified_identifier",
    str "raw_string_content", str "raw_string_delimiter", str "raw_string_literal",
    str "statement_identifier", str "string_content", str "string_literal", str "system_lib_string",
    str "true", str "type_identifier"]

/-- The other named kinds, `call_expression` and `new_expression` apart. -/
def otherKinds : List Str :=
  [str "abstract_array_declarator", str "abstract_function_declarator",
    str "abstract_parenthesized_declarator", str "abstract_pointer_declarator",
    str "abstract_reference_declarator", str "access_specifier", str "alias_declaration",
    str "alignas_qualifier", str "alignof_expression", str "argument_list", str "array_declarator",
    str "assignment_expression", str "attribute", str "attribute_declaration",
    str "attribute_specifier", str "attributed_declarator", str "attributed_statement", str "auto",
    str "base_class_clause", str "binary_expression", str "bitfield_clause", str "break_statement",
    str "case_statement", str "cast_expression", str "catch_clause", str "char_literal",
    str "character", str "class_specifier", str "co_await_expression", str "co_return_statement",
    str "co_yield_statement", str "comma_expression", str "compound_literal_expression",
    str "compound_requirement", str "compound_statement", str "concept_definition",
    str "condition_clause", str "conditional_expression", str "constraint_conjunction",
    str "constraint_disjunction", str "continue_statement", str "declaration",
    str "declaration_list", str "decltype", str "default_method_clause", str "delete_expression",
    str "delete_method_clause", str "dependent_name", str "dependent_type", str "destructor_name",
    str "do_statement", str "else_clause", str "enum_specifier", str "enumerator",
    str "enumerator_list", str "escape_sequence", str "explicit_function_specifier",
    str "expression_statement", str "extension_expression", str "field_declaration",
    str "field_declaration_list", str "field_designator", str "field_expression",
    str "field_initializer", str "field_initializer_list", str "fold_expression",
    str "for_range_loop", str "for_statement", str "friend_declaration", str "function_declarator",
    str "function_definition", str "generic_expression", str "gnu_asm_clobber_list",
    str "gnu_asm_expression", str "gnu_asm_goto_list", str "gnu_asm_input_operand",
    str "gnu_asm_input_operand_list", str "gnu_asm_output_operand",
    str "gnu_asm_output_operand_list", str "gnu_asm_qualifier", str "goto_statement",
    str "if_statement", str "init_declarator", str "init_statement", str "initializer_list",
    str "initializer_pair", str "labeled_statement", str "lambda_capture_initializer",
    str "lambda_capture_specifier", str "lambda_default_capture", str "lambda_expression",
    str "linkage_specification", str "literal_suffix", str "ms_based_modifier",
    str "ms_call_modifier", str "ms_declspec_modifier", str "ms_pointer_modifier",
    str "ms_restrict_modifier", str "ms_signed_ptr_modifier", str "ms_unaligned_ptr_modifier",
    str "ms_unsigned_ptr_modifier", str "namespace_alias_definition", str "namespace_definition",
    str "nested_namespace_specifier", str "new_declarator", str "noexcept",
    str "offsetof_expression", str "operator_cast", str "operator_name",
    str "optional_parameter_declaration", str "optional_type_parameter_declaration",
    str "parameter_declaration", str "parameter_list", str "parameter_pack_expansion",
    str "parenthesized_declarator", str "parenthesized_expression",
    str "placeholder_type_specifier", str "pointer_declarator", str "pointer_expression",
    str "pointer_type_declarator", str "preproc_arg", str "preproc_call", str "preproc_def",
    str "preproc_defined", str "preproc_directive", str "preproc_elif", str "preproc_elifdef",
    str "preproc_else", str "preproc_function_def", str "preproc_if", str "preproc_ifdef",
    str "preproc_include", str "preproc_params", str "primitive_type", str "pure_virtual_clause",
    str "ref_qualifier", str "reference_declarator", str "requirement_seq", str "requires_clause",
    str "requires_expression", str "return_statement", str "seh_except_clause",
    str "seh_finally_clause", str "seh_leave_statement", str "seh_try_statement",
    str "simple_requirement", str "sized_type_specifier", str "sizeof_expression",
    str "static_assert_declaration", str "storage_class_specifier", str "struct_specifier",
    str "structured_binding_declarator", str "subscript_argument_list", str "subscript_designator",
    str "subscript_expression", str "subscript_range_designator", str "switch_statement",
    str "template_argument_list", str "template_declaration", str "template_function",
    str "template_instantiation", str "template_method", str "template_parameter_list",
    str "template_template_parameter_declaration", str "template_type", str "this",
    str "throw_specifier", str "throw_statement", str "trailing_return_type",
    str "translation_unit", str "try_statement", str "type_definition", str "type_descriptor",
    str "type_parameter_declaration", str "type_qualifier", str "type_requirement",
    str "unary_expression", str "union_specifier", str "update_expression",
    str "user_defined_literal", str "using_declaration", str "variadic_declarator",
    str "variadic_parameter_declaration", str "variadic_type_parameter_declaration",
    str "virtual_specifier", str "while_statement"]

def spelledLeafKinds : Spelt leafKinds := by
  apply Subtype.mk
  repeat
    apply congrArg₂ List.cons
    · exact str_eq rfl
  rfl

def spelledOtherKinds : Spelt otherKinds := by
  apply Subtype.mk
  repeat
    apply congrArg₂ List.cons
    · exact str_eq rfl
  rfl

theorem leafKinds_leaf : ∀ k ∈ leafKinds, isLeafKind k = true := by
  unfold isLeafKind
  rw [spelledLeafKinds.2, spelledPatterns.2]
  decide +kernel

theorem otherKinds_pass : ∀ k ∈ otherKinds, passesThrough k = true := by
  unfold passesThrough
  rw [spelledOtherKinds.2, spelledPatterns.2]
  decide +kernel

theorem not_leaf_of_other {kind : Str} (h : kind ∈ otherKinds) : kind ∉ leafKinds := by
  intro hleaf
  have hno := not_leaf_of_passesThrough (otherKinds_pass kind h)
  rw [leafKinds_leaf kind hleaf] at hno
  exact absurd hno (by decide)

/-! ## The shapes of calls -/

/-- The kinds of callees that the scan of a call's children stops at. -/
def isCalleeKind (kind : Str) : Bool :=
  kind = str "identifier" || kind = str "field_expression" || kind = str "qualified_identifier"

/-- A call has a callee and a list of arguments, and no other child looks like one of them. -/
structure CallParts (n f args : Node) : Prop where
  function : f.field = some (str "function")
  named : f.named = true
  one_function : n.OneNamed (str "function")
  callee : ∀ c ∈ n.children, isCalleeKind c.kind = true →
    c.named = true ∧ c.field = some (str "function")
  arguments : args.kind = str "argument_list"
  arguments_field : args.field = some (str "arguments")
  arguments_named : args.named = true
  one_arguments : n.OneNamed (str "arguments")
  list : ∀ c ∈ n.children, c.kind = str "argument_list" →
    c.named = true ∧ c.field = some (str "arguments")

/-- A member access has an object and a member, and beside them there are only comments. -/
structure FieldParts (n a f : Node) : Prop where
  argument : a.field = some (str "argument")
  argument_named : a.named = true
  one_argument : n.OneNamed (str "argument")
  field : f.field = some (str "field")
  named : f.named = true
  one_field : n.OneNamed (str "field")
  kind : f.kind = str "field_identifier" ∨ f.kind = str "template_method" ∨
    f.kind = str "destructor_name" ∨ f.kind = str "dependent_name" ∨
    f.kind = str "qualified_identifier"
  name : ∀ c ∈ n.children, c.kind = str "field_identifier" →
    c.named = true ∧ c.field = some (str "field")
  others : ∀ c ∈ n.namedChildren, c.field = some (str "argument") ∨
    c.field = some (str "field") ∨ c.kind = str "comment"

/-- A qualified name has a name, and its scope is spelled with other kinds of names. -/
structure QualifiedParts (n m : Node) : Prop where
  name : m.field = some (str "name")
  one_name : n.OneNamed (str "name")
  scope : ∀ c ∈ n.namedChildren, c.kind = str "identifier" ∨ c.kind = str "field_identifier" →
    c.field = some (str "name")

mutual

/-- The last segment of a callee, without template arguments. -/
def lastName (source : Str) : Node → Option Str
  | .mk kind named field start stop children =>
    if isDeclaredNameNode kind then some ((Node.mk kind named field start stop children).text source)
    else if kind = str "field_expression" then lastNameIn source (str "field") children
    else if kind = str "qualified_identifier" || kind = str "template_function" ||
        kind = str "template_method" then
      lastNameIn source (str "name") children
    else if kind = str "dependent_name" then lastNameOfFirst source children
    else none

def lastNameIn (source field : Str) : List Node → Option Str
  | [] => none
  | c :: rest =>
    if c.named && c.field = some field then lastName source c else lastNameIn source field rest

def lastNameOfFirst (source : Str) : List Node → Option Str
  | [] => none
  | c :: rest => if c.named then lastName source c else lastNameOfFirst source rest

end

/-- The kinds of classes. -/
def isSpecifier (kind : Str) : Bool :=
  kind = str "class_specifier" || kind = str "struct_specifier" || kind = str "union_specifier"

def isCppKind (kind : Str) : Bool :=
  kind = str "call_expression" || kind = str "new_expression" || leafKinds.contains kind ||
    otherKinds.contains kind

/-- What the C++ grammar says of a node. -/
structure CppNode (source : Str) (n : Node) : Prop where
  kind : n.named = true → isCppKind n.kind = true
  identifier : n.kind = str "identifier" → n.children = []
  call : n.kind = str "call_expression" →
    ∃ f ∈ n.children, ∃ args ∈ n.children, CallParts n f args
  access : n.kind = str "field_expression" →
    ∃ a ∈ n.children, ∃ f ∈ n.children, FieldParts n a f
  qualified : n.kind = str "qualified_identifier" → ∃ m ∈ n.namedChildren, QualifiedParts n m
  segment : ∀ s, lastName source n = some s → s ≠ []
  specifier : isSpecifier n.kind = true → ∀ c, n.namedByField (str "name") = some c →
    c.text source ≠ []

instance (n f args : Node) : Decidable (CallParts n f args) :=
  decidable_of_iff (f.field = some (str "function") ∧ f.named = true ∧
      n.OneNamed (str "function") ∧
      (∀ c ∈ n.children, isCalleeKind c.kind = true →
        c.named = true ∧ c.field = some (str "function")) ∧
      args.kind = str "argument_list" ∧ args.field = some (str "arguments") ∧
      args.named = true ∧ n.OneNamed (str "arguments") ∧
      ∀ c ∈ n.children, c.kind = str "argument_list" →
        c.named = true ∧ c.field = some (str "arguments"))
    ⟨fun ⟨h₁, h₂, h₃, h₄, h₅, h₆, h₇, h₈, h₉⟩ => ⟨h₁, h₂, h₃, h₄, h₅, h₆, h₇, h₈, h₉⟩,
      fun ⟨h₁, h₂, h₃, h₄, h₅, h₆, h₇, h₈, h₉⟩ => ⟨h₁, h₂, h₃, h₄, h₅, h₆, h₇, h₈, h₉⟩⟩

instance (n a f : Node) : Decidable (FieldParts n a f) :=
  decidable_of_iff (a.field = some (str "argument") ∧ a.named = true ∧
      n.OneNamed (str "argument") ∧ f.field = some (str "field") ∧ f.named = true ∧
      n.OneNamed (str "field") ∧
      (f.kind = str "field_identifier" ∨ f.kind = str "template_method" ∨
        f.kind = str "destructor_name" ∨ f.kind = str "dependent_name" ∨
        f.kind = str "qualified_identifier") ∧
      (∀ c ∈ n.children, c.kind = str "field_identifier" →
        c.named = true ∧ c.field = some (str "field")) ∧
      ∀ c ∈ n.namedChildren, c.field = some (str "argument") ∨
        c.field = some (str "field") ∨ c.kind = str "comment")
    ⟨fun ⟨h₁, h₂, h₃, h₄, h₅, h₆, h₇, h₈, h₉⟩ => ⟨h₁, h₂, h₃, h₄, h₅, h₆, h₇, h₈, h₉⟩,
      fun ⟨h₁, h₂, h₃, h₄, h₅, h₆, h₇, h₈, h₉⟩ => ⟨h₁, h₂, h₃, h₄, h₅, h₆, h₇, h₈, h₉⟩⟩

instance (n m : Node) : Decidable (QualifiedParts n m) :=
  decidable_of_iff (m.field = some (str "name") ∧ n.OneNamed (str "name") ∧
      ∀ c ∈ n.namedChildren, c.kind = str "identifier" ∨ c.kind = str "field_identifier" →
        c.field = some (str "name"))
    ⟨fun ⟨h₁, h₂, h₃⟩ => ⟨h₁, h₂, h₃⟩, fun ⟨h₁, h₂, h₃⟩ => ⟨h₁, h₂, h₃⟩⟩

theorem isCppKind_spelled (kind : Str) : isCppKind kind =
    (kind = str "call_expression" || kind = str "new_expression" ||
      spelledLeafKinds.1.contains kind || spelledOtherKinds.1.contains kind) := by
  rw [isCppKind, ← spelledLeafKinds.2, ← spelledOtherKinds.2]

instance (source : Str) (n : Node) : Decidable (CppNode source n) :=
  decidable_of_iff ((n.named = true → (n.kind = str "call_expression" ||
        n.kind = str "new_expression" || spelledLeafKinds.1.contains n.kind ||
        spelledOtherKinds.1.contains n.kind) = true) ∧
      (n.kind = str "identifier" → n.children.isEmpty = true) ∧
      (n.kind = str "call_expression" →
        ∃ f ∈ n.children, ∃ args ∈ n.children, CallParts n f args) ∧
      (n.kind = str "field_expression" →
        ∃ a ∈ n.children, ∃ f ∈ n.children, FieldParts n a f) ∧
      (n.kind = str "qualified_identifier" → ∃ m ∈ n.namedChildren, QualifiedParts n m) ∧
      (∀ s ∈ lastName source n, s ≠ []) ∧
      (isSpecifier n.kind = true → ∀ c ∈ n.namedByField (str "name"), c.text source ≠ []))
    ⟨fun ⟨h₁, h₂, h₃, h₄, h₅, h₆, h₇⟩ =>
        ⟨fun h => (isCppKind_spelled _).trans (h₁ h), fun h => List.isEmpty_iff.mp (h₂ h),
          h₃, h₄, h₅, h₆, h₇⟩,
      fun ⟨h₁, h₂, h₃, h₄, h₅, h₆, h₇⟩ =>
        ⟨fun h => (isCppKind_spelled _).symm.trans (h₁ h), fun h => List.isEmpty_iff.mpr (h₂ h),
          h₃, h₄, h₅, h₆, h₇⟩⟩

/-! ## The name of a call -/

theorem lastNameIn_eq (source field : Str) (children : List Node) :
    lastNameIn source field children =
      ((children.filter Node.named).find? fun c => c.field = some field).bind (lastName source) := by
  induction children with
  | nil => rfl
  | cons c rest ih =>
      rw [lastNameIn, List.filter_cons]
      by_cases hnamed : c.named = true
      · by_cases hfield : c.field = some field
        · simp [hnamed, hfield]
        · simp [hnamed, hfield, ih]
      · simp [hnamed, ih]

variable {source : Str} {n f args : Node}

theorem lastName_of_name (h : isDeclaredNameNode n.kind = true) :
    lastName source n = some (n.text source) := by
  cases n with
  | mk kind named field start stop children => exact if_pos h

theorem lastName_access (h : n.kind = str "field_expression") :
    lastName source n = (n.namedByField (str "field")).bind (lastName source) := by
  cases n with
  | mk kind named field start stop children =>
      obtain rfl : kind = str "field_expression" := h
      rw [lastName, if_neg (by decide), if_pos rfl, lastNameIn_eq]
      rfl

theorem lastName_qualified (h : n.kind = str "qualified_identifier") :
    lastName source n = (n.namedByField (str "name")).bind (lastName source) := by
  cases n with
  | mk kind named field start stop children =>
      obtain rfl : kind = str "qualified_identifier" := h
      rw [lastName, if_neg (by decide), if_neg (by decide), if_pos (by decide), lastNameIn_eq]
      rfl

theorem extractFieldMethodName_eq {a : Node} (h : FieldParts n a f) (hf : f ∈ n.children) :
    CVisitor.extractFieldMethodName source n =
      if f.kind = str "field_identifier" then f.text source else [] := by
  have hmem : f ∈ n.namedChildren := List.mem_filter.mpr ⟨hf, h.named⟩
  unfold CVisitor.extractFieldMethodName
  cases hfind : n.children.find? fun c => c.kind = str "field_identifier" with
  | none =>
      have hno := List.find?_eq_none.mp hfind f hf
      rw [if_neg (by simpa using hno)]
  | some c =>
      have hkind := List.find?_some hfind
      simp only [decide_eq_true_eq] at hkind
      have hc := List.mem_of_find?_eq_some hfind
      obtain ⟨hnamed, hfield⟩ := h.name c hc hkind
      obtain rfl := h.one_field.eq hmem h.field (List.mem_filter.mpr ⟨hc, hnamed⟩) hfield
      rw [if_pos hkind]

theorem qualifiedName_eq {m : Node} (h : QualifiedParts n m) (hm : m ∈ n.namedChildren) :
    (CVisitor.Callee.qualified n).nameOf source =
      if m.kind = str "identifier" ∨ m.kind = str "field_identifier" then m.text source else [] := by
  simp only [CVisitor.Callee.nameOf]
  cases hlast : (n.namedChildren.filter fun q => q.kind = str "identifier" ||
      q.kind = str "field_identifier").getLast? with
  | none =>
      have hno : m ∉ n.namedChildren.filter fun q => q.kind = str "identifier" ||
          q.kind = str "field_identifier" := by
        rw [List.getLast?_eq_none_iff.mp hlast]
        simp
      rw [if_neg fun hkind => hno (List.mem_filter.mpr ⟨hm, by simpa using hkind⟩)]
  | some q =>
      obtain ⟨hq, hkind⟩ := List.mem_filter.mp (List.mem_of_getLast? hlast)
      simp only [Bool.or_eq_true, decide_eq_true_eq] at hkind
      obtain rfl := h.one_name.eq hm h.name hq (h.scope q hq hkind)
      rw [if_pos hkind]

/-- A callee whose last segment the visitor reads: a name, a member that is a name, a name with one
    scope around it. -/
def PlainSegment (source : Str) (f : Node) : Prop :=
  f.kind = str "identifier" ∨
    (f.kind = str "field_expression" ∧
      ∀ c, f.namedByField (str "field") = some c → c.kind = str "field_identifier") ∨
    (f.kind = str "qualified_identifier" ∧ ∀ c, f.namedByField (str "name") = some c →
      c.kind = str "identifier" ∨ c.kind = str "field_identifier") ∨
    lastName source f = none

/-- The callee of the call is a plain one. -/
def PlainCallee (source : Str) (n : Node) : Prop :=
  ∀ f, n.namedByField (str "function") = some f → PlainSegment source f

/-- The callee's last segment is the name of the call. -/
def NamedRight (source : Str) (n : Node) (name : Str) : Prop :=
  ∀ f, n.namedByField (str "function") = some f → ∀ s, lastName source f = some s → name = s

theorem callee_eq (h : CallParts n f args) (hf : f ∈ n.children) :
    CVisitor.callee n =
      if f.kind = str "identifier" then .name f
      else if f.kind = str "field_expression" then .field f
      else if f.kind = str "qualified_identifier" then .qualified f
      else .none := by
  have hmem : f ∈ n.namedChildren := List.mem_filter.mpr ⟨hf, h.named⟩
  unfold CVisitor.callee
  cases hfind : n.children.find? fun c => c.kind = str "identifier" ||
      c.kind = str "field_expression" || c.kind = str "qualified_identifier" with
  | none =>
      have hno := List.find?_eq_none.mp hfind f hf
      simp only [Bool.or_eq_true, decide_eq_true_eq, not_or] at hno
      simp only [hno, if_false]
  | some c =>
      have hkind := List.find?_some hfind
      have hc := List.mem_of_find?_eq_some hfind
      obtain ⟨hnamed, hfield⟩ := h.callee c hc hkind
      obtain rfl := h.one_function.eq hmem h.function (List.mem_filter.mpr ⟨hc, hnamed⟩) hfield
      simp only [Bool.or_eq_true, decide_eq_true_eq] at hkind
      by_cases hname : c.kind = str "identifier"
      · simp only [hname, if_true]
      · by_cases haccess : c.kind = str "field_expression"
        · simp only [haccess, if_true]
        · have hqualified := hkind.resolve_left (by simp [hname, haccess])
          simp only [hqualified, if_true]

/-- A segment whose text is read under a condition that only names meet. -/
theorem segment_read_iff {m : Node} {P : Prop} [Decidable P]
    (hP : P → isDeclaredNameNode m.kind = true)
    (hsegment : ∀ s, lastName source m = some s → s ≠ []) :
    (∀ s, lastName source m = some s → (if P then m.text source else []) = s) ↔
      P ∨ lastName source m = none := by
  by_cases h : P
  · rw [if_pos h, lastName_of_name (hP h)]
    simp [h]
  · rw [if_neg h]
    constructor
    · intro hread
      right
      cases hlast : lastName source m with
      | none => rfl
      | some s => exact absurd (hread s hlast).symm (hsegment s hlast)
    · intro hnone s hs
      rw [hnone.resolve_left h] at hs
      exact absurd hs (by simp)

/-- **The name is right** exactly for a plain callee. -/
theorem namedRight_iff (h : CallParts n f args) (hf : f ∈ n.children)
    (hnode : f.Everywhere (CppNode source)) :
    NamedRight source n ((CVisitor.callee n).nameOf source) ↔ PlainCallee source n := by
  have hfunction := h.one_function.namedByField_eq (List.mem_filter.mpr ⟨hf, h.named⟩) h.function
  have hiff : (∀ s, lastName source f = some s → (CVisitor.callee n).nameOf source = s) ↔
      PlainSegment source f := by
    rw [callee_eq h hf, PlainSegment]
    by_cases hname : f.kind = str "identifier"
    · have hlast : lastName source f = some (f.text source) :=
        lastName_of_name (by rw [hname]; decide)
      simp [hname, hlast, CVisitor.Callee.nameOf]
    rw [if_neg hname]
    by_cases haccess : f.kind = str "field_expression"
    · obtain ⟨a, -, m, hm, hparts⟩ := hnode.self.access haccess
      have hfield := hparts.one_field.namedByField_eq
        (List.mem_filter.mpr ⟨hm, hparts.named⟩) hparts.field
      have hne : str "field_expression" ≠ str "identifier" := by decide
      have hother : str "field_expression" ≠ str "qualified_identifier" := by decide
      rw [if_pos haccess, CVisitor.Callee.nameOf, extractFieldMethodName_eq hparts hm,
        lastName_access haccess, hfield, Option.bind_some,
        segment_read_iff (fun hkind => by rw [hkind]; decide) (hnode.of_mem hm).self.segment]
      simp [haccess, hne, hother]
    rw [if_neg haccess]
    by_cases hqualified : f.kind = str "qualified_identifier"
    · obtain ⟨m, hm, hparts⟩ := hnode.self.qualified hqualified
      have hfield := hparts.one_name.namedByField_eq hm hparts.name
      have hsegment := (hnode.of_mem (List.mem_of_mem_filter hm)).self.segment
      have hne : str "qualified_identifier" ≠ str "identifier" := by decide
      have hother : str "qualified_identifier" ≠ str "field_expression" := by decide
      rw [if_pos hqualified, qualifiedName_eq hparts hm, lastName_qualified hqualified, hfield,
        Option.bind_some, segment_read_iff (fun hkind => ?_) hsegment]
      · simp [hqualified, hne, hother]
      · rcases hkind with heq | heq <;> rw [heq] <;> decide
    · -- the scan finds no callee, so the name is empty
      rw [if_neg hqualified]
      simp only [CVisitor.Callee.nameOf, hname, haccess, hqualified, false_and, false_or]
      constructor
      · intro hread
        cases hlast : lastName source f with
        | none => rfl
        | some s => exact absurd (hread s hlast).symm (hnode.self.segment s hlast)
      · intro hnone s hs
        rw [hnone] at hs
        exact absurd hs (by simp)
  constructor
  · intro hright g hg
    obtain rfl := Option.some.inj (hfunction.symm.trans hg)
    exact hiff.mp (hright f hfunction)
  · intro hplain g hg
    obtain rfl := Option.some.inj (hfunction.symm.trans hg)
    exact hiff.mpr (hplain f hfunction)

/-! ## The number of arguments -/

/-- The arguments of a call: what is named between the parentheses and no comment. -/
def argumentsOf (n : Node) : List Node :=
  match n.namedByField (str "arguments") with
  | none => []
  | some args => args.namedChildren.filter fun c => c.kind ≠ str "comment"

/-- No comment stands between the parentheses. -/
def PlainArguments (n : Node) : Prop :=
  ∀ args, n.namedByField (str "arguments") = some args →
    ∀ c ∈ args.namedChildren, c.kind ≠ str "comment"

theorem countArguments_eq (h : CallParts n f args) (hargs : args ∈ n.children) :
    CVisitor.countArguments n = args.namedChildren.length := by
  have hmem : args ∈ n.namedChildren := List.mem_filter.mpr ⟨hargs, h.arguments_named⟩
  unfold CVisitor.countArguments
  cases hfind : n.children.find? fun c => c.kind = str "argument_list" with
  | none =>
      have hno := List.find?_eq_none.mp hfind args hargs
      exact absurd h.arguments (by simpa using hno)
  | some c =>
      have hkind := List.find?_some hfind
      have hc := List.mem_of_find?_eq_some hfind
      obtain ⟨hnamed, hfield⟩ := h.list c hc (by simpa using hkind)
      obtain rfl := h.one_arguments.eq hmem h.arguments_field
        (List.mem_filter.mpr ⟨hc, hnamed⟩) hfield
      rfl

theorem countArguments_eq_iff (h : CallParts n f args) (hargs : args ∈ n.children) :
    CVisitor.countArguments n = (argumentsOf n).length ↔ PlainArguments n := by
  have hfield := h.one_arguments.namedByField_eq
    (List.mem_filter.mpr ⟨hargs, h.arguments_named⟩) h.arguments_field
  rw [countArguments_eq h hargs, argumentsOf, PlainArguments, hfield]
  simp only [Option.some.injEq, forall_eq']
  rw [eq_comm, List.length_filter_eq_length_iff]
  simp

/-! ## The receiver of a call -/

/-- A member call through `this`. -/
def ThisCall (n : Node) : Prop :=
  ∃ f a, n.namedByField (str "function") = some f ∧ f.kind = str "field_expression" ∧
    f.namedByField (str "argument") = some a ∧ a.kind = str "this"

/-- **No receiver is found** where the object is `this`. -/
theorem receiverText_this (h : CallParts n f args) (hf : f ∈ n.children)
    (hnode : f.Everywhere (CppNode source)) (hthis : ThisCall n) :
    (CVisitor.callee n).receiverText source = [] := by
  obtain ⟨g, a, hg, haccess, ha, hkind⟩ := hthis
  have hfunction := h.one_function.namedByField_eq (List.mem_filter.mpr ⟨hf, h.named⟩) h.function
  obtain rfl := Option.some.inj (hfunction.symm.trans hg)
  obtain ⟨b, hb, m, hm, hparts⟩ := hnode.self.access haccess
  have hbmem : b ∈ f.namedChildren := List.mem_filter.mpr ⟨hb, hparts.argument_named⟩
  obtain rfl := Option.some.inj
    (ha.symm.trans (hparts.one_argument.namedByField_eq hbmem hparts.argument))
  have hmmem : m ∈ f.namedChildren := List.mem_filter.mpr ⟨hm, hparts.named⟩
  rw [callee_eq h hf, if_neg (Node.ne_of_kind haccess (by decide)), if_pos haccess,
    CVisitor.Callee.receiverText, CVisitor.extractFieldReceiverText]
  have hnone : (f.namedChildren.find? fun c => c.kind = str "identifier" ||
      c.kind = str "field_expression" || c.kind = str "call_expression" ||
      c.kind = str "subscript_expression") = none := by
    refine List.find?_eq_none.mpr fun c hc => ?_
    -- neither `this` nor a member nor a comment has the kind of a receiver
    rcases hparts.others c hc with hfield | hfield | hcomment
    · obtain rfl := hparts.one_argument.eq hbmem hparts.argument hc hfield
      rw [hkind]
      decide
    · obtain rfl := hparts.one_field.eq hmmem hparts.field hc hfield
      rcases hparts.kind with heq | heq | heq | heq | heq <;> rw [heq] <;> decide
    · rw [hcomment]
      decide
  rw [hnone]

end CodeScope.Visitor.CppVisitor
