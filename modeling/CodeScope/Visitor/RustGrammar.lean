import CodeScope.Visitor.RustVisitor

/-! # Calls of the Rust grammar

The kinds of the Rust grammar are those of its generated parser. A kind the Rust visitor has no
handler for is dispatched by the JavaScript patterns in it: those of identifiers, strings and
comments end the visit, the others pass it on (`otherKinds_pass`). The name that the visitor reads
off a callee is its last path segment when the callee is spelled plainly (`namedRight_iff`), and the
number of arguments is right when there are only arguments between the parentheses
(`countArguments_eq_iff`). -/

namespace CodeScope.Visitor.RustVisitor

open Text (Str str splitLast contains Spelt str_eq)
open SyntaxTree (Node Path)

/-! ## The kinds of the grammar -/

/-- The named kinds with the pattern of an identifier, a string or a comment. -/
def leafKinds : List Str :=
  [str "block_comment", str "doc_comment", str "field_identifier", str "identifier",
    str "inner_doc_comment_marker", str "line_comment", str "outer_doc_comment_marker",
    str "raw_string_literal", str "scoped_identifier", str "scoped_type_identifier",
    str "shorthand_field_identifier", str "string_content", str "string_literal",
    str "type_identifier"]

/-- The other named kinds, `call_expression` apart. -/
def otherKinds : List Str :=
  [str "abstract_type", str "arguments", str "array_expression", str "array_type",
    str "assignment_expression", str "associated_type", str "async_block", str "attribute",
    str "attribute_item", str "await_expression", str "base_field_initializer",
    str "binary_expression", str "block", str "boolean_literal", str "bounded_type",
    str "bracketed_type", str "break_expression", str "captured_pattern", str "char_literal",
    str "closure_expression", str "closure_parameters", str "compound_assignment_expr",
    str "const_block", str "const_item", str "const_parameter", str "continue_expression",
    str "crate", str "declaration_list", str "dynamic_type", str "else_clause",
    str "empty_statement", str "enum_item", str "enum_variant", str "enum_variant_list",
    str "escape_sequence", str "expression_statement", str "extern_crate_declaration",
    str "extern_modifier", str "field_declaration", str "field_declaration_list",
    str "field_expression", str "field_initializer", str "field_initializer_list",
    str "field_pattern", str "float_literal", str "for_expression", str "for_lifetimes",
    str "foreign_mod_item", str "fragment_specifier", str "function_item",
    str "function_modifiers", str "function_signature_item", str "function_type", str "gen_block",
    str "generic_function", str "generic_pattern", str "generic_type",
    str "generic_type_with_turbofish", str "higher_ranked_trait_bound", str "if_expression",
    str "impl_item", str "index_expression", str "inner_attribute_item", str "integer_literal",
    str "label", str "let_chain", str "let_condition", str "let_declaration", str "lifetime",
    str "lifetime_parameter", str "loop_expression", str "macro_definition",
    str "macro_invocation", str "macro_rule", str "match_arm", str "match_block",
    str "match_expression", str "match_pattern", str "metavariable", str "mod_item",
    str "mut_pattern", str "mutable_specifier", str "negative_literal", str "never_type",
    str "or_pattern", str "ordered_field_declaration_list", str "parameter", str "parameters",
    str "parenthesized_expression", str "pointer_type", str "primitive_type", str "qualified_type",
    str "range_expression", str "range_pattern", str "ref_pattern", str "reference_expression",
    str "reference_pattern", str "reference_type", str "remaining_field_pattern",
    str "removed_trait_bound", str "return_expression", str "scoped_use_list", str "self",
    str "self_parameter", str "shebang", str "shorthand_field_initializer", str "slice_pattern",
    str "source_file", str "static_item", str "struct_expression", str "struct_item",
    str "struct_pattern", str "super", str "token_binding_pattern", str "token_repetition",
    str "token_repetition_pattern", str "token_tree", str "token_tree_pattern", str "trait_bounds",
    str "trait_item", str "try_block", str "try_expression", str "tuple_expression",
    str "tuple_pattern", str "tuple_struct_pattern", str "tuple_type", str "type_arguments",
    str "type_binding", str "type_cast_expression", str "type_item", str "type_parameter",
    str "type_parameters", str "unary_expression", str "union_item", str "unit_expression",
    str "unit_type", str "unsafe_block", str "use_as_clause", str "use_bounds",
    str "use_declaration", str "use_list", str "use_wildcard", str "variadic_parameter",
    str "visibility_modifier", str "where_clause", str "where_predicate", str "while_expression",
    str "yield_expression"]

def spelledLeafKinds : Spelt leafKinds := by
  apply Subtype.mk
  repeat
    apply congrArg₂ List.cons
    · exact str_eq rfl
  rfl

def spelledOtherKinds : Spelt otherKinds := by
  apply Subtype.mk
  repeat
    apply congrArg₂ List.cons
    · exact str_eq rfl
  rfl

theorem leafKinds_leaf : ∀ k ∈ leafKinds, isLeafKind k = true := by
  unfold isLeafKind
  rw [spelledLeafKinds.2, spelledPatterns.2]
  decide +kernel

theorem otherKinds_pass : ∀ k ∈ otherKinds, passesThrough k = true := by
  unfold passesThrough
  rw [spelledOtherKinds.2, spelledPatterns.2]
  decide +kernel

/-! ## The name behind the last separator -/

theorem afterColons_none {s : Str} : afterColons s = none → ¬ str "::" <:+: s := by
  induction s with
  | nil => intro _ h; simpa [str] using h.length_le
  | cons c rest ih =>
      intro h hin
      rw [afterColons] at h
      cases hrest : afterColons rest with
      | some after => rw [hrest] at h; exact absurd h (by simp)
      | none =>
          rw [hrest] at h
          rcases List.infix_cons_iff.mp hin with hpre | hin
          · rw [if_pos (List.isPrefixOf_iff_prefix.mpr hpre)] at h
            exact absurd h (by simp)
          · exact ih hrest hin

theorem afterColons_some {s after : Str} (h : afterColons s = some after) :
    (∃ front, s = front ++ str "::" ++ after) ∧ ¬ str "::" <:+: ':' :: after := by
  induction s generalizing after with
  | nil => exact absurd h (by simp [afterColons])
  | cons c rest ih =>
      rw [afterColons] at h
      cases hrest : afterColons rest with
      | some found =>
          rw [hrest] at h
          obtain rfl : found = after := Option.some.inj h
          obtain ⟨⟨front, rfl⟩, hlast⟩ := ih hrest
          exact ⟨⟨c :: front, rfl⟩, hlast⟩
      | none =>
          rw [hrest] at h
          have hnone := afterColons_none hrest
          by_cases hpre : (str "::").isPrefixOf (c :: rest) = true
          · obtain ⟨tail, htail⟩ := List.isPrefixOf_iff_prefix.mp hpre
            obtain ⟨rfl, rfl⟩ := List.cons.inj (show ':' :: ':' :: tail = c :: rest from htail)
            rw [if_pos hpre] at h
            obtain rfl : tail = after := Option.some.inj h
            exact ⟨⟨[], rfl⟩, hnone⟩
          · rw [if_neg hpre] at h
            exact absurd h (by simp)

/-- What `bareCalleeName` leaves stands behind a separator and holds none. -/
theorem bareCalleeName_spec {text : Str} (h : '.' ∈ text ∨ str "::" <:+: text) :
    ∃ front, (text = front ++ '.' :: bareCalleeName text ∨
        (text = front ++ str "::" ++ bareCalleeName text ∧
          ¬ str "::" <:+: ':' :: bareCalleeName text)) ∧
      '.' ∉ bareCalleeName text ∧ ¬ str "::" <:+: bareCalleeName text := by
  unfold bareCalleeName
  cases hdot : splitLast '.' text with
  | none =>
      have hno : '.' ∉ text := Text.splitLast_none.mp hdot
      cases hcolon : afterColons text with
      | none => exact absurd h (by simp [hno, afterColons_none hcolon])
      | some after =>
          obtain ⟨⟨front, hfront⟩, hlast⟩ := afterColons_some hcolon
          refine ⟨front, Or.inr ⟨hfront, hlast⟩, fun hmem => hno ?_, fun hin => hlast ?_⟩
          · rw [hfront]
            exact List.mem_append_right _ hmem
          · exact hin.trans (List.suffix_cons _ _).isInfix
  | some cut =>
      obtain ⟨front, afterDot⟩ := cut
      obtain ⟨hfront, hno⟩ := Text.splitLast_some.mp hdot
      cases hcolon : afterColons text with
      | none =>
          refine ⟨front, Or.inl hfront, hno, fun hin => afterColons_none hcolon ?_⟩
          exact hin.trans ⟨front ++ ['.'], [], by simp [hfront]⟩
      | some after =>
          obtain ⟨⟨front', hfront'⟩, hlast⟩ := afterColons_some hcolon
          have hdotSuffix : afterDot <:+ text := ⟨front ++ ['.'], by simp [hfront]⟩
          have hcolonSuffix : after <:+ text := ⟨front' ++ str "::", hfront'.symm⟩
          by_cases hlt : afterDot.length < after.length
          · simp only [if_pos hlt]
            have hsuffix := List.suffix_of_suffix_length_le hdotSuffix hcolonSuffix hlt.le
            refine ⟨front, Or.inl hfront, hno, fun hin => hlast ?_⟩
            exact (hin.trans hsuffix.isInfix).trans (List.suffix_cons _ _).isInfix
          · simp only [if_neg hlt]
            have hsuffix := List.suffix_of_suffix_length_le hcolonSuffix hdotSuffix (by omega)
            refine ⟨front', Or.inr ⟨hfront', hlast⟩, fun hmem => hno (hsuffix.subset hmem), ?_⟩
            exact fun hin => hlast (hin.trans (List.suffix_cons _ _).isInfix)

/-- The segment stands directly behind a `.` or a `::` of the text. -/
def FollowsSeparator (text segment : Str) : Prop :=
  '.' :: segment <:+ text ∨ str "::" ++ segment <:+ text

/-- A path of several segments ends in the last one, which holds no separator. -/
structure EndsWith (text segment : Str) : Prop where
  suffix : segment <:+ text
  no_dot : '.' ∉ segment
  no_colon : ':' ∉ segment
  separated : '.' ∈ text ∨ str "::" <:+: text

/-- **The name of a path** is its last segment if nothing stands between it and the separator. -/
theorem bareCalleeName_eq_iff {text segment : Str} (h : EndsWith text segment) :
    bareCalleeName text = segment ↔ FollowsSeparator text segment := by
  obtain ⟨front, hcut, hdot, hcolons⟩ := bareCalleeName_spec h.separated
  generalize bareCalleeName text = name at hcut hdot hcolons
  have hname : name <:+ text := by
    rcases hcut with hcut | ⟨hcut, -⟩
    · exact ⟨front ++ ['.'], by simp [← hcut]⟩
    · exact ⟨front ++ str "::", hcut.symm⟩
  constructor
  · intro heq
    rw [← heq]
    rcases hcut with hcut | ⟨hcut, -⟩
    · exact Or.inl ⟨front, hcut.symm⟩
    · exact Or.inr ⟨front, by rw [← List.append_assoc]; exact hcut.symm⟩
  · intro hfollows
    -- of the two suffixes the longer one would hold the separator before the shorter one
    have hle : segment.length ≤ name.length := by
      by_contra hlt
      have hmem : ∀ sep : Char, sep :: name <:+ text → sep ∈ segment := fun sep hsep =>
        (List.suffix_of_suffix_length_le hsep h.suffix
          (by rw [List.length_cons]; omega)).subset List.mem_cons_self
      rcases hcut with hcut | ⟨hcut, -⟩
      · exact h.no_dot (hmem '.' ⟨front, hcut.symm⟩)
      · refine h.no_colon (hmem ':' ⟨front ++ [':'], ?_⟩)
        rw [hcut]
        simp [str]
    have hge : name.length ≤ segment.length := by
      by_contra hlt
      rcases hfollows with hsep | hsep
      · exact hdot ((List.suffix_of_suffix_length_le hsep hname
          (by rw [List.length_cons]; omega)).subset List.mem_cons_self)
      · by_cases hshort : segment.length + 2 ≤ name.length
        · refine hcolons ?_
          have hsuffix := List.suffix_of_suffix_length_le hsep hname (by simp [str]; omega)
          exact List.IsInfix.trans ⟨[], segment, rfl⟩ hsuffix.isInfix
        · have hlast : ':' :: segment <:+ text :=
            List.IsSuffix.trans ⟨[':'], rfl⟩ hsep
          have hcolon : name = ':' :: segment :=
            (List.suffix_of_suffix_length_le hname hlast
              (by rw [List.length_cons]; omega)).eq_of_length (by rw [List.length_cons]; omega)
          rcases hcut with hcut | ⟨hcut, hno⟩
          · -- a dot before the second colon of `::`
            have hdotted : '.' :: name <:+ text := ⟨front, hcut.symm⟩
            have heq := (List.suffix_of_suffix_length_le hdotted hsep
              (by simp [str, hcolon])).eq_of_length (by simp [str, hcolon])
            rw [hcolon] at heq
            exact absurd (List.cons.inj heq).1 (by decide)
          · exact hno ⟨[], segment, by rw [hcolon]; rfl⟩
    exact (List.suffix_of_suffix_length_le hname h.suffix hge).eq_of_length (by omega)

/-! ## Callees and arguments -/

/-- The last segment of a path: a name, what is accessed, or what is named in a scope. -/
def pathSegment (source : Str) (n : Node) : Option Str :=
  if n.kind = str "identifier" then some (n.text source)
  else if n.kind = str "field_expression" then
    (n.childByField (str "field")).map fun c => c.text source
  else if n.kind = str "scoped_identifier" then
    (n.childByField (str "name")).map fun c => c.text source
  else none

/-- The last path segment of a callee without its type arguments, if the callee is a path. -/
def lastSegment (source : Str) (n : Node) : Option Str :=
  if n.kind = str "generic_function" then
    (n.childByField (str "function")).bind (pathSegment source)
  else pathSegment source n

/-- An argument in an `arguments` node, which may also hold comments and attributes. -/
def isArgument (c : Node) : Bool :=
  c.named && c.kind ≠ str "line_comment" && c.kind ≠ str "block_comment" &&
    c.kind ≠ str "attribute_item"

/-- A call has a callee and an `arguments` node; no other named child looks like a callee, and none
    is of the kind of the arguments. -/
structure CallParts (n f args : Node) : Prop where
  function : f.field = some (str "function")
  arguments : args.field = some (str "arguments")
  one_function : (n.inField (str "function")).length = 1
  one_arguments : (n.inField (str "arguments")).length = 1
  named : f.named = true
  kind : args.kind = str "arguments"
  callee : ∀ c ∈ n.namedChildren, isCalleeKind c.kind = true → c.field = some (str "function")
  others : ∀ c ∈ n.children, c.kind = str "arguments" → c.field = some (str "arguments")

/-- The named nodes of the grammar. -/
def isRustKind (kind : Str) : Bool :=
  leafKinds.contains kind || otherKinds.contains kind || kind = str "call_expression"

/-- What the Rust grammar says of a node. -/
structure RustNode (source : Str) (n : Node) : Prop where
  kind : n.named = true → isRustKind n.kind = true
  function : n.kind = str "function_item" → extractName source n ≠ []
  call : n.kind = str "call_expression" → ∃ f ∈ n.children, ∃ args ∈ n.children, CallParts n f args
  path : isCalleeKind n.kind = true → n.kind ≠ str "identifier" →
    ∃ s ∈ pathSegment source n, EndsWith (n.text source) s
  generic : n.kind = str "generic_function" → ∃ s ∈ lastSegment source n, s ≠ []

variable {args : Node}

/-- The code takes the callee that the grammar puts in the field. -/
theorem callee_eq {source : Str} {n f : Node} (h : CallParts n f args) (hf : f ∈ n.children) :
    callee source n =
      if f.kind = str "identifier" then (f.text source, f.text source)
      else if isCalleeKind f.kind then (f.text source, bareCalleeName (f.text source))
      else ([], []) := by
  have hmem : f ∈ n.namedChildren := List.mem_filter.mpr ⟨hf, h.named⟩
  have hfield := Node.inField_eq_singleton h.one_function hf h.function
  unfold callee
  cases hfind : n.namedChildren.find? fun c => isCalleeKind c.kind with
  | none =>
      have hno := List.find?_eq_none.mp hfind f hmem
      have hid : f.kind ≠ str "identifier" := by
        intro hid
        rw [hid] at hno
        exact hno (by decide)
      simp only [Bool.not_eq_true] at hno
      simp [hid, hno]
  | some c =>
      have hkind := List.find?_some hfind
      have hc := List.mem_of_find?_eq_some hfind
      obtain rfl := Node.eq_of_inField hfield (List.mem_of_mem_filter hc)
        (h.callee c hc hkind)
      by_cases hid : c.kind = str "identifier"
      · simp [hid]
      · simp [hid, hkind]

theorem countArguments_eq {n f : Node} (h : CallParts n f args) (hargs : args ∈ n.children) :
    countArguments n = args.namedChildren.length := by
  unfold countArguments
  cases hfind : n.children.find? fun c => c.kind = str "arguments" with
  | none =>
      have hno := List.find?_eq_none.mp hfind args hargs
      simp [h.kind] at hno
  | some c =>
      have hc := List.mem_of_find?_eq_some hfind
      have hkind : c.kind = str "arguments" := by simpa using List.find?_some hfind
      obtain rfl := Node.eq_of_inField
        (Node.inField_eq_singleton h.one_arguments hargs h.arguments) hc (h.others c hc hkind)
      rfl

/-- The arguments of a call. -/
def argumentsOf (n : Node) : List Node :=
  match n.childByField (str "arguments") with
  | none => []
  | some args => args.children.filter isArgument

/-- Neither a comment nor an attribute stands among the arguments. -/
def PlainArguments (n : Node) : Prop :=
  ∀ args, n.childByField (str "arguments") = some args → ∀ c ∈ args.namedChildren, isArgument c

theorem countArguments_eq_iff {n f : Node} (h : CallParts n f args) (hargs : args ∈ n.children) :
    countArguments n = (argumentsOf n).length ↔ PlainArguments n := by
  have hsub : args.children.filter isArgument = args.namedChildren.filter isArgument := by
    rw [Node.namedChildren, List.filter_filter]
    refine List.filter_congr fun c _ => ?_
    unfold isArgument
    cases c.named <;> simp
  rw [countArguments_eq h hargs, argumentsOf, PlainArguments, Node.childByField_of_inField
    (Node.inField_eq_singleton h.one_arguments hargs h.arguments)]
  simp only [Option.some.injEq, forall_eq', hsub]
  rw [eq_comm, List.length_filter_eq_length_iff]

/-- The callee carries no type arguments, and nothing stands before its last segment that could be
    taken for a part of it. -/
def PlainCallee (source : Str) (n : Node) : Prop :=
  ∀ f, n.childByField (str "function") = some f →
    f.kind ≠ str "generic_function" ∧
      (f.kind = str "field_expression" ∨ f.kind = str "scoped_identifier" →
        ∀ s, lastSegment source f = some s → FollowsSeparator (f.text source) s)

/-- The callee's last segment is the name of the call. -/
def NamedRight (source : Str) (n : Node) (name : Str) : Prop :=
  ∀ f, n.childByField (str "function") = some f → ∀ s, lastSegment source f = some s → name = s

theorem namedRight_iff {source : Str} {n f : Node} (h : CallParts n f args) (hmem : f ∈ n.children)
    (hf : RustNode source f) : NamedRight source n (callee source n).2 ↔ PlainCallee source n := by
  have hgeneric : isCalleeKind (str "generic_function") = false := by decide
  rw [callee_eq h hmem, NamedRight, PlainCallee, Node.childByField_of_inField
    (Node.inField_eq_singleton h.one_function hmem h.function)]
  simp only [Option.some.injEq, forall_eq']
  by_cases hgen : f.kind = str "generic_function"
  · -- the name is empty, the segment is not
    obtain ⟨s, hs, hne⟩ := hf.generic hgen
    rw [Option.mem_def] at hs
    have hid : f.kind ≠ str "identifier" := by rw [hgen]; decide
    rw [if_neg hid, hgen, hgeneric]
    simp [hs, hne]
  · have hlast : lastSegment source f = pathSegment source f := if_neg hgen
    rw [hlast]
    by_cases hid : f.kind = str "identifier"
    · have hsegment : pathSegment source f = some (f.text source) := if_pos hid
      rw [if_pos hid, hsegment]
      simp [hid, str]
    · by_cases hkind : isCalleeKind f.kind = true
      · obtain ⟨s, hs, hends⟩ := hf.path hkind hid
        rw [Option.mem_def] at hs
        have hpath : f.kind = str "field_expression" ∨ f.kind = str "scoped_identifier" := by
          simpa [isCalleeKind, hid] using hkind
        rw [if_neg hid, if_pos hkind, hs]
        simp only [Option.some.injEq, forall_eq', hpath, forall_const, ne_eq, hgen,
          not_false_eq_true, true_and]
        exact bareCalleeName_eq_iff hends
      · have hnone : pathSegment source f = none := by
          simp only [isCalleeKind, Bool.or_eq_true, decide_eq_true_eq, not_or] at hkind
          simp [pathSegment, hkind]
        rw [if_neg hid, if_neg hkind, hnone]
        simp [hgen]

end CodeScope.Visitor.RustVisitor
