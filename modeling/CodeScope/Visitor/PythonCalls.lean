import CodeScope.Visitor.PythonVisitor

/-! # Call sites of Python files

A kind the Python visitor has no handler for is dispatched by the JavaScript patterns in it: those
of identifiers, imports, strings, truth values and comments end the visit, the others pass it on
(`otherKinds_pass`). A call is recorded as it should be when no edge on the way to it is passed over
(`passesOver`); the name is right then, whatever the callee. -/

namespace CodeScope.Visitor.PythonVisitor

open Text (Str str Spelt str_eq)
open SyntaxTree (Node Path inner innerAs token)
open Descent (follow)

/-! ## The kinds of the grammar -/

/-- The named kinds with the pattern of an identifier, an import, a string, a truth value or a
    comment. -/
def leafKinds : List Str :=
  [str "aliased_import", str "comment", str "concatenated_string", str "false",
    str "future_import_statement", str "identifier", str "import_from_statement",
    str "import_prefix", str "import_statement", str "relative_import", str "string",
    str "string_content", str "string_end", str "string_start", str "true", str "wildcard_import"]

/-- The other named kinds. -/
def otherKinds : List Str :=
  [str "argument_list", str "as_pattern", str "as_pattern_target", str "assert_statement",
    str "assignment", str "attribute", str "augmented_assignment", str "await",
    str "binary_operator", str "block", str "boolean_operator", str "break_statement", str "call",
    str "case_clause", str "case_pattern", str "chevron", str "class_definition",
    str "class_pattern", str "comparison_operator", str "complex_pattern",
    str "conditional_expression", str "constrained_type", str "continue_statement",
    str "decorated_definition", str "decorator", str "default_parameter", str "delete_statement",
    str "dict_pattern", str "dictionary", str "dictionary_comprehension", str "dictionary_splat",
    str "dictionary_splat_pattern", str "dotted_name", str "elif_clause", str "ellipsis",
    str "else_clause", str "escape_interpolation", str "escape_sequence", str "except_clause",
    str "exec_statement", str "expression_list", str "expression_statement", str "finally_clause",
    str "float", str "for_in_clause", str "for_statement", str "format_expression",
    str "format_specifier", str "function_definition", str "generator_expression",
    str "generic_type", str "global_statement", str "if_clause", str "if_statement", str "integer",
    str "interpolation", str "keyword_argument", str "keyword_pattern", str "keyword_separator",
    str "lambda", str "lambda_parameters", str "line_continuation", str "list",
    str "list_comprehension", str "list_pattern", str "list_splat", str "list_splat_pattern",
    str "match_statement", str "member_type", str "module", str "named_expression", str "none",
    str "nonlocal_statement", str "not_operator", str "pair", str "parameters",
    str "parenthesized_expression", str "parenthesized_list_splat", str "pass_statement",
    str "pattern_list", str "positional_separator", str "print_statement", str "raise_statement",
    str "return_statement", str "set", str "set_comprehension", str "slice", str "splat_pattern",
    str "splat_type", str "subscript", str "try_statement", str "tuple", str "tuple_pattern",
    str "type", str "type_alias_statement", str "type_conversion", str "type_parameter",
    str "typed_default_parameter", str "typed_parameter", str "unary_operator",
    str "union_pattern", str "union_type", str "while_statement", str "with_clause",
    str "with_item", str "with_statement", str "yield"]

def spelledLeafKinds : Spelt leafKinds := by
  apply Subtype.mk
  repeat
    apply congrArg₂ List.cons
    · exact str_eq rfl
  rfl

def spelledOtherKinds : Spelt otherKinds := by
  apply Subtype.mk
  repeat
    apply congrArg₂ List.cons
    · exact str_eq rfl
  rfl

theorem leafKinds_leaf : ∀ k ∈ leafKinds, isLeafKind k = true := by
  unfold isLeafKind
  rw [spelledLeafKinds.2, spelledPatterns.2]
  decide +kernel

theorem otherKinds_pass : ∀ k ∈ otherKinds, passesThrough k = true := by
  unfold passesThrough
  rw [spelledOtherKinds.2, spelledPatterns.2]
  decide +kernel

theorem not_leaf_of_other {kind : Str} (h : kind ∈ otherKinds) : kind ∉ leafKinds := by
  intro hleaf
  have hno := not_leaf_of_passesThrough (otherKinds_pass kind h)
  rw [leafKinds_leaf kind hleaf] at hno
  exact absurd hno (by decide)

/-! ## Callees -/

/-- The last name of a callee: a name, or what is accessed. -/
def lastName (source : Str) (n : Node) : Option Str :=
  if n.kind = str "identifier" then some (n.text source)
  else if n.kind = str "attribute" then
    (n.childByField (str "attribute")).map fun c => c.text source
  else none

/-- A call has a callee, and no other named child looks like one. -/
structure CallParts (n f : Node) : Prop where
  function : f.field = some (str "function")
  one_function : (n.inField (str "function")).length = 1
  named : f.named = true
  callee : ∀ c ∈ n.namedChildren, c.kind = str "identifier" ∨ c.kind = str "attribute" →
    c.field = some (str "function")

/-- The identifiers among the named children. -/
def identifiers (n : Node) : List Node := n.namedChildren.filter fun c => c.kind = str "identifier"

/-- What is accessed is a name, and the last of the identifiers. -/
structure AttributeParts (source : Str) (n a : Node) : Prop where
  field : a.field = some (str "attribute")
  one_field : (n.inField (str "attribute")).length = 1
  text : a.text source ≠ []
  last : (identifiers n).getLast?.map Node.field = some (some (str "attribute"))

/-- What the Python grammar says of a node. -/
structure PythonNode (source : Str) (n : Node) : Prop where
  kind : n.named = true → (leafKinds.contains n.kind || otherKinds.contains n.kind) = true
  definition : n.kind = str "function_definition" ∨ n.kind = str "class_definition" →
    extractName source n ≠ []
  call : n.kind = str "call" → ∃ f ∈ n.children, CallParts n f
  accessed : n.kind = str "attribute" → ∃ a ∈ n.children, AttributeParts source n a

theorem extractAttributeName_eq {source : Str} {n a : Node} (h : AttributeParts source n a)
    (ha : a ∈ n.children) : extractAttributeName source n = a.text source := by
  obtain ⟨c, hc, hfield⟩ := Option.map_eq_some_iff.mp h.last
  have hmem : c ∈ n.children :=
    List.mem_of_mem_filter (List.mem_of_mem_filter (List.mem_of_getLast? hc))
  obtain rfl : c = a :=
    Node.eq_of_inField (Node.inField_eq_singleton h.one_field ha h.field) hmem hfield
  cases n
  rw [extractAttributeName]
  unfold identifiers at hc
  have htext : (c.text source).isEmpty = false := by
    rw [List.isEmpty_eq_false_iff]
    exact h.text
  simp only [hc, htext, Bool.not_false, if_true]

/-- The callee's last name is the name of the call. -/
def NamedRight (source : Str) (n : Node) (name : Str) : Prop :=
  ∀ f, n.childByField (str "function") = some f → ∀ s, lastName source f = some s → name = s

/-- **The name is right**, whatever the callee. -/
theorem namedRight {source : Str} {n f : Node} (h : CallParts n f) (hf : f ∈ n.children)
    (hnode : PythonNode source f) : NamedRight source n (callee source n).1 := by
  have hfield := Node.inField_eq_singleton h.one_function hf h.function
  have hmem : f ∈ n.namedChildren := List.mem_filter.mpr ⟨hf, h.named⟩
  rw [NamedRight, Node.childByField_of_inField hfield]
  intro g hg s hs
  obtain rfl := Option.some.inj hg
  unfold callee
  cases hfind : n.namedChildren.find? fun c =>
      c.kind = str "identifier" || c.kind = str "attribute" with
  | none =>
      have hno := List.find?_eq_none.mp hfind f hmem
      simp only [Bool.or_eq_true, decide_eq_true_eq, not_or] at hno
      simp [lastName, hno] at hs
  | some c =>
      have hkind := List.find?_some hfind
      simp only [Bool.or_eq_true, decide_eq_true_eq] at hkind
      have hc := List.mem_of_find?_eq_some hfind
      obtain rfl := Node.eq_of_inField hfield (List.mem_of_mem_filter hc) (h.callee c hc hkind)
      by_cases hid : c.kind = str "identifier"
      · rw [lastName, if_pos hid] at hs
        simp only [if_pos hid]
        exact Option.some.inj hs
      · have hattribute := hkind.resolve_left hid
        obtain ⟨a, ha, hparts⟩ := hnode.accessed hattribute
        rw [lastName, if_neg hid, if_pos hattribute, Node.childByField_of_inField
          (Node.inField_eq_singleton hparts.one_field ha hparts.field)] at hs
        simp only [if_neg hid]
        rw [extractAttributeName_eq hparts ha]
        exact Option.some.inj hs

/-! ## What the visitor reaches -/

/-- The visitor does not go from `n` to its child `c`. -/
def passesOver (n c : Node) : Bool :=
  if !c.named then true
  else if n.kind = str "function_definition" then c.kind ≠ str "parameters" && c.kind ≠ str "block"
  else if n.kind = str "class_definition" then c.kind ≠ str "block"
  else leafKinds.contains n.kind

/-- A step down, with the innermost function so far. -/
def step (enclosing : Option Path) (p : Path) (n : Node) (_ : ℕ) (c : Node) :
    Option (Option Path) :=
  if passesOver n c then none
  else some (if n.kind = str "function_definition" then some p else enclosing)

/-- The visitor reaches the end of the path: no edge on the way is passed over. -/
def Reached (root : Node) (r : Path) : Prop := (follow step none [] root r).isSome

def Job.ctx : Job → Ctx
  | .visitNode _ ctx => ctx
  | .visitChildren _ ctx => ctx
  | .assigned ctx => ctx

/-- The nodes on which a call of the visitor is made. -/
def Job.suits (n : Node) : Job → Prop
  | .visitNode _ _ => True
  | .visitChildren _ _ =>
    n.kind = str "module" ∨ n.kind = str "parameters" ∨ n.kind = str "block"
  | .assigned _ => n.kind = str "identifier"

/-- A call of the visitor, in the innermost function so far. -/
structure At (source : Str) (job : Job) (p : Path) (n : Node) (enclosing : Option Path) : Prop where
  shape : n.Everywhere (PythonNode source)
  suits : job.suits n
  named : n.named = true
  depth : job.ctx.visitDepth ≤ p.length
  top : job.ctx.functionStack.head? = enclosing

variable {handler : ℤ → Ctx → Path → Node → PythonStep} {source : Str} {defined : List Str}
  {job : Job} {enclosing : Option Path} {classes : List Str} {ctx : Ctx} {p : Path} {n c : Node}
  {i : ℕ}

theorem At.child (h : At source job p n enclosing) (hc : n.children[i]? = some c) {job' : Job}
    {e : Option Path} (hsuits : job'.suits c) (hnamed : c.named = true)
    (hdepth : job'.ctx.visitDepth ≤ p.length + 1) (htop : job'.ctx.functionStack.head? = e) :
    At source job' (p ++ [i]) c e :=
  ⟨h.shape.child hc, hsuits, hnamed, by simpa using hdepth, htop⟩

/-- A child is entered, or not, as the rule has it. -/
def Follows (source : Str) (enclosing : Option Path) (p : Path) (n : Node) (i : ℕ) (c : Node)
    (entered : Option Job) : Prop :=
  Option.Rel (fun s' e' => At source s' (p ++ [i]) c e') entered (step enclosing p n i c)

theorem kind_of (h : PythonNode source n) (hnamed : n.named = true) :
    n.kind ∈ leafKinds ∨ n.kind ∈ otherKinds := by
  simpa using h.kind hnamed

theorem passesOver_unnamed (h : c.named = false) : passesOver n c = true := by
  simp [passesOver, h]

/-- What `visitChild` does for a child is a step, where the parent is no function. -/
theorem follows_visitChild (h : At source job p n enclosing) (hp : p.length < kMaxVisitDepth)
    (hc : n.children[i]? = some c) (hfunction : n.kind ≠ str "function_definition")
    (hstack : ctx.functionStack = job.ctx.functionStack)
    (hdepth : ctx.visitDepth = job.ctx.visitDepth) (classes : List Str) {entered : Option Job}
    (hentered : entered = if passesOver n c then none
      else if n.kind = str "assignment" ∧ c.kind = str "identifier" then some (.assigned ctx)
      else visitChild (Job.visitNode classes) ctx) :
    Follows source enclosing p n i c entered := by
  rw [Follows, hentered, step]
  by_cases hover : passesOver n c = true
  · rw [if_pos hover, if_pos hover]
    exact .none
  · have hdeep := h.depth
    have htop : ctx.functionStack.head? = enclosing := by
      rw [hstack]
      exact h.top
    have hnamed : c.named = true := by
      by_contra hno
      exact hover (passesOver_unnamed (by simpa using hno))
    rw [if_neg hover, if_neg hover, if_neg hfunction]
    split
    · next hassigned =>
        exact .some (h.child hc hassigned.2 hnamed (show ctx.visitDepth ≤ _ by omega) htop)
    · rw [visitChild_of_lt (by omega)]
      exact .some (h.child hc trivial hnamed (show ctx.visitDepth + 1 ≤ _ by omega) htop)

/-- The kinds of nodes that the visitor does not go through child by child. -/
def isSpecial (kind : Str) : Bool :=
  [str "function_definition", str "class_definition", str "assignment"].contains kind ||
    leafKinds.contains kind

theorem passesOver_ordinary (hfunction : n.kind ≠ str "function_definition")
    (hclass : n.kind ≠ str "class_definition") (hleaf : n.kind ∉ leafKinds) :
    passesOver n c = !c.named := by
  cases hnamed : c.named with
  | false => simp [passesOver, hnamed]
  | true => simp [passesOver, hnamed, hfunction, hclass, hleaf]

theorem follows_visitChildren (h : At source job p n enclosing) (hp : p.length < kMaxVisitDepth)
    (hc : n.children[i]? = some c) (hkind : isSpecial n.kind = false)
    (hstack : ctx.functionStack = job.ctx.functionStack)
    (hdepth : ctx.visitDepth = job.ctx.visitDepth) (w : Aliases) (records : List Emitted) :
    Follows source enclosing p n i c ((visitChildren classes ctx w records).enter i c) := by
  simp only [isSpecial, Bool.or_eq_false_iff, List.contains_eq_mem, decide_eq_false_iff_not,
    List.mem_cons, List.not_mem_nil, or_false, not_or] at hkind
  obtain ⟨⟨hfunction, hclass, hassignment⟩, hleaf⟩ := hkind
  refine follows_visitChild h hp hc hfunction hstack hdepth classes ?_
  rw [passesOver_ordinary hfunction hclass hleaf]
  show (if c.named = true then visitChild (Job.visitNode classes) ctx else none) = _
  cases c.named <;> simp [hassignment]

/-- The parameters and the block of a function are gone through with it on top. -/
theorem follows_visitBody (h : At source job p n enclosing) (hc : n.children[i]? = some c)
    (hfunction : n.kind = str "function_definition") (hdepth : ctx.visitDepth = job.ctx.visitDepth)
    (w : Aliases) (records : List Emitted) :
    Follows source enclosing p n i c
      ((visitBody classes (ctx.inFunction p) w records).enter i c) := by
  have hdeep := h.depth
  have hin : c.named = true → (c.kind = str "parameters" ∨ c.kind = str "block") →
      At source (.visitChildren classes (ctx.inFunction p)) (p ++ [i]) c (some p) :=
    fun hnamed hkind => h.child hc (Or.inr hkind) hnamed (show ctx.visitDepth ≤ _ by omega) rfl
  have hparameters : str "parameters" ≠ str "identifier" := by decide
  have hblock : str "block" ≠ str "identifier" := by decide
  have hne : str "block" ≠ str "parameters" := by decide
  unfold Follows step passesOver visitBody
  simp only [hfunction, if_true]
  by_cases hnamed : c.named = true
  · by_cases hp : c.kind = str "parameters"
    · simpa [hnamed, hp, hparameters] using Option.Rel.some (hin hnamed (Or.inl hp))
    · by_cases hb : c.kind = str "block"
      · simpa [hnamed, hb, hblock, hne] using Option.Rel.some (hin hnamed (Or.inr hb))
      · by_cases hid : c.kind = str "identifier"
        · simp [hnamed, hid, Ne.symm hparameters, Ne.symm hblock]
        · simp [hnamed, hp, hb, hid]
  · simp [hnamed]

/-- Of a class only the block is gone through. -/
theorem follows_class (h : At source (.visitNode classes ctx) p n enclosing)
    (hc : n.children[i]? = some c) (hclass : n.kind = str "class_definition") (w : Aliases) :
    Follows source enclosing p n i c ((handleClassDef source classes ctx w p n).enter i c) := by
  have hname := h.shape.self.definition (Or.inr hclass)
  have hdeep : ctx.visitDepth ≤ p.length := h.depth
  have hfunction : str "class_definition" ≠ str "function_definition" := by decide
  have hblock : str "block" ≠ str "identifier" := by decide
  unfold Follows handleClassDef step passesOver
  simp only [List.isEmpty_iff, if_neg hname, hclass, if_neg hfunction, if_true]
  by_cases hnamed : c.named = true
  · by_cases hb : c.kind = str "block"
    · have hat : At source (.visitChildren (extractName source n :: classes) (ctx.under p))
          (p ++ [i]) c enclosing :=
        h.child hc (Or.inr (Or.inr hb)) hnamed (show ctx.visitDepth ≤ _ by omega) h.top
      simpa [hnamed, hb, hblock] using Option.Rel.some hat
    · simp [hnamed, hb]
  · simp [hnamed]

theorem follows_nothing (hleaf : n.kind ∈ leafKinds)
    (hfunction : n.kind ≠ str "function_definition") (hclass : n.kind ≠ str "class_definition") :
    Follows source enclosing p n i c none := by
  have hover : passesOver n c = true := by simp [passesOver, hfunction, hclass, hleaf]
  rw [Follows, step, if_pos hover]
  exact .none

theorem follows_assignment (h : At source (.visitNode classes ctx) p n enclosing)
    (hp : p.length < kMaxVisitDepth) (hc : n.children[i]? = some c)
    (hassignment : n.kind = str "assignment") (w : Aliases) :
    Follows source enclosing p n i c ((handleAssignment classes ctx w).enter i c) := by
  have hover : passesOver n c = !c.named :=
    passesOver_ordinary (Node.ne_of_kind hassignment (by decide))
      (Node.ne_of_kind hassignment (by decide)) (by rw [hassignment]; decide)
  refine follows_visitChild h hp hc (Node.ne_of_kind hassignment (by decide))
    (show ctx.functionStack = _ from rfl) rfl classes ?_
  rw [hover]
  unfold handleAssignment
  simp [hassignment]

/-- **Each call of the visitor follows the rule.** -/
theorem visitor_keeps :
    Descent.Keeps (visitor handler source defined) step (At source) kMaxVisitDepth := by
  intro job w p n enclosing h hp i c hc
  cases job with
  | visitChildren classes ctx =>
      have hkind : isSpecial n.kind = false := by
        rcases h.suits with heq | heq | heq <;> rw [heq] <;> decide
      exact follows_visitChildren h hp hc hkind rfl rfl w []
  | assigned ctx =>
      have hkind : n.kind = str "identifier" := h.suits
      exact follows_nothing (by rw [hkind]; decide) (Node.ne_of_kind hkind (by decide))
        (Node.ne_of_kind hkind (by decide))
  | visitNode classes ctx =>
      show Follows source enclosing p n i c
        ((visitNode handler source defined classes ctx w p n).enter i c)
      unfold visitNode
      by_cases hfunction : n.kind = str "function_definition"
      · have hname := h.shape.self.definition (Or.inl hfunction)
        rw [if_pos hfunction]
        unfold handleFuncDef
        simp only [List.isEmpty_iff, if_neg hname]
        exact follows_visitBody h hc hfunction (show ctx.visitDepth = _ from rfl) w _
      rw [if_neg hfunction]
      by_cases hclass : n.kind = str "class_definition"
      · rw [if_pos hclass]
        exact follows_class h hc hclass w
      rw [if_neg hclass]
      by_cases hcall : n.kind = str "call"
      · have hkind : isSpecial n.kind = false := by rw [hcall]; decide
        rw [if_pos hcall]
        unfold handleCall
        by_cases hfiltered : isFiltered defined w (callee source n).1 (callee source n).2 = true
        · simp only [if_pos hfiltered]
          exact follows_visitChildren h hp hc hkind rfl rfl w []
        · simp only [if_neg hfiltered]
          exact follows_visitChildren h hp hc hkind
            (show (ctx.under p).functionStack = _ from rfl) rfl w _
      rw [if_neg hcall]
      by_cases himport : (n.kind = str "import_statement" || n.kind = str "import_from_statement")
          = true
      · rw [if_pos himport]
        refine follows_nothing ?_ hfunction hclass
        simp only [Bool.or_eq_true, decide_eq_true_eq] at himport
        rcases himport with heq | heq <;> rw [heq] <;> decide
      rw [if_neg himport]
      by_cases hassignment : n.kind = str "assignment"
      · rw [if_pos hassignment]
        exact follows_assignment h hp hc hassignment w
      rw [if_neg hassignment]
      by_cases hexcept : n.kind = str "except_clause"
      · rw [if_pos hexcept]
        exact follows_visitChildren h hp hc (by rw [hexcept]; decide) rfl rfl w _
      rw [if_neg hexcept]
      rcases kind_of h.shape.self h.named with hleaf | hother
      · obtain ⟨records, -, heq⟩ := JsVisitor.visitNode_leaf_shared (leafKinds_leaf n.kind hleaf)
        rw [heq]
        exact follows_nothing hleaf hfunction hclass
      · obtain ⟨records, -, heq⟩ := JsVisitor.visitNode_pass_shared (otherKinds_pass n.kind hother)
        rw [heq]
        refine follows_visitChildren h hp hc ?_ rfl rfl w _
        simp [isSpecial, hfunction, hclass, hassignment, not_leaf_of_other hother]

/-! ## The records of a call -/

theorem own_go {w : Aliases} {records : List Emitted} (h : ∀ r ∈ records, r.node = p) :
    Own p (visitChildren classes ctx w records) :=
  proper_visitChildren fun r hr _ => h r hr

theorem visitor_own {n : Node} (hn : PythonNode source n) (hnamed : n.named = true) (job : Job)
    (w : Aliases) (p : Path) : Own p (visitor handler source defined job w p n) := by
  cases job with
  | visitChildren classes ctx => exact own_go (by simp)
  | assigned ctx =>
      refine proper_visitNothing ?_
      split <;> simp [emit]
  | visitNode classes ctx =>
      show Own p (visitNode handler source defined classes ctx w p n)
      unfold visitNode
      split
      · unfold handleFuncDef
        by_cases hname : (extractName source n).isEmpty = true
        · simp only [if_pos hname]
          exact own_go (by simp)
        · simp only [if_neg hname]
          exact ⟨by simp [visitBody, emit], fun _ c hc => by simp [visitBody, hc]⟩
      split
      · unfold handleClassDef
        by_cases hname : (extractName source n).isEmpty = true
        · simp only [if_pos hname]
          exact own_go (by simp)
        · simp only [if_neg hname]
          exact ⟨by simp [emit], fun _ c hc => by simp [hc]⟩
      split
      · unfold handleCall
        by_cases hfiltered : isFiltered defined w (callee source n).1 (callee source n).2 = true
        · simp only [if_pos hfiltered]
          exact own_go (by simp)
        · simp only [if_neg hfiltered]
          exact own_go (by simp)
      split
      · exact proper_visitNothing (by simp [emit])
      split
      · exact ⟨by simp [handleAssignment], fun _ c hc => by simp [handleAssignment, hc]⟩
      split
      · refine own_go ?_
        split <;> simp [emit]
      · exact own_visitNode ((kind_of hn hnamed).imp (leafKinds_leaf n.kind)
          (otherKinds_pass n.kind))

/-- The innermost function around the end of a path. -/
def enclosingFunction (root : Node) (r : Path) : Option Path :=
  root.innermostAbove (fun n => n.kind = str "function_definition") none [] r

/-- The path goes through the block of a function. -/
def InBody (root : Node) (r : Path) : Prop :=
  ∃ q j rest f b, r = q ++ j :: rest ∧ root.find q = some f ∧
    f.kind = str "function_definition" ∧ f.children[j]? = some b ∧ b.kind = str "block"

/-- A Python file. -/
structure PythonFile (source : Str) (root : Node) : Prop where
  nodes : root.Everywhere (PythonNode source)
  kind : root.kind = str "module"
  named : root.named = true

/-- The aliases bound before a node is visited. -/
def importedBefore (handler : ℤ → Ctx → Path → Node → PythonStep) (source : Str) (root : Node)
    (r : Path) : Aliases :=
  Descent.tablesAt (visitor handler source (definedNames source root)) start [] [] root r

/-- A filtered builtin call. -/
def isFilteredCall (handler : ℤ → Ctx → Path → Node → PythonStep) (source : Str) (root : Node)
    (r : Path) (n : Node) : Bool :=
  isFiltered (definedNames source root) (importedBefore handler source root r)
    (callee source n).1 (callee source n).2

/-- One record stands for the call at `r`; it has the callee's last name and, in the body of a
    function, the innermost function as parent. -/
def Recorded (records : List Emitted) (source : Str) (root : Node) (r : Path) (n : Node) : Prop :=
  ∃ record, records.filter (Emitted.isCallAt r) = [record] ∧ NamedRight source n record.name ∧
    (InBody root r → record.parentId = enclosingFunction root r)

theorem step_enclosing {e e' : Option Path} {n : Node} (h : step e p n i c = some e') :
    e' = if decide (n.kind = str "function_definition") = true then some p else e := by
  unfold step at h
  split at h
  · exact absurd h (by simp)
  · obtain rfl := Option.some.inj h
    simp

theorem InBody.enclosing_isSome {root : Node} {r : Path} (h : InBody root r) :
    (enclosingFunction root r).isSome := by
  obtain ⟨q, j, rest, f, body, rfl, hq, hf, hj, -⟩ := h
  exact Node.innermostAbove_isSome hq (by simpa using hf) (by rw [hj]; rfl) none []

/-- The records at a call are those of the call of the visitor that arrives, if one does. -/
theorem calls_of_visit {root : Node} (hfile : PythonFile source root) {r : Path} {n : Node}
    (hn : root.find r = some n) (hcall : n.kind = str "call") (hdeep : r.length ≤ kMaxVisitDepth)
    (hfiltered : isFilteredCall handler source root r n = false) :
    ∃ ctx : Ctx, ctx.functionStack.head? = enclosingFunction root r ∧
      (visit handler source root).filter (Emitted.isCallAt r) =
        if (follow step none [] root r).isSome then
          [emitCall (callee source n).1 r ctx (countArguments n)
            (callKind (callee source n).1 (callee source n).2)]
        else [] := by
  have hstart : At source start [] root none :=
    ⟨hfile.nodes, Or.inl hfile.kind, hfile.named, le_rfl, rfl⟩
  rw [visit, List.filter_cons_of_neg (by simp [Emitted.isCallAt]),
    calls_at (fun hm hnamed s w p => (visitor_own hm.self hnamed s w p).proper)
      (fun hm hc => hm.of_mem hc) hfile.nodes hfile.named r]
  rcases Descent.arrive_cases (@visitor_keeps handler source (definedNames source root)) hstart []
    (by simpa using hdeep) hn with ⟨hfollow, harrive⟩ | ⟨parent, job, hfollow, harrive, hat⟩
  · refine ⟨⟨none, (enclosingFunction root r).toList, 0⟩, by simp, ?_⟩
    rw [hfollow, harrive]
    rfl
  · have hparent : parent = enclosingFunction root r :=
      Descent.follow_innermost (fun _ _ _ _ _ _ h => step_enclosing h) hfollow
    have hne : ∀ k, str "call" ≠ k → n.kind ≠ k := fun k => Node.ne_of_kind hcall
    rw [hfollow, harrive, Option.map_some, Option.getD_some, Option.isSome_some]
    simp only [if_true]
    -- only `visitNode` is called on a call
    cases job with
    | visitChildren classes ctx =>
        rcases hat.suits with heq | heq | heq <;> exact absurd heq (hne _ (by decide))
    | assigned ctx =>
        exact absurd (show n.kind = str "identifier" from hat.suits) (hne _ (by decide))
    | visitNode classes ctx =>
        refine ⟨ctx, hat.top.trans hparent, ?_⟩
        have hno : ¬ isFiltered (definedNames source root) (importedBefore handler source root r)
            (callee source n).1 (callee source n).2 = true := by
          simpa [isFilteredCall] using hfiltered
        show (visitNode handler source (definedNames source root) classes ctx
          (importedBefore handler source root r) _ n).reports.filter _ = _
        rw [visitNode, if_neg (hne _ (by decide)), if_neg (hne _ (by decide)), if_pos hcall]
        unfold handleCall
        simp only [if_neg hno]
        simp [visitChildren, Visitor.visitChildren, Emitted.isCallAt, emitCall, emit]

/-- **A call of a Python file is recorded as it should be** exactly when the visitor reaches it. -/
theorem call_recorded_iff_reached {root : Node} (hfile : PythonFile source root) {r : Path} {n : Node}
    (hn : root.find r = some n) (hcall : n.kind = str "call") (hdeep : r.length ≤ kMaxVisitDepth)
    (hfiltered : isFilteredCall handler source root r n = false) :
    Recorded (visit handler source root) source root r n ↔ Reached root r := by
  obtain ⟨f, hf, hparts⟩ := (hfile.nodes r n hn).call hcall
  have hname := namedRight hparts hf ((hfile.nodes.find hn).of_mem hf).self
  obtain ⟨ctx, htop, hcalls⟩ := calls_of_visit hfile hn hcall hdeep hfiltered
  rw [Recorded, hcalls, Reached]
  cases follow step none [] root r with
  | none => simp
  | some b =>
      simp only [Option.isSome_some, if_true, iff_true]
      refine ⟨_, rfl, hname, fun hbody => ?_⟩
      obtain ⟨e, he⟩ := Option.isSome_iff_exists.mp hbody.enclosing_isSome
      rw [he] at htop ⊢
      exact Ctx.callParent_of_head htop

/-! ## Two calls -/

instance (root : Node) (r : Path) : Decidable (Reached root r) :=
  inferInstanceAs (Decidable (_ = true))

instance (n f : Node) : Decidable (CallParts n f) :=
  decidable_of_iff (f.field = some (str "function") ∧ (n.inField (str "function")).length = 1 ∧
      f.named = true ∧
      ∀ c ∈ n.namedChildren, c.kind = str "identifier" ∨ c.kind = str "attribute" →
        c.field = some (str "function"))
    ⟨fun ⟨h₁, h₂, h₃, h₄⟩ => ⟨h₁, h₂, h₃, h₄⟩, fun ⟨h₁, h₂, h₃, h₄⟩ => ⟨h₁, h₂, h₃, h₄⟩⟩

instance (source : Str) (n a : Node) : Decidable (AttributeParts source n a) :=
  decidable_of_iff (a.field = some (str "attribute") ∧
      (n.inField (str "attribute")).length = 1 ∧ a.text source ≠ [] ∧
      (identifiers n).getLast?.map Node.field = some (some (str "attribute")))
    ⟨fun ⟨h₁, h₂, h₃, h₄⟩ => ⟨h₁, h₂, h₃, h₄⟩, fun ⟨h₁, h₂, h₃, h₄⟩ => ⟨h₁, h₂, h₃, h₄⟩⟩

theorem grammarKind_spelled (kind : Str) :
    (leafKinds.contains kind || otherKinds.contains kind) =
      (spelledLeafKinds.1.contains kind || spelledOtherKinds.1.contains kind) := by
  rw [← spelledLeafKinds.2, ← spelledOtherKinds.2]

instance (source : Str) (n : Node) : Decidable (PythonNode source n) :=
  decidable_of_iff ((n.named = true →
        (spelledLeafKinds.1.contains n.kind || spelledOtherKinds.1.contains n.kind) = true) ∧
      (n.kind = str "function_definition" ∨ n.kind = str "class_definition" →
        extractName source n ≠ []) ∧
      (n.kind = str "call" → ∃ f ∈ n.children, CallParts n f) ∧
      (n.kind = str "attribute" → ∃ a ∈ n.children, AttributeParts source n a))
    ⟨fun ⟨h₁, h₂, h₃, h₄⟩ => ⟨fun h => (grammarKind_spelled _).trans (h₁ h), h₂, h₃, h₄⟩,
      fun ⟨h₁, h₂, h₃, h₄⟩ => ⟨fun h => (grammarKind_spelled _).symm.trans (h₁ h), h₂, h₃, h₄⟩⟩

/-- A function whose body is an f-string and a call. -/
def interpolated : Str := str "def m():\n f\"\x7bg()\x7d\"\n h()"

/-- `g()` in the f-string -/
def interpolatedCall : Node :=
  innerAs "expression" "call" 13 16
    [innerAs "function" "identifier" 13 14 [],
      innerAs "arguments" "argument_list" 14 16 [token "(" 14, token ")" 15]]

/-- The tree of `interpolated`. -/
def interpolatedTree : Node :=
  inner "module" 0 23
    [inner "function_definition" 0 23
      [token "def" 0, innerAs "name" "identifier" 4 5 [],
        innerAs "parameters" "parameters" 5 7 [token "(" 5, token ")" 6], token ":" 7,
        innerAs "body" "block" 10 23
          [inner "expression_statement" 10 18
              [inner "string" 10 18
                [inner "string_start" 10 12 [],
                  inner "interpolation" 12 17
                    [token "\x7b" 12, interpolatedCall, token "\x7d" 16],
                  inner "string_end" 17 18 []]],
            inner "expression_statement" 20 23
              [inner "call" 20 23
                [innerAs "function" "identifier" 20 21 [],
                  innerAs "arguments" "argument_list" 21 23 [token "(" 21, token ")" 22]]]]]]

theorem interpolatedTree_file : PythonFile interpolated interpolatedTree := by
  have hall : interpolatedTree.all (fun m => decide (PythonNode interpolated m)) = true := by
    decide +kernel
  exact ⟨fun p m hm => of_decide_eq_true (Node.everywhere_of_all hall p m hm), rfl, rfl⟩

/-- No handler of JavaScript's own nodes is ever called. -/
def noHandler : ℤ → Ctx → Path → Node → PythonStep := fun _ _ _ _ => visitNothing [] []

/-- The call of `h` is recorded. -/
theorem call_recorded_below_string :
    ∃ n, interpolatedTree.find [0, 4, 1, 0] = some n ∧
      Recorded (visit noHandler interpolated interpolatedTree) interpolated interpolatedTree
        [0, 4, 1, 0] n :=
  ⟨_, rfl, (call_recorded_iff_reached interpolatedTree_file rfl rfl (by decide)
    (by decide +kernel)).mpr (by decide +kernel)⟩

/-- **A call in an f-string is lost**: no record stands for `g()`. -/
theorem interpolated_call_lost :
    PythonFile interpolated interpolatedTree ∧
      interpolatedTree.find [0, 4, 0, 0, 1, 1] = some interpolatedCall ∧
      interpolatedCall.kind = str "call" ∧
      isFilteredCall noHandler interpolated interpolatedTree [0, 4, 0, 0, 1, 1] interpolatedCall
        = false ∧
      ¬ Recorded (visit noHandler interpolated interpolatedTree) interpolated interpolatedTree
        [0, 4, 0, 0, 1, 1] interpolatedCall := by
  have hfiltered : isFilteredCall noHandler interpolated interpolatedTree [0, 4, 0, 0, 1, 1]
      interpolatedCall = false := by
    decide +kernel
  refine ⟨interpolatedTree_file, rfl, rfl, hfiltered, fun hrecorded => ?_⟩
  obtain ⟨record, hrecords, -⟩ := hrecorded
  obtain ⟨ctx, -, hcalls⟩ :=
    calls_of_visit interpolatedTree_file rfl rfl (by decide) hfiltered
  rw [hcalls, if_neg (by decide +kernel)] at hrecords
  exact absurd hrecords (by simp)

end CodeScope.Visitor.PythonVisitor
