import CodeScope.Visitor.RustGrammar

/-! # Call sites of Rust files

What the Rust visitor reaches is told edge by edge (`passesOver`), and every call of the visitor
follows this rule (`visitor_keeps`). A call in the body of a function is recorded as it should be
when no edge on the way to it is passed over and its callee and its arguments are spelled plainly.
-/

namespace CodeScope.Visitor.RustVisitor

open Text (Str str)
open SyntaxTree (Node Path inner innerAs token)
open Descent (follow)

/-! ## What the visitor reaches -/

/-- Where the visitor is: whether it is in an `impl`, whose list of items it goes through by itself,
    and the innermost function it went into. -/
structure Place where
  inImpl : Bool
  enclosing : Option Path

/-- A filtered builtin call: its name is in the list, and the file does not define it. -/
def isFilteredCall (source : Str) (defined : List Str) (n : Node) : Bool :=
  isFiltered defined (callee source n).1 (callee source n).2

def isFilteredMacro (source : Str) (defined : List Str) (n : Node) : Bool :=
  (macroName source n).2.isEmpty ||
    (isRustBuiltin (macroName source n).1 && !defined.contains (macroName source n).2)

/-- The visitor does not go from `n` to its child `c`. -/
def passesOver (source : Str) (defined : List Str) (inImpl : Bool) (n c : Node) : Bool :=
  if !c.named then true
  else if n.kind = str "function_item" then c.kind ≠ str "parameters" && c.kind ≠ str "block"
  else if n.kind = str "impl_item" then
    c.kind ≠ str "function_item" && c.kind ≠ str "declaration_list"
  else if n.kind = str "declaration_list" && inImpl then c.kind ≠ str "function_item"
  else if n.kind = str "call_expression" then
    isCalleeKind c.kind && !isFilteredCall source defined n
  else if n.kind = str "macro_invocation" then
    (c.kind = str "identifier" || c.kind = str "scoped_identifier") &&
      !isFilteredMacro source defined n
  else if n.kind = str "let_declaration" then c.kind = str "identifier" || isLetType c.kind
  else n.kind = str "use_declaration" || leafKinds.contains n.kind

def step (source : Str) (defined : List Str) (t : Place) (p : Path) (n : Node) (_ : ℕ) (c : Node) :
    Option Place :=
  if passesOver source defined t.inImpl n c then none
  else some ⟨n.kind = str "impl_item", if n.kind = str "function_item" then some p else t.enclosing⟩

def Job.ctx : Job → Ctx
  | .visitNode ctx => ctx
  | .visitChildren ctx => ctx
  | .implBody ctx _ => ctx
  | .implMethod ctx _ => ctx

/-- The nodes on which a call of the visitor is made. -/
def Job.suits (n : Node) (inImpl : Bool) : Job → Prop
  | .visitNode _ => ¬ (n.kind = str "declaration_list" ∧ inImpl = true)
  | .visitChildren _ =>
    n.kind = str "source_file" ∨ n.kind = str "parameters" ∨ n.kind = str "block"
  | .implBody _ _ => n.kind = str "declaration_list" ∧ inImpl = true
  | .implMethod _ _ => n.kind = str "function_item"

/-- A call of the visitor at a place. -/
structure At (source : Str) (job : Job) (p : Path) (n : Node) (t : Place) : Prop where
  shape : n.Everywhere (RustNode source)
  suits : job.suits n t.inImpl
  named : n.named = true
  depth : job.ctx.visitDepth ≤ p.length
  top : job.ctx.functionStack.head? = t.enclosing

variable {handler : ℤ → Ctx → Path → Node → RustStep} {source : Str} {defined : List Str}
  {job : Job} {t : Place} {inImpl : Bool} {ctx : Ctx} {p : Path} {n c : Node} {i : ℕ}

theorem At.child (h : At source job p n t) (hc : n.children[i]? = some c) {job' : Job}
    {t' : Place} (hsuits : job'.suits c t'.inImpl) (hnamed : c.named = true)
    (hdepth : job'.ctx.visitDepth ≤ p.length + 1)
    (htop : job'.ctx.functionStack.head? = t'.enclosing) : At source job' (p ++ [i]) c t' :=
  ⟨h.shape.child hc, hsuits, hnamed, by simpa using hdepth, htop⟩

/-- A child is entered, or not, as the rule has it. -/
def Follows (source : Str) (defined : List Str) (t : Place) (p : Path) (n : Node) (i : ℕ) (c : Node)
    (entered : Option Job) : Prop :=
  Option.Rel (fun s' t' => At source s' (p ++ [i]) c t') entered (step source defined t p n i c)

/-- The kinds of nodes that the visitor does not go through child by child. -/
def isSpecial (kind : Str) : Bool :=
  [str "function_item", str "impl_item", str "call_expression", str "macro_invocation",
    str "let_declaration", str "use_declaration"].contains kind || leafKinds.contains kind

theorem passesOver_unnamed (h : c.named = false) : passesOver source defined inImpl n c = true := by
  simp [passesOver, h]

theorem passesOver_eq {b : Bool}
    (h : c.named = true → passesOver source defined inImpl n c = b) :
    passesOver source defined inImpl n c = (!c.named || b) := by
  cases hnamed : c.named with
  | false => exact passesOver_unnamed hnamed
  | true => exact h hnamed

theorem passesOver_ordinary (hkind : isSpecial n.kind = false)
    (hlist : ¬ (n.kind = str "declaration_list" ∧ inImpl = true)) :
    passesOver source defined inImpl n c = !c.named := by
  simp only [isSpecial, Bool.or_eq_false_iff, List.contains_eq_mem, decide_eq_false_iff_not,
    List.mem_cons, List.not_mem_nil, or_false, not_or] at hkind
  obtain ⟨⟨hfunction, himpl, hcall, hinvoked, hlet, huse⟩, hleaf⟩ := hkind
  have hitems : (n.kind = str "declaration_list" && inImpl) = false := by simpa using hlist
  cases hnamed : c.named with
  | false => exact passesOver_unnamed hnamed
  | true => simp [passesOver, hnamed, hfunction, himpl, hitems, hcall, hinvoked, hlet, huse, hleaf]

theorem suits_of_ne_impl (h : n.kind ≠ str "impl_item") (c : Node) (ctx : Ctx) :
    (Job.visitNode ctx).suits c (n.kind = str "impl_item") := by
  intro hboth
  exact h (by simpa using hboth.2)

/-- What `visitChild` does for a child is a step, where the parent is neither a function nor an
    `impl`. -/
theorem follows_visitChild (h : At source job p n t) (hp : p.length < kMaxVisitDepth)
    (hc : n.children[i]? = some c) (hfunction : n.kind ≠ str "function_item")
    (himpl : n.kind ≠ str "impl_item") (hstack : ctx.functionStack = job.ctx.functionStack)
    (hdepth : ctx.visitDepth = job.ctx.visitDepth) {entered : Option Job}
    (hentered : entered = if passesOver source defined t.inImpl n c then none
      else visitChild Job.visitNode ctx) : Follows source defined t p n i c entered := by
  rw [Follows, hentered, step]
  by_cases hover : passesOver source defined t.inImpl n c = true
  · rw [if_pos hover, if_pos hover]
    exact .none
  · have hdeep := h.depth
    have hnamed : c.named = true := by
      by_contra hno
      exact hover (passesOver_unnamed (by simpa using hno))
    have htop : ctx.functionStack.head? = t.enclosing := by
      rw [hstack]
      exact h.top
    rw [if_neg hover, if_neg hover, visitChild_of_lt (by omega), if_neg hfunction]
    exact .some (h.child hc (suits_of_ne_impl himpl c _) hnamed
      (show ctx.visitDepth + 1 ≤ _ by omega) htop)

theorem follows_visitAll (h : At source job p n t) (hp : p.length < kMaxVisitDepth)
    (hc : n.children[i]? = some c) (hfunction : n.kind ≠ str "function_item")
    (himpl : n.kind ≠ str "impl_item") (hstack : ctx.functionStack = job.ctx.functionStack)
    (hdepth : ctx.visitDepth = job.ctx.visitDepth) (records : List Emitted)
    (hover : passesOver source defined t.inImpl n c = !c.named) :
    Follows source defined t p n i c ((visitChildren ctx records).enter i c) := by
  refine follows_visitChild h hp hc hfunction himpl hstack hdepth ?_
  rw [hover]
  show (if c.named = true then visitChild Job.visitNode ctx else none) = _
  cases c.named <;> simp

theorem follows_visitChildren (h : At source job p n t) (hp : p.length < kMaxVisitDepth)
    (hc : n.children[i]? = some c) (hkind : isSpecial n.kind = false)
    (hlist : ¬ (n.kind = str "declaration_list" ∧ t.inImpl = true))
    (hstack : ctx.functionStack = job.ctx.functionStack)
    (hdepth : ctx.visitDepth = job.ctx.visitDepth) (records : List Emitted) :
    Follows source defined t p n i c ((visitChildren ctx records).enter i c) := by
  have hne : ∀ k : Str, isSpecial k = true → n.kind ≠ k := fun k hk heq => by
    rw [heq, hk] at hkind
    exact absurd hkind (by decide)
  exact follows_visitAll h hp hc (hne _ (by decide)) (hne _ (by decide)) hstack hdepth records
    (passesOver_ordinary hkind hlist)

/-- The parameters and the block of a function are gone through with it on top. -/
theorem follows_visitBody (h : At source job p n t) (hc : n.children[i]? = some c)
    (hfunction : n.kind = str "function_item") (hdepth : ctx.visitDepth = job.ctx.visitDepth)
    (records : List Emitted) :
    Follows source defined t p n i c ((visitBody (ctx.inFunction p) records).enter i c) := by
  have himpl : n.kind ≠ str "impl_item" := by rw [hfunction]; decide
  have hdeep := h.depth
  have hin : c.named = true → (c.kind = str "parameters" ∨ c.kind = str "block") →
      At source (.visitChildren (ctx.inFunction p)) (p ++ [i]) c
        ⟨n.kind = str "impl_item", some p⟩ :=
    fun hnamed hkind => h.child hc (Or.inr hkind) hnamed (show ctx.visitDepth ≤ _ by omega) rfl
  have hparameters : str "parameters" ≠ str "identifier" := by decide
  have hblock : str "block" ≠ str "identifier" := by decide
  have hne : str "block" ≠ str "parameters" := by decide
  unfold Follows step passesOver visitBody
  simp only [hfunction, if_true]
  by_cases hnamed : c.named = true
  · by_cases hp : c.kind = str "parameters"
    · have hat := hin hnamed (Or.inl hp)
      simpa [hnamed, hp, hparameters] using Option.Rel.some (by simpa [hfunction] using hat)
    · by_cases hb : c.kind = str "block"
      · have hat := hin hnamed (Or.inr hb)
        simpa [hnamed, hb, hblock, hne] using Option.Rel.some (by simpa [hfunction] using hat)
      · by_cases hid : c.kind = str "identifier"
        · simp [hnamed, hid, Ne.symm hparameters, Ne.symm hblock]
        · simp [hnamed, hp, hb, hid]
  · simp [hnamed]

/-- An `impl` goes to its functions and its lists of items only. -/
theorem follows_impl (h : At source (.visitNode ctx) p n t) (hc : n.children[i]? = some c)
    (himpl : n.kind = str "impl_item") :
    Follows source defined t p n i c ((handleImpl source ctx p n).enter i c) := by
  have hdeep : ctx.visitDepth ≤ p.length + 1 := Nat.le_succ_of_le h.depth
  have hitem : str "impl_item" ≠ str "function_item" := by decide
  have hne : str "declaration_list" ≠ str "function_item" := by decide
  unfold Follows step passesOver handleImpl
  simp only [himpl, if_neg hitem, if_true]
  by_cases hnamed : c.named = true
  · by_cases hf : c.kind = str "function_item"
    · have hat (s : Str) : At source (.implMethod ctx s) (p ++ [i]) c ⟨true, t.enclosing⟩ :=
        h.child hc hf hnamed hdeep h.top
      simpa [hnamed, hf] using Option.Rel.some (hat _)
    · by_cases hl : c.kind = str "declaration_list"
      · have hat (s : Str) : At source (.implBody ctx s) (p ++ [i]) c ⟨true, t.enclosing⟩ :=
          h.child hc ⟨hl, rfl⟩ hnamed hdeep h.top
        simpa [hnamed, hl, hne] using Option.Rel.some (hat _)
      · simp [hnamed, hf, hl]
  · simp [hnamed]

theorem follows_implBody {selfType : Str} (h : At source (.implBody ctx selfType) p n t)
    (hc : n.children[i]? = some c) (hlist : n.kind = str "declaration_list" ∧ t.inImpl = true) :
    Follows source defined t p n i c ((handleImplBody ctx selfType).enter i c) := by
  have hdeep : ctx.visitDepth ≤ p.length + 1 := Nat.le_succ_of_le h.depth
  have hfunction : str "declaration_list" ≠ str "function_item" := by decide
  have himpl : str "declaration_list" ≠ str "impl_item" := by decide
  unfold Follows step passesOver handleImplBody
  simp only [hlist, if_neg hfunction, if_neg himpl, decide_true, Bool.and_self, if_true]
  by_cases hnamed : c.named = true
  · by_cases hf : c.kind = str "function_item"
    · have hat : At source (.implMethod ctx selfType) (p ++ [i]) c ⟨false, t.enclosing⟩ :=
        h.child hc hf hnamed hdeep h.top
      simpa [hnamed, hf, himpl] using Option.Rel.some hat
    · simp [hnamed, hf]
  · simp [hnamed]

theorem kind_of_unhandled (h : RustNode source n) (hnamed : n.named = true)
    (hcall : n.kind ≠ str "call_expression") : n.kind ∈ leafKinds ∨ n.kind ∈ otherKinds := by
  have hkind := h.kind hnamed
  simpa [isRustKind, hcall] using hkind

theorem not_leaf_of_other {kind : Str} (h : kind ∈ otherKinds) : kind ∉ leafKinds := by
  intro hleaf
  have hno := not_leaf_of_passesThrough (otherKinds_pass kind h)
  rw [leafKinds_leaf kind hleaf] at hno
  exact absurd hno (by decide)

theorem not_items {k : Str} (h : n.kind = k) (hne : k ≠ str "declaration_list") :
    ¬ (n.kind = str "declaration_list" && inImpl) = true := by
  simp [Node.ne_of_kind h hne]

theorem follows_call (h : At source (.visitNode ctx) p n t) (hp : p.length < kMaxVisitDepth)
    (hc : n.children[i]? = some c) (hcall : n.kind = str "call_expression") :
    Follows source defined t p n i c ((handleCall source defined ctx p n).enter i c) := by
  have hne : ∀ k, str "call_expression" ≠ k → n.kind ≠ k := fun k => Node.ne_of_kind hcall
  have hover : passesOver source defined t.inImpl n c =
      (!c.named || (isCalleeKind c.kind && !isFilteredCall source defined n)) := by
    refine passesOver_eq fun hnamed => ?_
    rw [passesOver, if_neg (by simp [hnamed]), if_neg (hne _ (by decide)),
      if_neg (hne _ (by decide)), if_neg (not_items hcall (by decide)), if_pos hcall]
  unfold handleCall
  by_cases hfiltered : isFilteredCall source defined n = true
  · simp only [if_pos (show isFiltered defined (callee source n).1 (callee source n).2 = true from
      hfiltered)]
    exact follows_visitAll h hp hc (hne _ (by decide)) (hne _ (by decide))
      (show ctx.functionStack = _ from rfl) rfl [] (by rw [hover, hfiltered]; simp)
  · simp only [if_neg (show ¬ isFiltered defined (callee source n).1 (callee source n).2 = true from
      hfiltered)]
    refine follows_visitChild h hp hc (hne _ (by decide)) (hne _ (by decide))
      (show (ctx.under p).functionStack = _ from rfl) rfl ?_
    rw [hover, Bool.not_eq_true _ |>.mp hfiltered, Bool.not_false, Bool.and_true]

theorem follows_macro (h : At source (.visitNode ctx) p n t) (hp : p.length < kMaxVisitDepth)
    (hc : n.children[i]? = some c) (hinvoked : n.kind = str "macro_invocation") :
    Follows source defined t p n i c ((handleMacro source defined ctx p n).enter i c) := by
  have hne : ∀ k, str "macro_invocation" ≠ k → n.kind ≠ k := fun k => Node.ne_of_kind hinvoked
  have hover : passesOver source defined t.inImpl n c =
      (!c.named || ((c.kind = str "identifier" || c.kind = str "scoped_identifier") &&
        !isFilteredMacro source defined n)) := by
    refine passesOver_eq fun hnamed => ?_
    rw [passesOver, if_neg (by simp [hnamed]), if_neg (hne _ (by decide)),
      if_neg (hne _ (by decide)), if_neg (not_items hinvoked (by decide)),
      if_neg (hne _ (by decide)), if_pos hinvoked]
  have hpassed : isFilteredMacro source defined n = true →
      Follows source defined t p n i c ((visitChildren ctx []).enter i c) := fun hfiltered =>
    follows_visitAll h hp hc (hne _ (by decide)) (hne _ (by decide))
      (show ctx.functionStack = _ from rfl) rfl [] (by rw [hover, hfiltered]; simp)
  unfold handleMacro
  by_cases hname : (macroName source n).2.isEmpty = true
  · simp only [if_pos hname]
    exact hpassed (by rw [isFilteredMacro, hname, Bool.true_or])
  · simp only [if_neg hname]
    by_cases hbuiltin : (isRustBuiltin (macroName source n).1 &&
        !defined.contains (macroName source n).2) = true
    · simp only [if_pos hbuiltin]
      exact hpassed (by rw [isFilteredMacro, hbuiltin, Bool.or_true])
    · simp only [if_neg hbuiltin]
      have hfiltered : isFilteredMacro source defined n = false := by
        rw [isFilteredMacro, Bool.not_eq_true _ |>.mp hname, Bool.not_eq_true _ |>.mp hbuiltin,
          Bool.or_false]
      refine follows_visitChild h hp hc (hne _ (by decide)) (hne _ (by decide))
        (show (ctx.under p).functionStack = _ from rfl) rfl ?_
      rw [hover, hfiltered, Bool.not_false, Bool.and_true, Bool.or_assoc]

theorem follows_let (h : At source (.visitNode ctx) p n t) (hp : p.length < kMaxVisitDepth)
    (hc : n.children[i]? = some c) (hlet : n.kind = str "let_declaration") :
    Follows source defined t p n i c ((handleLet source ctx p n).enter i c) := by
  have hne : ∀ k, str "let_declaration" ≠ k → n.kind ≠ k := fun k => Node.ne_of_kind hlet
  refine follows_visitChild h hp hc (hne _ (by decide)) (hne _ (by decide))
    (show ctx.functionStack = _ from rfl) rfl ?_
  have hover : passesOver source defined t.inImpl n c =
      (!c.named || (c.kind = str "identifier" || isLetType c.kind)) := by
    refine passesOver_eq fun hnamed => ?_
    rw [passesOver, if_neg (by simp [hnamed]), if_neg (hne _ (by decide)),
      if_neg (hne _ (by decide)), if_neg (not_items hlet (by decide)),
      if_neg (hne _ (by decide)), if_neg (hne _ (by decide)), if_pos hlet]
  rw [hover, ← Bool.or_assoc]
  rfl

theorem follows_nothing (hover : passesOver source defined t.inImpl n c = true) :
    Follows source defined t p n i c none := by
  rw [Follows, step, if_pos hover]
  exact .none

/-- **Each call of the visitor follows the rule.** -/
theorem visitor_keeps :
    Descent.Keeps (visitor handler source defined) (step source defined) (At source)
      kMaxVisitDepth := by
  intro job w p n t h hp i c hc
  cases job with
  | visitChildren ctx =>
      have hkind : isSpecial n.kind = false ∧ n.kind ≠ str "declaration_list" := by
        rcases h.suits with heq | heq | heq <;> rw [heq] <;> decide
      exact follows_visitChildren h hp hc hkind.1 (fun hboth => hkind.2 hboth.1) rfl rfl []
  | implBody ctx selfType => exact follows_implBody h hc h.suits
  | implMethod ctx selfType =>
      have hfunction : n.kind = str "function_item" := h.suits
      have hname := h.shape.self.function hfunction
      show Follows source defined t p n i c ((handleImplMethod source ctx selfType p n).enter i c)
      unfold handleImplMethod
      simp only [List.isEmpty_iff, if_neg hname]
      exact follows_visitBody h hc hfunction rfl _
  | visitNode ctx =>
      have hlist := h.suits
      show Follows source defined t p n i c ((visitNode handler source defined ctx p n).enter i c)
      unfold visitNode
      by_cases hfunction : n.kind = str "function_item"
      · have hname := h.shape.self.function hfunction
        rw [if_pos hfunction, handleFunction]
        simp only [List.isEmpty_iff, if_neg hname]
        exact follows_visitBody h hc hfunction rfl _
      rw [if_neg hfunction]
      have htype : ∀ kind, isSpecial n.kind = false →
          Follows source defined t p n i c ((handleType kind source ctx p n).enter i c) := by
        intro kind hkind
        unfold handleType
        by_cases hname : (extractName source n).isEmpty = true
        · simp only [if_pos hname]
          exact follows_visitChildren h hp hc hkind hlist rfl rfl _
        · simp only [if_neg hname]
          exact follows_visitChildren h hp hc hkind hlist
            (show (ctx.under p).functionStack = _ from rfl) rfl _
      by_cases hstruct : (n.kind = str "struct_item" || n.kind = str "union_item") = true
      · rw [if_pos hstruct]
        refine htype .class ?_
        simp only [Bool.or_eq_true, decide_eq_true_eq] at hstruct
        rcases hstruct with heq | heq <;> rw [heq] <;> decide
      rw [if_neg hstruct]
      by_cases henum : n.kind = str "enum_item"
      · rw [if_pos henum]
        exact htype .enum (by rw [henum]; decide)
      rw [if_neg henum]
      by_cases htrait : n.kind = str "trait_item"
      · rw [if_pos htrait]
        exact htype .interface (by rw [htrait]; decide)
      rw [if_neg htrait]
      by_cases himpl : n.kind = str "impl_item"
      · rw [if_pos himpl]
        exact follows_impl h hc himpl
      rw [if_neg himpl]
      by_cases hcall : n.kind = str "call_expression"
      · rw [if_pos hcall]
        exact follows_call h hp hc hcall
      rw [if_neg hcall]
      by_cases hinvoked : n.kind = str "macro_invocation"
      · rw [if_pos hinvoked]
        exact follows_macro h hp hc hinvoked
      rw [if_neg hinvoked]
      by_cases hlet : n.kind = str "let_declaration"
      · rw [if_pos hlet]
        exact follows_let h hp hc hlet
      rw [if_neg hlet]
      by_cases huse : n.kind = str "use_declaration"
      · rw [if_pos huse]
        refine follows_nothing ?_
        simp [passesOver, huse, str]
      rw [if_neg huse]
      rcases kind_of_unhandled h.shape.self h.named hcall with hleaf | hother
      · obtain ⟨records, -, heq⟩ := JsVisitor.visitNode_leaf_shared (leafKinds_leaf n.kind hleaf)
        rw [heq]
        refine follows_nothing ?_
        have hitems : (n.kind = str "declaration_list" && t.inImpl) = false := by
          simpa [Job.suits] using hlist
        simp [passesOver, hfunction, himpl, hitems, hcall, hinvoked, hlet, hleaf]
      · obtain ⟨records, -, heq⟩ := JsVisitor.visitNode_pass_shared (otherKinds_pass n.kind hother)
        rw [heq]
        refine follows_visitChildren h hp hc ?_ hlist rfl rfl _
        simp [isSpecial, hfunction, himpl, hcall, hinvoked, hlet, huse, not_leaf_of_other hother]

/-! ## The records of a call -/

theorem own_visitBody {r : Emitted} (h : r.node = p) : Own p (visitBody ctx [r]) := by
  refine ⟨fun r' hr' _ => ?_, fun _ c hc => by simp [visitBody, hc]⟩
  rw [List.mem_singleton.mp hr']
  exact h

theorem own_go {records : List Emitted} (h : ∀ r ∈ records, r.node = p) :
    Own p (visitChildren ctx records) :=
  proper_visitChildren fun r hr _ => h r hr

theorem own_handleType {kind : Store.RecordKind} : Own p (handleType kind source ctx p n) := by
  unfold handleType
  by_cases hname : (extractName source n).isEmpty = true
  · simp only [if_pos hname]
    exact own_go (by simp)
  · simp only [if_neg hname]
    exact own_go (by simp [emit])

theorem own_handleImpl : Own p (handleImpl source ctx p n) := by
  refine ⟨fun r hr _ => ?_, fun _ c hc => by simp [handleImpl, hc]⟩
  simp only [handleImpl] at hr
  split at hr
  · rw [List.mem_singleton.mp hr]
    rfl
  · exact absurd hr (by simp)

theorem own_handleCall : Own p (handleCall source defined ctx p n) := by
  unfold handleCall
  by_cases hfiltered : isFiltered defined (callee source n).1 (callee source n).2 = true
  · simp only [if_pos hfiltered]
    exact own_go (by simp)
  · simp only [if_neg hfiltered]
    exact ⟨by simp, fun _ c hc => by simp [hc]⟩

theorem own_handleMacro : Own p (handleMacro source defined ctx p n) := by
  unfold handleMacro
  by_cases hname : (macroName source n).2.isEmpty = true
  · simp only [if_pos hname]
    exact own_go (by simp)
  · simp only [if_neg hname]
    by_cases hbuiltin : (isRustBuiltin (macroName source n).1 &&
        !defined.contains (macroName source n).2) = true
    · simp only [if_pos hbuiltin]
      exact own_go (by simp)
    · simp only [if_neg hbuiltin]
      exact ⟨by simp, fun _ c hc => by simp [hc]⟩

theorem own_handleLet : Own p (handleLet source ctx p n) := by
  refine ⟨fun r hr hkind => ?_, fun _ c hc => by simp [handleLet, hc]⟩
  obtain ⟨⟨c, i⟩, -, heq⟩ := List.mem_filterMap.mp hr
  obtain ⟨-, heq⟩ := Option.ite_none_right_eq_some.mp heq
  obtain rfl := Option.some.inj heq
  exact absurd (show Store.RecordKind.variable ∈ sharedKinds by decide) hkind

/-- **Records are given at the node of the call** that gives them, the variables apart. -/
theorem visitor_own (hn : RustNode source n) (hnamed : n.named = true) (job : Job) (w : Unit)
    (p : Path) : Own p (visitor handler source defined job w p n) := by
  cases job with
  | visitChildren ctx => exact own_go (by simp)
  | implBody ctx selfType =>
      exact ⟨fun r hr _ => absurd hr (by simp [visitor, handleImplBody]),
        fun _ c hc => by simp [visitor, handleImplBody, hc]⟩
  | implMethod ctx selfType =>
      show Own p (handleImplMethod source ctx selfType p n)
      unfold handleImplMethod
      by_cases hname : (extractName source n).isEmpty = true
      · simp only [if_pos hname]
        exact proper_visitNothing (by simp)
      · simp only [if_neg hname]
        exact own_visitBody rfl
  | visitNode ctx =>
      show Own p (visitNode handler source defined ctx p n)
      unfold visitNode
      split
      · unfold handleFunction
        by_cases hname : (extractName source n).isEmpty = true
        · simp only [if_pos hname]
          exact own_go (by simp)
        · simp only [if_neg hname]
          exact own_visitBody rfl
      split
      · exact own_handleType
      split
      · exact own_handleType
      split
      · exact own_handleType
      split
      · exact own_handleImpl
      split
      · exact own_handleCall
      split
      · exact own_handleMacro
      split
      · exact own_handleLet
      split
      · exact proper_visitNothing (by simp [emit])
      next hcall _ _ _ =>
        exact own_visitNode ((kind_of_unhandled hn hnamed hcall).imp
          (leafKinds_leaf n.kind) (otherKinds_pass n.kind))

/-- The innermost function or method around the end of a path. -/
def enclosingFunction (root : Node) (r : Path) : Option Path :=
  root.innermostAbove (fun n => n.kind = str "function_item") none [] r

/-- The path goes through the block of a function or a method. -/
def InBody (root : Node) (r : Path) : Prop :=
  ∃ q j rest f b, r = q ++ j :: rest ∧ root.find q = some f ∧ f.kind = str "function_item" ∧
    f.children[j]? = some b ∧ b.kind = str "block"

/-- A Rust file. -/
structure RustFile (source : Str) (root : Node) : Prop where
  nodes : root.Everywhere (RustNode source)
  kind : root.kind = str "source_file"
  named : root.named = true

/-- One record stands for the call at `r`; it has the callee's last segment as name, the number of
    arguments as arity and the innermost function as parent. -/
def Recorded (records : List Emitted) (source : Str) (root : Node) (r : Path) (n : Node) : Prop :=
  ∃ record, records.filter (Emitted.isCallAt r) = [record] ∧ NamedRight source n record.name ∧
    record.arity = (argumentsOf n).length ∧ record.parentId = enclosingFunction root r

theorem step_enclosing {t' : Place} (h : step source defined t p n i c = some t') :
    t'.enclosing =
      if decide (n.kind = str "function_item") = true then some p else t.enclosing := by
  unfold step at h
  split at h
  · exact absurd h (by simp)
  · obtain rfl := Option.some.inj h
    simp

/-- The calls of a file, of those it reaches. -/
theorem calls_of_visit {root : Node} (hfile : RustFile source root) {r : Path}
    (hn : root.find r = some n) (hcall : n.kind = str "call_expression")
    (hdeep : r.length ≤ kMaxVisitDepth) (hbody : InBody root r)
    (hfiltered : isFilteredCall source (definedNames source root) n = false) :
    (visit handler source root).filter (Emitted.isCallAt r) =
      if (follow (step source (definedNames source root)) ⟨false, none⟩ [] root r).isSome then
        [{ emit .callExpr (callee source n).2 r (enclosingFunction root r) with
            arity := countArguments n, callKind := callKind (callee source n).1 }]
      else [] := by
  have hstart : At source (.visitChildren ⟨none, [], 0⟩) [] root ⟨false, none⟩ :=
    ⟨hfile.nodes, Or.inl hfile.kind, hfile.named, le_rfl, rfl⟩
  rw [visit, List.filter_cons_of_neg (by simp [Emitted.isCallAt]),
    calls_at (fun hm hnamed s w p => (visitor_own hm.self hnamed s w p).proper)
      (fun hm hc => hm.of_mem hc) hfile.nodes hfile.named r]
  rcases Descent.arrive_cases (@visitor_keeps handler source (definedNames source root)) hstart ()
    (by simpa using hdeep) hn with ⟨hfollow, harrive⟩ | ⟨t, job, hfollow, harrive, hat⟩
  · rw [hfollow, harrive]
    rfl
  · have henclosing : t.enclosing = enclosingFunction root r :=
      Descent.follow_innermost (fun _ _ _ _ _ _ h => step_enclosing h) hfollow
    have htop : job.ctx.functionStack.head? = enclosingFunction root r := hat.top.trans henclosing
    obtain ⟨q, j, rest, f, body, rfl, hq, hf, hj, -⟩ := hbody
    have hsome : (enclosingFunction root (q ++ j :: rest)).isSome :=
      Node.innermostAbove_isSome hq (by simpa using hf) (by rw [hj]; rfl) none []
    obtain ⟨e, he⟩ := Option.isSome_iff_exists.mp hsome
    rw [he] at htop ⊢
    have hne : ∀ k, str "call_expression" ≠ k → n.kind ≠ k := fun k => Node.ne_of_kind hcall
    rw [hfollow, harrive, Option.map_some, Option.getD_some, Option.isSome_some, if_pos rfl]
    -- only `visitNode` is called on a call
    cases job with
    | visitChildren ctx =>
        rcases hat.suits with heq | heq | heq <;> exact absurd heq (hne _ (by decide))
    | implBody ctx selfType => exact absurd hat.suits.1 (hne _ (by decide))
    | implMethod ctx selfType =>
        exact absurd (show n.kind = str "function_item" from hat.suits) (hne _ (by decide))
    | visitNode ctx =>
        have hno : ¬ isFiltered (definedNames source root) (callee source n).1
            (callee source n).2 = true := by
          simpa [isFilteredCall] using hfiltered
        have hstruct : ¬ (n.kind = str "struct_item" || n.kind = str "union_item") = true := by
          simp [hne (str "struct_item") (by decide), hne (str "union_item") (by decide)]
        show (visitNode handler source (definedNames source root) ctx _ n).reports.filter _ = _
        rw [visitNode, if_neg (hne _ (by decide)), if_neg hstruct, if_neg (hne _ (by decide)),
          if_neg (hne _ (by decide)), if_neg (hne _ (by decide)), if_pos hcall, handleCall]
        simp only [if_neg hno]
        rw [emitCall, show ctx.callParent = some e from Ctx.callParent_of_head htop]
        simp [Emitted.isCallAt, emit]

/-- The visitor reaches the call at `r`. -/
def Reached (source : Str) (root : Node) (r : Path) : Prop :=
  (follow (step source (definedNames source root)) ⟨false, none⟩ [] root r).isSome

/-- **A call is recorded as it should be** exactly when the visitor reaches it, its callee is
    spelled without type arguments and without a gap before its last segment, and neither a comment
    nor an attribute stands among its arguments. -/
theorem call_recorded_iff {root : Node} (hfile : RustFile source root) {r : Path} {n : Node}
    (hn : root.find r = some n) (hcall : n.kind = str "call_expression")
    (hdeep : r.length ≤ kMaxVisitDepth) (hbody : InBody root r)
    (hfiltered : isFilteredCall source (definedNames source root) n = false) :
    Recorded (visit handler source root) source root r n ↔
      Reached source root r ∧ PlainCallee source n ∧ PlainArguments n := by
  have hnode := hfile.nodes r n hn
  obtain ⟨f, hf, args, hargs, hparts⟩ := hnode.call hcall
  have hcallee : RustNode source f := ((hfile.nodes.find hn).of_mem hf).self
  rw [Recorded, calls_of_visit hfile hn hcall hdeep hbody hfiltered, Reached]
  rw [← namedRight_iff hparts hf hcallee, ← countArguments_eq_iff hparts hargs]
  cases follow (step source (definedNames source root)) ⟨false, none⟩ [] root r with
  | none => simp
  | some b => simp [emit]


/-! ## Two files -/

instance (text segment : Str) : Decidable (EndsWith text segment) :=
  decidable_of_iff (segment <:+ text ∧ '.' ∉ segment ∧ ':' ∉ segment ∧
      ('.' ∈ text ∨ str "::" <:+: text))
    ⟨fun h => ⟨h.1, h.2.1, h.2.2.1, h.2.2.2⟩,
      fun h => ⟨h.suffix, h.no_dot, h.no_colon, h.separated⟩⟩

instance (text segment : Str) : Decidable (FollowsSeparator text segment) :=
  inferInstanceAs (Decidable (_ ∨ _))

instance (source : Str) (root : Node) (r : Path) : Decidable (Reached source root r) :=
  inferInstanceAs (Decidable (_ = true))

instance (n f args : Node) : Decidable (CallParts n f args) :=
  decidable_of_iff (f.field = some (str "function") ∧ args.field = some (str "arguments") ∧
      (n.inField (str "function")).length = 1 ∧ (n.inField (str "arguments")).length = 1 ∧
      f.named = true ∧ args.kind = str "arguments" ∧
      (∀ c ∈ n.namedChildren, isCalleeKind c.kind = true → c.field = some (str "function")) ∧
      ∀ c ∈ n.children, c.kind = str "arguments" → c.field = some (str "arguments"))
    ⟨fun ⟨h₁, h₂, h₃, h₄, h₅, h₆, h₇, h₈⟩ => ⟨h₁, h₂, h₃, h₄, h₅, h₆, h₇, h₈⟩,
      fun ⟨h₁, h₂, h₃, h₄, h₅, h₆, h₇, h₈⟩ => ⟨h₁, h₂, h₃, h₄, h₅, h₆, h₇, h₈⟩⟩

theorem isRustKind_spelled (kind : Str) : isRustKind kind =
    (spelledLeafKinds.1.contains kind || spelledOtherKinds.1.contains kind ||
      kind = str "call_expression") := by
  rw [isRustKind, ← spelledLeafKinds.2, ← spelledOtherKinds.2]

instance (source : Str) (n : Node) : Decidable (RustNode source n) :=
  decidable_of_iff ((n.named = true → (spelledLeafKinds.1.contains n.kind ||
        spelledOtherKinds.1.contains n.kind || n.kind = str "call_expression") = true) ∧
      (n.kind = str "function_item" → extractName source n ≠ []) ∧
      (n.kind = str "call_expression" →
        ∃ f ∈ n.children, ∃ args ∈ n.children, CallParts n f args) ∧
      (isCalleeKind n.kind = true → n.kind ≠ str "identifier" →
        ∃ s ∈ pathSegment source n, EndsWith (n.text source) s) ∧
      (n.kind = str "generic_function" → ∃ s ∈ lastSegment source n, s ≠ []))
    ⟨fun ⟨h₁, h₂, h₃, h₄, h₅⟩ =>
        ⟨fun h => (isRustKind_spelled _).trans (h₁ h), h₂, h₃, h₄, h₅⟩,
      fun ⟨h₁, h₂, h₃, h₄, h₅⟩ =>
        ⟨fun h => (isRustKind_spelled _).symm.trans (h₁ h), h₂, h₃, h₄, h₅⟩⟩

/-- The source of a function with one statement. -/
def chained : Str := str "fn m() \x7b a.f().g(); \x7d"

/-- `a.f()` in `a.f().g()` -/
def firstOfChain : Node :=
  innerAs "value" "call_expression" 9 14
    [innerAs "function" "field_expression" 9 12
      [innerAs "value" "identifier" 9 10 [], token "." 10,
        innerAs "field" "field_identifier" 11 12 []],
      innerAs "arguments" "arguments" 12 14 [token "(" 12, token ")" 13]]

/-- The tree of `chained`. -/
def chainedTree : Node :=
  inner "source_file" 0 21
    [inner "function_item" 0 21
      [token "fn" 0, innerAs "name" "identifier" 3 4 [],
        innerAs "parameters" "parameters" 4 6 [token "(" 4, token ")" 5],
        innerAs "body" "block" 7 21
          [token "\x7b" 7,
            inner "expression_statement" 9 19
              [inner "call_expression" 9 18
                [innerAs "function" "field_expression" 9 16
                  [firstOfChain, token "." 14, innerAs "field" "field_identifier" 15 16 []],
                  innerAs "arguments" "arguments" 16 18 [token "(" 16, token ")" 17]],
                token ";" 18],
            token "\x7d" 20]]]

theorem chainedTree_file : RustFile chained chainedTree := by
  have hall : chainedTree.all (fun m => decide (RustNode chained m)) = true := by decide +kernel
  exact ⟨fun p m hm => of_decide_eq_true (Node.everywhere_of_all hall p m hm), rfl, rfl⟩

/-- No handler of JavaScript's own nodes is ever called. -/
def noHandler : ℤ → Ctx → Path → Node → RustStep := fun _ _ _ _ => visitNothing () []

/-- The call of `g` in `a.f().g()` is recorded. -/
theorem call_recorded_chained :
    ∃ n, chainedTree.find [0, 3, 1, 0] = some n ∧
      Recorded (visit noHandler chained chainedTree) chained chainedTree [0, 3, 1, 0] n := by
  refine ⟨_, rfl, (call_recorded_iff chainedTree_file rfl rfl (by decide)
    ⟨[0], 3, [1, 0], _, _, rfl, rfl, rfl, rfl, rfl⟩ (by decide +kernel)).mpr ⟨?_, ?_, ?_⟩⟩
  · decide +kernel
  · intro f hf
    obtain rfl := Option.some.inj hf
    refine ⟨by decide, fun _ s hs => ?_⟩
    obtain rfl := Option.some.inj hs
    decide +kernel
  · intro args hargs
    obtain rfl := Option.some.inj hargs
    decide

/-- **The first call of a chain is lost**: no record stands for `a.f()` in `a.f().g()`. -/
theorem first_of_chain_lost :
    RustFile chained chainedTree ∧ chainedTree.find [0, 3, 1, 0, 0, 0] = some firstOfChain ∧
      firstOfChain.kind = str "call_expression" ∧ InBody chainedTree [0, 3, 1, 0, 0, 0] ∧
      isFilteredCall chained (definedNames chained chainedTree) firstOfChain = false ∧
      ¬ Recorded (visit noHandler chained chainedTree) chained chainedTree [0, 3, 1, 0, 0, 0]
        firstOfChain := by
  have hbody : InBody chainedTree [0, 3, 1, 0, 0, 0] :=
    ⟨[0], 3, [1, 0, 0, 0], _, _, rfl, rfl, rfl, rfl, rfl⟩
  have hfiltered :
      isFilteredCall chained (definedNames chained chainedTree) firstOfChain = false := by
    decide +kernel
  refine ⟨chainedTree_file, rfl, rfl, hbody, hfiltered, fun hrecorded => ?_⟩
  obtain ⟨record, hrecords, -⟩ := hrecorded
  rw [calls_of_visit chainedTree_file rfl rfl (by decide) hbody hfiltered,
    if_neg (by decide +kernel)] at hrecords
  exact absurd hrecords (by simp)

end CodeScope.Visitor.RustVisitor
