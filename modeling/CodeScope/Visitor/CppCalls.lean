import CodeScope.Visitor.CppSteps

/-! # Call sites of C++ files

A call is recorded as it should be when the visitor reaches it, its callee's last segment stands
directly in the callee, no comment stands among its arguments, the function around it has a name
that the visitor reads, and it is no member call through `this` in a class. -/

namespace CodeScope.Visitor.CppVisitor

open Text (Str str)
open SyntaxTree (Node Path inner innerAs token)
open CVisitor (CStep Tables)

/-- The innermost function around the end of a path. -/
def enclosingFunction (root : Node) (r : Path) : Option Path :=
  root.innermostAbove (fun n => n.kind = str "function_definition") none [] r

/-- The name of the innermost class in whose body the path ends. -/
def enclosingClass (source : Str) (root : Node) (r : Path) : Option Str := do
  let list ← root.innermostAbove (fun n => n.kind = str "field_declaration_list") none [] r
  let specifier ← root.find list.dropLast
  if isSpecifier specifier.kind then
    let name ← specifier.namedByField (str "name")
    some (name.text source)
  else none

/-- A filtered builtin call. -/
def isFilteredCall (source : Str) (root n : Node) : Bool :=
  CVisitor.isFiltered (definedNames source root) ((CVisitor.callee n).nameOf source)

/-- One record stands for the call at `r`; it has the callee's last segment, the number of arguments
    and the innermost function, and a member call through `this` has the class around it as the type
    of the receiver. -/
def Recorded (records : List Emitted) (source : Str) (root : Node) (r : Path) (n : Node) : Prop :=
  ∃ record, records.filter (Emitted.isCallAt r) = [record] ∧ NamedRight source n record.name ∧
    record.arity = (argumentsOf n).length ∧ record.parentId = enclosingFunction root r ∧
    (ThisCall n → ∀ cls, enclosingClass source root r = some cls → record.receiverType = cls)

/-- The visitor reads the name of the innermost function. -/
def InNamedFunction (source : Str) (root : Node) (r : Path) : Prop :=
  ∀ e, enclosingFunction root r = some e → ¬ NamelessFunction source root e

variable {handler : ℤ → Ctx → Path → Node → CStep} {source : Str} {root : Node}

theorem enclosingClass_ne_nil (hfile : CppFile source root) {r : Path} {cls : Str}
    (h : enclosingClass source root r = some cls) : cls ≠ [] := by
  unfold enclosingClass at h
  simp only [Option.bind_eq_bind, Option.bind_eq_some_iff] at h
  obtain ⟨list, -, specifier, hspecifier, h⟩ := h
  split at h
  · next hkind =>
      obtain ⟨name, hname, h⟩ := Option.bind_eq_some_iff.mp h
      rw [← Option.some.inj h]
      exact (hfile.nodes _ _ hspecifier).specifier hkind name hname
  · exact absurd h (by simp)

/-- **The parent is right** exactly when the innermost function has a name. -/
theorem callParent_eq_iff {job : CVisitor.Job} {r : Path} {n : Node} {t : Place}
    (hat : At source root job r n t) (ht : t.enclosing = namedFunctionAbove source root r)
    (hinside : (enclosingFunction root r).isSome) :
    (ctxOf job).callParent = enclosingFunction root r ↔ InNamedFunction source root r := by
  obtain ⟨e, he⟩ := Option.isSome_iff_exists.mp hinside
  obtain ⟨s, f, heq, -, -, hf, hkind⟩ := Node.innermostAbove_spec he
  obtain rfl : e = s := heq
  simp only [decide_eq_true_eq] at hkind
  have himp : ∀ m, isNamedFunction source m = true →
      decide (m.kind = str "function_definition") = true := by
    intro m hm
    simp only [isNamedFunction, Bool.and_eq_true] at hm
    exact hm.1
  rw [InNamedFunction, he]
  constructor
  · intro hparent e' he' hnameless
    obtain rfl := Option.some.inj he'
    rw [Ctx.callParent, Ctx.currentFunctionId, hat.ctx.top, ht] at hparent
    cases habove : namedFunctionAbove source root r with
    | none =>
        rw [habove] at hparent
        exact hat.ctx.hangs e hparent hnameless
    | some q =>
        rw [habove] at hparent
        obtain rfl : q = e := Option.some.inj hparent
        obtain ⟨s, m, heq, -, -, hm, hnamed⟩ := Node.innermostAbove_spec habove
        obtain rfl : q = s := heq
        obtain ⟨g, hg, -, hempty⟩ := hnameless
        obtain rfl := Option.some.inj (hm.symm.trans hg)
        simp [isNamedFunction, hempty] at hnamed
  · intro hnamed
    have hname : CVisitor.extractName source f ≠ [] := fun hempty =>
      hnamed e rfl ⟨f, hf, hkind, hempty⟩
    have habove : namedFunctionAbove source root r = some e :=
      Node.innermostAbove_of_imp himp he hf (by simp [isNamedFunction, hkind, hname])
    rw [Ctx.callParent, Ctx.currentFunctionId, hat.ctx.top, ht, habove]
    rfl

/-- The records at a call are those of the call of the visitor that arrives, if one does. -/
theorem calls_of_visit (hfile : CppFile source root) {r : Path} {n : Node}
    (hn : root.find r = some n) (hcall : n.kind = str "call_expression")
    (hdeep : r.length ≤ kMaxVisitDepth) (hfiltered : isFilteredCall source root n = false) :
    (¬ Reached source root r ∧ (visit handler source root).filter (Emitted.isCallAt r) = []) ∨
      (Reached source root r ∧ ∃ job t, At source root job r n t ∧
        t.enclosing = namedFunctionAbove source root r ∧
        (visit handler source root).filter (Emitted.isCallAt r) =
          [CVisitor.callRecord source (ctxOf job) (tablesBefore handler source root r) r n]) := by
  have hcalls : (visit handler source root).filter (Emitted.isCallAt r) =
      ((Descent.arrive (visitorOf handler source root) start noTables [] root r).map fun a =>
        (visitorOf handler source root a.1 a.2.1 r a.2.2).reports.filter
          (Emitted.isCallAt r)).getD [] := by
    rw [visit, List.filter_cons_of_neg (by simp [Emitted.isCallAt])]
    refine calls_at (fun hm hnamed s w p => ?_) (fun hm hc => hm.of_mem hc) hfile.nodes hfile.named r
    exact (visitor_own hm.self hnamed s w p).proper
  rw [hcalls, ← visited_iff_reached hdeep]
  rcases arrive_cases handler hfile hn with
    ⟨hvisited, harrive⟩ | ⟨t, job, hvisited, harrive, hat, ht⟩
  · rw [harrive, hvisited]
    exact Or.inl ⟨by simp, rfl⟩
  · rw [harrive, hvisited]
    refine Or.inr ⟨rfl, job, t, hat, ht, ?_⟩
    have hne : ∀ k, str "call_expression" ≠ k → n.kind ≠ k := fun k => Node.ne_of_kind hcall
    cases job with
    | visitChildren ctx =>
        rcases hat.suits with heq | heq | heq | heq | heq | heq <;>
          exact absurd heq (hne _ (by decide))
    | visitClassBody ctx =>
        exact absurd (show n.kind = str "field_declaration_list" from hat.suits)
          (hne _ (by decide))
    | memberFunctionDecl ctx =>
        exact absurd (show n.kind = str "declaration" from hat.suits) (hne _ (by decide))
    | visitNode ctx =>
        have hno : ¬ CVisitor.isFiltered (definedNames source root)
            ((CVisitor.callee n).nameOf source) = true := by
          simpa [isFilteredCall] using hfiltered
        have hstruct :
            ¬ (n.kind = str "struct_specifier" || n.kind = str "union_specifier") = true := by
          simp [hne (str "struct_specifier") (by decide), hne (str "union_specifier") (by decide)]
        have hreports : (visitorOf handler source root (.visitNode ctx)
            (tablesBefore handler source root r) r n).reports =
            [CVisitor.callRecord source ctx (tablesBefore handler source root r) r n] := by
          show (visitNode handler source (definedNames source root) (outOfClassDefs source root)
            ctx _ r n).reports = _
          rw [visitNode, if_neg (hne _ (by decide)), if_neg (hne _ (by decide)),
            if_neg (hne _ (by decide)), if_neg (hne _ (by decide)), CVisitor.visitNode,
            if_neg (hne _ (by decide)), if_neg (hne _ (by decide)), if_neg hstruct,
            if_neg (hne _ (by decide)), if_pos hcall, CVisitor.handleCall, if_neg hno]
          rfl
        rw [Option.map_some, Option.getD_some, hreports]
        refine List.filter_eq_self.mpr fun record hrecord => ?_
        obtain rfl := List.mem_singleton.mp hrecord
        simp only [CVisitor.callRecord, Emitted.isCallAt]
        split <;> simp [emitCall, emit]

section Record

variable {ctx : Ctx} {w : Tables} {p : Path} {n : Node}

@[simp] theorem callRecord_name :
    (CVisitor.callRecord source ctx w p n).name = (CVisitor.callee n).nameOf source := by
  unfold CVisitor.callRecord
  simp only
  split <;> rfl

@[simp] theorem callRecord_arity :
    (CVisitor.callRecord source ctx w p n).arity = CVisitor.countArguments n := by
  unfold CVisitor.callRecord
  simp only
  split <;> rfl

@[simp] theorem callRecord_parentId :
    (CVisitor.callRecord source ctx w p n).parentId = ctx.callParent := by
  unfold CVisitor.callRecord
  simp only
  split <;> rfl

theorem callRecord_receiverType (h : (CVisitor.callee n).receiverText source = []) :
    (CVisitor.callRecord source ctx w p n).receiverType = [] := by
  unfold CVisitor.callRecord
  simp only [h]
  split <;> rfl

end Record

/-- **A call in a function of a C++ file is recorded as it should be** exactly when the visitor
    reaches it, its callee and its arguments are plain, the function has a name that the visitor
    reads, and it is no member call through `this` in a class with a name. -/
theorem cpp_call_recorded_iff (hfile : CppFile source root) {r : Path} {n : Node}
    (hn : root.find r = some n) (hcall : n.kind = str "call_expression")
    (hdeep : r.length ≤ kMaxVisitDepth) (hinside : (enclosingFunction root r).isSome)
    (hfiltered : isFilteredCall source root n = false) :
    Recorded (visit handler source root) source root r n ↔
      Reached source root r ∧ PlainCallee source n ∧ PlainArguments n ∧
        InNamedFunction source root r ∧
        ¬ (ThisCall n ∧ (enclosingClass source root r).isSome) := by
  obtain ⟨f, hf, args, hargs, hparts⟩ := (hfile.nodes r n hn).call hcall
  have hcallee : f.Everywhere (CppNode source) := (hfile.nodes.find hn).of_mem hf
  rw [Recorded, ← namedRight_iff hparts hf hcallee, ← countArguments_eq_iff hparts hargs]
  rcases calls_of_visit hfile hn hcall hdeep hfiltered with
    ⟨hreached, hcalls⟩ | ⟨hreached, job, t, hat, ht, hcalls⟩
  · rw [hcalls]
    simp [hreached]
  · rw [hcalls, ← callParent_eq_iff hat ht hinside]
    have hthis : (ThisCall n → ∀ cls, enclosingClass source root r = some cls →
        (CVisitor.callRecord source (ctxOf job) (tablesBefore handler source root r) r
          n).receiverType = cls) ↔ ¬ (ThisCall n ∧ (enclosingClass source root r).isSome) := by
      constructor
      · intro hreceiver ⟨hthis, hsome⟩
        obtain ⟨cls, hcls⟩ := Option.isSome_iff_exists.mp hsome
        have hempty := hreceiver hthis cls hcls
        rw [callRecord_receiverType (receiverText_this hparts hf hcallee hthis)] at hempty
        exact enclosingClass_ne_nil hfile hcls hempty.symm
      · intro hno hthis cls hcls
        exact absurd ⟨hthis, by rw [hcls]; rfl⟩ hno
    rw [← hthis]
    simp [hreached]

/-! ## Two calls -/

instance (source : Str) (root : Node) (r : Path) : Decidable (Reached source root r) :=
  inferInstanceAs (Decidable (_ = true))

/-- A function with two calls. -/
def qualified : Str := str "void m() \x7b f(1); a::b::g(); \x7d"

/-- `a::b::g()` -/
def qualifiedCall : Node :=
  inner "call_expression" 17 26
    [innerAs "function" "qualified_identifier" 17 24
      [innerAs "scope" "namespace_identifier" 17 18 [], token "::" 18,
        innerAs "name" "qualified_identifier" 20 24
          [innerAs "scope" "namespace_identifier" 20 21 [], token "::" 21,
            innerAs "name" "identifier" 23 24 []]],
      innerAs "arguments" "argument_list" 24 26 [token "(" 24, token ")" 25]]

/-- The tree of `qualified`. -/
def qualifiedTree : Node :=
  inner "translation_unit" 0 29
    [inner "function_definition" 0 29
      [innerAs "type" "primitive_type" 0 4 [],
        innerAs "declarator" "function_declarator" 5 8
          [innerAs "declarator" "identifier" 5 6 [],
            innerAs "parameters" "parameter_list" 6 8 [token "(" 6, token ")" 7]],
        innerAs "body" "compound_statement" 9 29
          [token "\x7b" 9,
            inner "expression_statement" 11 16
              [inner "call_expression" 11 15
                [innerAs "function" "identifier" 11 12 [],
                  innerAs "arguments" "argument_list" 12 15
                    [token "(" 12, inner "number_literal" 13 14 [], token ")" 14]],
                token ";" 15],
            inner "expression_statement" 17 27 [qualifiedCall, token ";" 26],
            token "\x7d" 28]]]

theorem qualifiedTree_file : CppFile qualified qualifiedTree := by
  have hall : qualifiedTree.all (fun m => decide (CppNode qualified m)) = true := by
    decide +kernel
  exact ⟨fun p m hm => of_decide_eq_true (Node.everywhere_of_all hall p m hm), rfl, rfl⟩

/-- The call `f(1)` is recorded. -/
theorem cpp_call_recorded_plain :
    ∃ n, qualifiedTree.find [0, 2, 1, 0] = some n ∧
      Recorded (visit noHandler qualified qualifiedTree) qualified qualifiedTree [0, 2, 1, 0] n := by
  refine ⟨_, rfl, (cpp_call_recorded_iff qualifiedTree_file rfl rfl (by decide)
    (by decide +kernel) (by decide +kernel)).mpr ⟨by decide +kernel, ?_, ?_, ?_, ?_⟩⟩
  · intro f hf
    obtain rfl := Option.some.inj hf
    exact Or.inl rfl
  · intro args hargs
    obtain rfl := Option.some.inj hargs
    decide
  · intro e he hnameless
    obtain rfl : [0] = e := Option.some.inj he
    obtain ⟨f, hf, -, hempty⟩ := hnameless
    obtain rfl := Option.some.inj hf
    exact absurd hempty (by decide +kernel)
  · intro ⟨hthis, hclass⟩
    exact absurd hclass (by decide +kernel)

/-- **A call of a name in two scopes is not named**: the record of `a::b::g()` is not called `g`. -/
theorem nested_scope_unnamed :
    CppFile qualified qualifiedTree ∧ qualifiedTree.find [0, 2, 2, 0] = some qualifiedCall ∧
      qualifiedCall.kind = str "call_expression" ∧
      enclosingFunction qualifiedTree [0, 2, 2, 0] = some [0] ∧
      isFilteredCall qualified qualifiedTree qualifiedCall = false ∧
      (qualifiedCall.namedByField (str "function")).bind (lastName qualified) = some (str "g") ∧
      ¬ Recorded (visit noHandler qualified qualifiedTree) qualified qualifiedTree [0, 2, 2, 0]
        qualifiedCall := by
  have hfiltered : isFilteredCall qualified qualifiedTree qualifiedCall = false := by
    decide +kernel
  refine ⟨qualifiedTree_file, rfl, rfl, rfl, hfiltered, by decide +kernel, fun hrecorded => ?_⟩
  obtain ⟨record, hrecords, hname, -⟩ := hrecorded
  rcases @calls_of_visit noHandler _ _ qualifiedTree_file [0, 2, 2, 0] _ rfl rfl (by decide)
    hfiltered with ⟨-, hcalls⟩ | ⟨-, job, t, -, -, hcalls⟩
  · rw [hcalls] at hrecords
    exact absurd hrecords (by simp)
  · rw [hcalls] at hrecords
    obtain rfl := (List.cons.inj hrecords).1
    rw [callRecord_name] at hname
    have hempty := hname _ rfl (str "g") (by decide +kernel)
    exact absurd hempty (by decide +kernel)

end CodeScope.Visitor.CppVisitor
