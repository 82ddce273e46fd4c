import CodeScope.Visitor.CppDeclarators
import CodeScope.Visitor.CppSteps

/-! # Members of C++ classes

A member gives the records that it should exactly when the visitor reaches it, takes it for a member
that declares a function if it is one, reads the declared name, has the class on top of its stack of
class scopes, and knows its definition out of the class if there is one. -/

namespace CodeScope.Visitor.CppVisitor

open Text (Str str)
open SyntaxTree (Node Path inner innerAs token)
open Descent (follow)
open CVisitor (CStep Job Tables)

/-- The nodes between a class body and its members: templates and conditional groups. -/
def isWrapper (kind : Str) : Bool :=
  [str "template_declaration", str "preproc_if", str "preproc_ifdef", str "preproc_else",
    str "preproc_elif", str "preproc_elifdef"].contains kind

/-- `item` is a member at `m` in the body of a class or struct with the name `cls`. -/
structure Member (source : Str) (root : Node) (cls : Str) (m : Path) (item : Node) : Prop where
  find : root.find m = some item
  kind : item.kind = str "function_definition" ∨ item.kind = str "field_declaration" ∨
    item.kind = str "declaration"
  inside : ∃ q k ws j spec body name, m = q ++ k :: (ws ++ [j]) ∧ root.find q = some spec ∧
    (spec.kind = str "class_specifier" ∨ spec.kind = str "struct_specifier") ∧
    spec.namedByField (str "name") = some name ∧ name.text source = cls ∧
    spec.children[k]? = some body ∧ body.kind = str "field_declaration_list" ∧
    ∀ t, t ≠ [] → t <+: ws → ∃ w, root.find (q ++ k :: t) = some w ∧ isWrapper w.kind = true

/-- The names and qualified names of the functions and methods that are recorded for a node. -/
def functionRecords (records : List Emitted) (m : Path) : List (Str × Str) :=
  (records.filter fun r => decide (r.kind = .function ∨ r.kind = .method) &&
    decide (r.node = m)).map fun r => (r.name, r.qualifiedName)

/-- One record stands for each of the member functions that should have one, named after it and
    qualified with the class, and there are no other records of functions. -/
def MemberRecorded (records : List Emitted) (source : Str) (root : Node) (cls : Str) (m : Path)
    (item : Node) : Prop :=
  (functionRecords records m).Perm
    ((expectedNames source root m item).map fun s => (s, cls ++ str "::" ++ s))

/-! ## When it is so -/

/-- The member stands directly in the body of a `class`. -/
def inClassBody (root : Node) (m : Path) : Bool :=
  (root.find m.dropLast).any (fun l => l.kind = str "field_declaration_list") &&
    (root.find m.dropLast.dropLast).any fun s => s.kind = str "class_specifier"

/-- The visitor takes the node for a function: a definition, or a declaration with a function's
    declarator as a child, which must stand directly in the body of a `class` if it is no
    `field_declaration`. -/
def takenForFunction (root : Node) (m : Path) (item : Node) : Bool :=
  item.kind = str "function_definition" ||
    declaresFunction item && (item.kind = str "field_declaration" || inClassBody root m)

/-- A declaration is left out when a definition was collected under its class and name. -/
def leftOut (source : Str) (root : Node) (w : Tables) (item : Node) : Bool :=
  item.kind ≠ str "function_definition" && !w.currentClassName.isEmpty &&
    (outOfClassDefs source root).contains
      (w.currentClassName ++ str "::" ++ CVisitor.extractName source item)

/-- What the record is qualified with is the class: of a definition with a qualified name that name,
    else the class on top of the stack. -/
def qualifiedWith (source : Str) (w : Tables) (cls : Str) (item : Node) : Prop :=
  if item.kind = str "function_definition" ∧ CVisitor.extractQualifiedName source item ≠ [] then
    CVisitor.extractQualifiedName source item = cls ++ str "::" ++ CVisitor.extractName source item
  else w.currentClassName = cls

/-- The condition. Only one function is declared, and it is taken for one, not left out, its name is
    read and it is qualified with the class; or there is none to be recorded, and then the visitor
    does not come to the node, does not take it for a function, finds no name or leaves it out. -/
def RecordedWhen (handler : ℤ → Ctx → Path → Node → CStep) (source : Str) (root : Node) (cls : Str)
    (m : Path) (item : Node) : Prop :=
  let w := tablesBefore handler source root m
  match expectedNames source root m item with
  | [] => visitedAt source root m = none ∨ takenForFunction root m item = false ∨
      CVisitor.extractName source item = [] ∨ leftOut source root w item = true
  | [name] => (visitedAt source root m).isSome ∧ takenForFunction root m item = true ∧
      leftOut source root w item = false ∧ name ≠ [] ∧ CVisitor.extractName source item = name ∧
      qualifiedWith source w cls item
  | _ => False

/-! ## Where the visitor goes through a class body -/

variable {handler : ℤ → Ctx → Path → Node → CStep} {source : Str} {root : Node}

/-- A node is gone through as a class body exactly when it is the list in a `class`. -/
theorem visitedAt_body (hfile : CppFile source root) {r : Path} {t : Place} {n : Node}
    (h : visitedAt source root r = some (t, n)) :
    t.body = (n.kind = str "field_declaration_list" &&
      (root.find r.dropLast).any fun s => s.kind = str "class_specifier") := by
  induction r using List.reverseRecOn generalizing t n with
  | nil =>
      obtain ⟨rfl, rfl⟩ := Prod.mk.inj (Option.some.inj h)
      rw [hfile.kind]
      rfl
  | append_singleton r i ih =>
      obtain ⟨t', m, hm, -, hlast⟩ := Descent.follow_snoc h
      have hstep : step source (definedNames source root) t' r m i n = some t := hlast
      have hbody := ih hm
      have hfind : root.find r = some m := Descent.follow_find hm
      rw [List.dropLast_concat, hfind, Option.any_some]
      unfold step at hstep
      simp only at hstep
      split at hstep
      · exact absurd hstep (by simp)
      split at hstep
      · next hinside =>
          -- a class body is no class
          rw [hinside] at hbody
          have hlist : m.kind = str "field_declaration_list" := by
            have := hbody.symm
            simp only [Bool.and_eq_true, decide_eq_true_eq] at this
            exact this.1
          obtain rfl := Option.some.inj hstep
          have hclass : m.kind ≠ str "class_specifier" := Node.ne_of_kind hlist (by decide)
          simp [hclass]
      split at hstep
      · next hopens =>
          obtain rfl := Option.some.inj hstep
          by_cases hclass : m.kind = str "class_specifier"
          · have hlist : n.kind = str "field_declaration_list" := by
              rw [opensList, if_neg (Node.ne_of_kind hclass (by decide)), if_pos hclass] at hopens
              exact of_decide_eq_true hopens
            simp [hclass, hlist]
          · simp [hclass]
      split at hstep
      · exact absurd hstep (by simp)
      · next hopens _ =>
          obtain rfl := Option.some.inj hstep
          by_cases hclass : m.kind = str "class_specifier"
          · rw [opensList, if_neg (Node.ne_of_kind hclass (by decide)), if_pos hclass] at hopens
            have hlist : n.kind ≠ str "field_declaration_list" := by simpa using hopens
            simp [hlist]
          · simp [hclass]

/-- A node is taken for a member of its own exactly when it is a declaration of a function directly
    in the body of a `class`. -/
theorem visitedAt_member (hfile : CppFile source root) {r : Path} {t : Place} {n : Node}
    (h : visitedAt source root r = some (t, n)) :
    t.member = (n.kind = str "declaration" && declaresFunction n && inClassBody root r) := by
  cases r using List.reverseRecOn with
  | nil =>
      obtain ⟨rfl, rfl⟩ := Prod.mk.inj (Option.some.inj h)
      rw [hfile.kind]
      rfl
  | append_singleton r i =>
      obtain ⟨t', m, hm, -, hlast⟩ := Descent.follow_snoc h
      have hstep : step source (definedNames source root) t' r m i n = some t := hlast
      have hinside : inClassBody root (r ++ [i]) = t'.body := by
        rw [visitedAt_body hfile hm, inClassBody, List.dropLast_concat,
          show root.find r = some m from Descent.follow_find hm, Option.any_some]
      rw [hinside]
      unfold step at hstep
      simp only at hstep
      split at hstep
      · exact absurd hstep (by simp)
      split at hstep
      · next hbody =>
          obtain rfl := Option.some.inj hstep
          simp [hbody]
      next hbody =>
        split at hstep
        · obtain rfl := Option.some.inj hstep
          simp [hbody]
        split at hstep
        · exact absurd hstep (by simp)
        · obtain rfl := Option.some.inj hstep
          simp [hbody]

/-! ## The records of a member -/

/-- What the visitor records for a node that it takes for a function. -/
def givenRecords (source : Str) (root : Node) (m : Path) (item : Node) (w : Tables) :
    List (Str × Str) :=
  let name := CVisitor.extractName source item
  let qname := CVisitor.extractQualifiedName source item
  let cls := w.currentClassName
  if !takenForFunction root m item || name.isEmpty || leftOut source root w item then []
  else if item.kind = str "function_definition" && !qname.isEmpty then [(name, qname)]
  else [(name, if cls.isEmpty then [] else cls ++ str "::" ++ name)]

variable {m : Path} {item : Node}

theorem memberRecords_eq {ctx : Ctx} {w : Tables}
    (htaken : takenForFunction root m item = declaresFunction item)
    (hkind : item.kind ≠ str "function_definition") :
    ((memberRecords source (outOfClassDefs source root) ctx w m item).filter fun r =>
        decide (r.kind = .function ∨ r.kind = .method) && decide (r.node = m)).map
          (fun r => (r.name, r.qualifiedName)) = givenRecords source root m item w := by
  unfold memberRecords givenRecords leftOut
  rw [htaken]
  simp only [hkind, ne_eq, not_false_eq_true, decide_true, Bool.true_and]
  cases hdeclares : declaresFunction item with
  | false => simp
  | true =>
      by_cases hname : (CVisitor.extractName source item).isEmpty = true
      · simp [hname]
      · by_cases hcls : w.currentClassName.isEmpty = true
        · simp [hname, hcls, emit]
        · by_cases hout : w.currentClassName ++ (str "::" ++ CVisitor.extractName source item) ∈
              outOfClassDefs source root
          · simp [hname, hcls, hout]
          · simp [hname, hcls, hout, emit]

theorem definitionRecords_eq {ctx : Ctx} {w : Tables}
    (hkind : item.kind = str "function_definition") :
    ((CVisitor.handleFuncDef source ctx w m item).reports.filter fun r =>
        decide (r.kind = .function ∨ r.kind = .method) && decide (r.node = m)).map
          (fun r => (r.name, r.qualifiedName)) = givenRecords source root m item w := by
  have htaken : takenForFunction root m item = true := by simp [takenForFunction, hkind]
  have hleft : leftOut source root w item = false := by simp [leftOut, hkind]
  unfold CVisitor.handleFuncDef givenRecords
  rw [htaken, hleft]
  by_cases hname : (CVisitor.extractName source item).isEmpty = true
  · simp only [hname, if_true, Bool.or_true, Bool.true_or]
    rfl
  · by_cases hqname : (CVisitor.extractQualifiedName source item).isEmpty = true
    · simp [hname, hkind, hqname, CVisitor.visitBody, emit]
    · simp [hname, hkind, hqname, CVisitor.visitBody, emit]

/-- The records of a function for a member. -/
theorem functionRecords_eq (handler : ℤ → Ctx → Path → Node → CStep) (hfile : CppFile source root)
    {cls : Str} (hm : Member source root cls m item) :
    functionRecords (visit handler source root) m =
      if (visitedAt source root m).isSome then
        givenRecords source root m item (tablesBefore handler source root m)
      else [] := by
  have hrecords : functionRecords (visit handler source root) m =
      (((Descent.arrive (visitorOf handler source root) start noTables [] root m).map fun a =>
        (visitorOf handler source root a.1 a.2.1 m a.2.2).reports.filter fun r =>
          decide (r.kind = .function ∨ r.kind = .method) && decide (r.node = m)).getD []).map
            fun r => (r.name, r.qualifiedName) := by
    rw [functionRecords, visit, List.filter_cons_of_neg (by simp)]
    refine congrArg _ (records_at (fun kind => kind = .function ∨ kind = .method)
      (fun hk hnamed s w p => ?_) (fun hk hc => hk.of_mem hc) hfile.nodes hfile.named m)
    refine (visitor_own hk.self hnamed s w p).imp fun kind hkind => ?_
    rcases hkind with rfl | rfl <;> decide
  rw [hrecords]
  rcases arrive_cases handler hfile hm.find with
    ⟨hvisited, harrive⟩ | ⟨t, job, hvisited, harrive, hat, -⟩
  · rw [harrive, hvisited]
    rfl
  rw [harrive, hvisited, Option.map_some, Option.getD_some, Option.isSome_some, if_pos rfl]
  have hmember := hat.member.trans (visitedAt_member hfile hvisited)
  simp only
  rcases hm.kind with hkind | hkind | hkind
  · have hne : ∀ k, str "function_definition" ≠ k → item.kind ≠ k := fun k => Node.ne_of_kind hkind
    rcases hat.visited (by rw [hkind]; decide) with ⟨ctx, rfl⟩ | ⟨hother, -⟩
    · show List.map _ (List.filter _ (visitNode handler source (definedNames source root)
        (outOfClassDefs source root) ctx _ m item).reports) = _
      rw [visitNode, if_neg (hne _ (by decide)), if_neg (hne _ (by decide)),
        if_neg (hne _ (by decide)), if_neg (hne _ (by decide)), CVisitor.visitNode, if_pos hkind]
      exact definitionRecords_eq hkind
    · exact absurd hother (hne _ (by decide))
  · have hne : ∀ k, str "field_declaration" ≠ k → item.kind ≠ k := fun k => Node.ne_of_kind hkind
    have htaken : takenForFunction root m item = declaresFunction item := by
      rw [takenForFunction, decide_eq_false (hne _ (by decide)), decide_eq_true hkind]
      simp
    rcases hat.visited (by rw [hkind]; decide) with ⟨ctx, rfl⟩ | ⟨hother, -⟩
    · show List.map _ (List.filter _ (visitNode handler source (definedNames source root)
        (outOfClassDefs source root) ctx _ m item).reports) = _
      rw [visitNode, if_neg (hne _ (by decide)), if_neg (hne _ (by decide)),
        if_neg (hne _ (by decide)), if_pos hkind]
      exact memberRecords_eq htaken (hne _ (by decide))
    · exact absurd hother (hne _ (by decide))
  · have hne : ∀ k, str "declaration" ≠ k → item.kind ≠ k := fun k => Node.ne_of_kind hkind
    have hjob : (declaresFunction item && inClassBody root m) = isMemberJob job := by
      rw [hmember, decide_eq_true hkind, Bool.true_and]
    have htaken : takenForFunction root m item = isMemberJob job := by
      rw [takenForFunction, decide_eq_false (hne _ (by decide)),
        decide_eq_false (hne _ (by decide)), Bool.false_or, Bool.false_or, hjob]
    rcases hat.visited (by rw [hkind]; decide) with ⟨ctx, rfl⟩ | ⟨-, ctx, rfl⟩
    · -- as a declaration of a variable it gives no record
      have hnone : givenRecords source root m item (tablesBefore handler source root m) = [] := by
        unfold givenRecords
        rw [htaken]
        rfl
      show List.map _ (List.filter _ (visitNode handler source (definedNames source root)
        (outOfClassDefs source root) ctx _ m item).reports) = _
      rw [hnone, visitNode, if_neg (hne _ (by decide)), if_neg (hne _ (by decide)),
        if_neg (hne _ (by decide)), if_neg (hne _ (by decide)), CVisitor.visitNode,
        if_neg (hne _ (by decide)), if_pos hkind]
      rfl
    · refine memberRecords_eq ?_ (hne _ (by decide))
      have hdeclares : declaresFunction item = true := by
        rw [show isMemberJob (.memberFunctionDecl ctx) = true from rfl, Bool.and_eq_true] at hjob
        exact hjob.1
      rw [htaken, hdeclares]
      rfl

/-! ## The claim for one member -/

theorem Member.ne_nil (hfile : CppFile source root) {cls : Str} (h : Member source root cls m item) :
    cls ≠ [] := by
  obtain ⟨q, k, ws, j, spec, body, name, -, hspec, hkind, hname, rfl, -⟩ := h.inside
  refine (hfile.nodes q spec hspec).specifier ?_ name hname
  rcases hkind with heq | heq <;> rw [heq] <;> decide

theorem givenRecords_eq_nil_iff {w : Tables} :
    givenRecords source root m item w = [] ↔ takenForFunction root m item = false ∨
      CVisitor.extractName source item = [] ∨ leftOut source root w item = true := by
  unfold givenRecords
  simp only
  split
  · next hnone =>
      simp only [Bool.or_eq_true, Bool.not_eq_true', List.isEmpty_iff, or_assoc] at hnone
      simp [hnone]
  · next hsome =>
      simp only [Bool.or_eq_true, Bool.not_eq_true', List.isEmpty_iff, or_assoc] at hsome
      simp only [hsome, iff_false]
      split <;> simp

/-- The record of a function is qualified with the class under the condition and not otherwise. -/
theorem givenRecords_eq_iff {cls : Str} (hcls : cls ≠ []) {w : Tables} (name : Str) :
    givenRecords source root m item w = [(name, cls ++ str "::" ++ name)] ↔
      takenForFunction root m item = true ∧ leftOut source root w item = false ∧ name ≠ [] ∧
        CVisitor.extractName source item = name ∧ qualifiedWith source w cls item := by
  by_cases hnil : givenRecords source root m item w = []
  · rw [hnil]
    rw [givenRecords_eq_nil_iff] at hnil
    constructor
    · intro h
      exact absurd h (by simp)
    · intro ⟨htaken, hleft, hname, heq, _⟩
      rcases hnil with hno | hempty | hout
      · rw [htaken] at hno
        exact absurd hno (by simp)
      · exact absurd (heq.symm.trans hempty) hname
      · rw [hleft] at hout
        exact absurd hout (by simp)
  have hsome : ¬ (!takenForFunction root m item || (CVisitor.extractName source item).isEmpty ||
      leftOut source root w item) = true := by
    intro h
    refine hnil (givenRecords_eq_nil_iff.mpr ?_)
    simpa [or_assoc] using h
  unfold givenRecords
  simp only [if_neg hsome]
  simp only [Bool.or_eq_true, Bool.not_eq_true', List.isEmpty_iff, not_or, Bool.not_eq_false,
    Bool.not_eq_true] at hsome
  obtain ⟨⟨htaken, hname⟩, hleft⟩ := hsome
  unfold qualifiedWith
  by_cases hown : item.kind = str "function_definition" ∧
      CVisitor.extractQualifiedName source item ≠ []
  · rw [if_pos hown, if_pos (by simpa using hown)]
    constructor
    · intro h
      obtain ⟨rfl, hqualified⟩ := Prod.mk.inj (List.cons.inj h).1
      exact ⟨htaken, hleft, hname, rfl, hqualified⟩
    · intro ⟨_, _, _, heq, hqualified⟩
      rw [hqualified, heq]
  · rw [if_neg hown, if_neg (by simpa using hown)]
    constructor
    · intro h
      obtain ⟨rfl, hqualified⟩ := Prod.mk.inj (List.cons.inj h).1
      refine ⟨htaken, hleft, hname, rfl, ?_⟩
      split at hqualified
      · exact absurd hqualified (by simp [str])
      · exact List.append_cancel_right (List.append_cancel_right hqualified)
    · intro ⟨_, _, _, heq, hscope⟩
      rw [hscope, heq, if_neg (by simpa using hcls)]

theorem givenRecords_length (m : Path) (item : Node) (w : Tables) :
    (givenRecords source root m item w).length ≤ 1 := by
  unfold givenRecords
  simp only
  split
  · simp
  split <;> simp

/-- **A member is recorded as it should be** exactly under the condition. -/
theorem member_recorded_iff (handler : ℤ → Ctx → Path → Node → CStep) (hfile : CppFile source root)
    {cls : Str} {m : Path} {item : Node} (hm : Member source root cls m item) :
    MemberRecorded (visit handler source root) source root cls m item ↔
      RecordedWhen handler source root cls m item := by
  rw [MemberRecorded, functionRecords_eq handler hfile hm, RecordedWhen]
  cases hvisited : visitedAt source root m with
  | none =>
      cases hnames : expectedNames source root m item with
      | nil => simp
      | cons name rest =>
          cases rest with
          | nil => simp
          | cons name' rest => simp
  | some b =>
      simp only [Option.isSome_some, if_true]
      cases hnames : expectedNames source root m item with
      | nil =>
          rw [List.map_nil, List.perm_nil, givenRecords_eq_nil_iff]
          simp
      | cons name rest =>
          cases rest with
          | nil =>
              rw [List.map_singleton, List.perm_singleton,
                givenRecords_eq_iff (hm.ne_nil hfile) name]
              simp
          | cons name' rest =>
              constructor
              · intro hperm
                have hlength := hperm.length_eq
                have hle : (givenRecords source root m item
                    (tablesBefore handler source root m)).length ≤ 1 :=
                  givenRecords_length m item _
                simp only [List.map_cons, List.length_cons] at hlength
                omega
              · exact False.elim

/-! ## Two members -/

/-- A class with two member functions. -/
def members : Str := str "class C \x7b void g(); int* f(); \x7d;"

/-- `void g();` -/
def plainMember : Node :=
  inner "field_declaration" 10 19
    [innerAs "type" "primitive_type" 10 14 [],
      innerAs "declarator" "function_declarator" 15 18
        [innerAs "declarator" "field_identifier" 15 16 [],
          innerAs "parameters" "parameter_list" 16 18 [token "(" 16, token ")" 17]],
      token ";" 18]

/-- `int* f();` -/
def pointerMember : Node :=
  inner "field_declaration" 20 29
    [innerAs "type" "primitive_type" 20 23 [],
      innerAs "declarator" "pointer_declarator" 23 28
        [token "*" 23,
          innerAs "declarator" "function_declarator" 25 28
            [innerAs "declarator" "field_identifier" 25 26 [],
              innerAs "parameters" "parameter_list" 26 28 [token "(" 26, token ")" 27]]],
      token ";" 28]

/-- The tree of `members`. -/
def membersTree : Node :=
  inner "translation_unit" 0 32
    [inner "class_specifier" 0 31
      [token "class" 0, innerAs "name" "type_identifier" 6 7 [],
        innerAs "body" "field_declaration_list" 8 31
          [token "\x7b" 8, plainMember, pointerMember, token "\x7d" 30]],
      token ";" 31]

theorem membersTree_file : CppFile members membersTree := by
  have hall : membersTree.all (fun m => decide (CppNode members m)) = true := by decide +kernel
  exact ⟨fun p m hm => of_decide_eq_true (Node.everywhere_of_all hall p m hm), rfl, rfl⟩

theorem membersTree_member {j : ℕ} (hitem : membersTree.find [0, 2, j] = some item)
    (hkind : item.kind = str "field_declaration") :
    Member members membersTree (str "C") [0, 2, j] item := by
  refine ⟨hitem, Or.inr (Or.inl hkind), [0], 2, [], j, _, _, _, rfl, rfl, Or.inl rfl, rfl, ?_, rfl,
    rfl, fun t ht hprefix => absurd (List.prefix_nil.mp hprefix) ht⟩
  decide +kernel

/-- `void g();` is recorded. -/
theorem member_recorded_plain :
    MemberRecorded (visit noHandler members membersTree) members membersTree (str "C") [0, 2, 1]
      plainMember := by
  have hmember := membersTree_member (j := 1) rfl (show plainMember.kind = _ from rfl)
  have hnames : expectedNames members membersTree [0, 2, 1] plainMember = [str "g"] := by
    decide +kernel
  refine (member_recorded_iff noHandler membersTree_file hmember).mpr ?_
  unfold RecordedWhen
  rw [hnames]
  refine ⟨by decide +kernel, by decide +kernel, by decide +kernel, by decide, by decide +kernel, ?_⟩
  unfold qualifiedWith
  rw [if_neg (fun h => absurd h.1 (by decide))]
  decide +kernel

/-- **A member that returns a pointer is lost**: nothing is recorded for `int* f();`. -/
theorem pointer_member_lost :
    CppFile members membersTree ∧
      Member members membersTree (str "C") [0, 2, 2] pointerMember ∧
      expectedNames members membersTree [0, 2, 2] pointerMember = [str "f"] ∧
      ¬ MemberRecorded (visit noHandler members membersTree) members membersTree (str "C")
        [0, 2, 2] pointerMember := by
  have hmember := membersTree_member (j := 2) rfl (show pointerMember.kind = _ from rfl)
  have hnames : expectedNames members membersTree [0, 2, 2] pointerMember = [str "f"] := by
    decide +kernel
  refine ⟨membersTree_file, hmember, hnames, fun hrecorded => ?_⟩
  rw [MemberRecorded, functionRecords_eq noHandler membersTree_file hmember, hnames,
    givenRecords_eq_nil_iff.mpr (Or.inl (by decide +kernel)), ite_self] at hrecorded
  exact absurd hrecorded.length_eq (by simp)

end CodeScope.Visitor.CppVisitor
